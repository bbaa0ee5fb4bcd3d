import RegexMachine.Encoding.Folding
import RegexMachine.Pattern.Escape

/-!
Bracket expressions: characters, ranges, types, nested brackets and intersections. A bracket
expression is read as a set of code points and a sign.
-/
namespace RegexMachine.Pattern

/-- One element between the brackets. -/
inductive BracketItem where
  | char (code : Nat)
  | set (s : CodeSet)

/-- Members of a type in the encoding of the pattern. -/
def TypeEscape.members (e : Encoding) (t : TypeEscape) : CodeSet :=
  let all := CodeSet.ofRanges (e.typeRanges t.type)
  let kept := if t.ascii then all.inter ⟨[⟨0, 0x7F⟩]⟩ else all
  if t.negated then kept.complement e.maxCode else kept

/-- Offset of the first byte from `i` on that is no ASCII letter, or `n` bytes on. -/
def letterEnd (b : Bytes) (i : Nat) : Nat → Nat
  | 0 => i
  | n + 1 => if ((b[i]?).map byteChar).any Char.isAlpha then letterEnd b (i + 1) n else i

/-- Reads a named type between `[:` and `:]`. What is not of this form is left alone. -/
def readPosixBracket : Parse (Option CodeSet) := do
  let start ← here
  skip 2
  let negated ← eat '^'
  let first ← here
  let b := (← read).pattern
  jump (letterEnd b first (b.size - first))
  let name ← textSince first
  if !(← eatText ":]") then
    jump start
    return none
  match CharType.ofBracket? name with
  | none => rejectSince .invalidPosixBracket start
  | some t =>
    return some (TypeEscape.members (← read).encoding ⟨t, negated, ← hasOption .asciiPosix⟩)

/-- Reads an escape between brackets. -/
def readBracketEscape (start : Nat) : Parse BracketItem := do
  let e := (← read).encoding
  skip 1
  match ← peek with
  | none => reject .endAtEscape start (← here)
  | some c =>
    if let some t := typeEscape? (← read).dialect (← get).options c then
      skip 1
      return .set (t.members e)
    if ← seesProperty then return .set ((← readProperty start).members e)
    return .char (← readEscaped true start).value

/-- The set read so far: the intersection of the parts before the last `&&`, and the part after. -/
structure BracketParts where
  before : Option CodeSet
  current : CodeSet

namespace BracketParts

def all (p : BracketParts) : CodeSet :=
  match p.before with
  | none => p.current
  | some s => s.inter p.current

/-- Begins a new part. -/
def next (p : BracketParts) : BracketParts := ⟨some p.all, CodeSet.empty⟩

def addChar (p : BracketParts) (c : Nat) : BracketParts := ⟨p.before, p.current.add c⟩

def addRange (p : BracketParts) (lo hi : Nat) : BracketParts :=
  ⟨p.before, p.current.addRange lo hi⟩

def addSet (p : BracketParts) (s : CodeSet) : BracketParts := ⟨p.before, p.current.union s⟩

end BracketParts

/-- Whether a `-` follows that can join two ends of a range. -/
def seesRange : Parse Bool := do
  let after ← peekAt 1
  return (← sees '-') && after.any (· != ']')

/-- Adds a range whose ends have been read; `start` is the place of the sign between them. -/
def closeRange (p : BracketParts) (lo start : Nat) : BracketItem → Parse BracketParts
  | .set _ => rejectSince .setAtRangeEnd start
  | .char hi => do
    if lo ≤ hi then return p.addRange lo hi
    if !(← behaves .emptyRanges) then rejectSince .emptyRange start
    return p

/-- A bracket that closes right away is a literal, provided that one more follows. -/
def checkLeadingClose (start : Nat) : Parse Unit := do
  let pos ← here
  let rest ← bytesBetween (pos + 1) (← read).pattern.size
  if !rest.any (byteChar · == ']') then reject .emptyClass start (pos + 1)

mutual

/-- Reads a bracket expression from its opening bracket on: its set and whether it is negated. -/
def readBracket : Nat → Parse (CodeSet × Bool)
  | 0 => stall
  | fuel + 1 => do
    let start ← here
    descend start
    skip 1
    let negated ← eat '^'
    let set ← bracketItems start true ⟨none, CodeSet.empty⟩ fuel
    ascend
    return (set, negated)

/-- Reads elements up to the closing bracket; `first` says that there was none so far. -/
def bracketItems (start : Nat) (first : Bool) (parts : BracketParts) : Nat → Parse CodeSet
  | 0 => stall
  | fuel + 1 => do
    match ← peek with
    | none => rejectSince .unclosedClass start
    | some c =>
      if c == ']' && !first then
        skip 1
        return parts.all
      if c == ']' then checkLeadingClose start
      if (← allows .setOperations) && (← seesText "&&") then
        skip 2
        bracketItems start false parts.next fuel
      else
        match ← bracketItem fuel with
        | .set s => bracketItems start false (parts.addSet s) fuel
        | .char lo =>
          if ← seesRange then
            let sign ← here
            skip 1
            let hi ← bracketItem fuel
            let parts ← closeRange parts lo sign hi
            bracketItems start false parts fuel
          else bracketItems start false (parts.addChar lo) fuel

/-- Reads one element. -/
def bracketItem : Nat → Parse BracketItem
  | 0 => stall
  | fuel + 1 => do
    let start ← here
    match ← peek with
    | some '[' =>
      if (← allows .posixBracket) && (← seesText "[:") then
        if let some s ← readPosixBracket then return .set s
        return .char (← nextCode).1
      if ← allows .setOperations then
        let top := (← read).encoding.maxCode
        let (s, negated) ← readBracket fuel
        return .set (if negated then s.complement top else s)
      return .char (← nextCode).1
    | some '\\' =>
      if ← behaves .escapesInBrackets then readBracketEscape start
      else return .char (← nextCode).1
    | _ => return .char (← nextCode).1

end

/-- Lexicographic order of byte strings. -/
def bytesLe : List UInt8 → List UInt8 → Bool
  | [], _ => true
  | _ :: _, [] => false
  | a :: as, b :: bs => a < b || (a == b && bytesLe as bs)

/-- Drops elements that equal the one before. -/
def dropRepeats {α : Type} [BEq α] : List α → List α
  | [] => []
  | [a] => [a]
  | a :: b :: rest => if a == b then dropRepeats (b :: rest) else a :: dropRepeats (b :: rest)

/-- Folds that begin in a set. -/
def foldsFrom (e : Encoding) (s : CodeSet) : List Unicode.Fold :=
  e.folds.filter (s.contains ·.source)

/-- A set together with the single characters its members fold to. -/
def foldedSet (e : Encoding) (s : CodeSet) : CodeSet :=
  (foldsFrom e s).foldl
    (fun t f => match f.result with
      | [c] => t.add c
      | _ => t) s

/-- The texts of several characters that members of a set fold to, in order. -/
def foldedTexts (e : Encoding) (s : CodeSet) : List (List UInt8) :=
  let texts := (foldsFrom e s).filterMap fun f =>
    match f.result with
    | [_] => none
    | cs => e.encodeAll cs
  dropRepeats (texts.mergeSort bytesLe)

/-- Reads a bracket expression. Where case does not matter, members whose fold is a longer text
make it a choice between those texts, tried first, and the set. -/
def readClass : Parse (Node Span) := do
  let start ← here
  let e := (← read).encoding
  let (s, negated) ← readBracket (4 * (← read).pattern.size + 4)
  let s := (s.clamp e.maxCode).normalize
  let fold ← hasOption .ignoreCase
  let texts := if fold && !negated then foldedTexts e s else []
  let s := if fold then foldedSet e s else s
  let s := if negated && (← behaves .negatedSkipsNewline) then s.add 0x0A else s
  let span : Span := ⟨start, ← here⟩
  let set := Node.atom span (.charClass s.toRanges negated)
  if texts.isEmpty then return set
  let literals := texts.map fun t => Node.atom span (.literal t.toArray true)
  return .alternation span (literals ++ [set])

end RegexMachine.Pattern
