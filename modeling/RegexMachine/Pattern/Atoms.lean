import RegexMachine.Pattern.Bracket
import RegexMachine.Pattern.Reference
import RegexMachine.Pattern.Repeat

/-!
Reading what stands between groups and repeat operators: literals, dots, anchors and escapes.
-/
namespace RegexMachine.Pattern

def literalNode (bytes : Bytes) (start : Nat) : Parse (Node Span) := do
  return .atom ⟨start, ← here⟩ (.literal bytes (← hasOption .ignoreCase))

/-- An operator that is read as a literal; a backslash in front is dropped. -/
def signLiteral (start len : Nat) : Parse (Node Span) := do
  let bytes ← bytesBetween (start + len - 1) (start + len)
  jump (start + len)
  literalNode bytes start

/-- An atom whose notation ends with the byte at the cursor. -/
def atomNode (a : Atom) (start : Nat) : Parse (Node Span) := do
  skip 1
  return .atom ⟨start, ← here⟩ a

/-- A line break of two characters or any single one, without a way back. -/
def newlineNode (e : Encoding) (span : Span) : Node Span :=
  let breaks : List CodeRange := [⟨0x0A, 0x0D⟩, ⟨0x85, 0x85⟩, ⟨0x2028, 0x2029⟩]
  let single := breaks.filter (·.lo ≤ e.maxCode)
  .group span .atomic (.alternation span
    [.atom span (.literal #[13, 10] false), .atom span (.charClass single false)])

/-- Reads a reference written as a number. A number above 9 that no group has is none. -/
def readDecimalReference (start : Nat) : Parse (Option (Node Span)) := do
  if !(← allows .decimalRef) then return none
  let digits ← here
  let n := (← readDecimal).getD 0
  if n ≤ 9 || n ≤ (← get).groupCount then
    if (← read).maxCaptures < n then rejectSince .referenceTooBig start
    return some (← referenceNode (.number n) start)
  jump digits
  return none

/-- The character that closes a name that `c` opens. -/
def nameClose? : Option Char → Option Char
  | some '<' => some '>'
  | some '\'' => some '\''
  | _ => none

/-- Offset of the first `\E` from `i` on, or `n` bytes on. -/
def quoteEnd (b : Bytes) (i : Nat) : Nat → Nat
  | 0 => i
  | n + 1 => if b.startsAt i #[92, 69] then i else quoteEnd b (i + 1) n

/-- Reads quoted text; the cursor is after the opening `\Q`. -/
def readQuote (start : Nat) : Parse (Node Span) := do
  let first ← here
  let b := (← read).pattern
  jump (quoteEnd b first (b.size - first))
  let bytes ← bytesBetween first (← here)
  let _ ← eatText "\\E"
  literalNode bytes start

/-- Anchor that a letter after the backslash stands for. -/
def anchorEscape? (d : Dialect) (ascii : Bool) (c : Char) : Option Anchor :=
  let of (op : Operator) (a : Anchor) := if d.allows op then some a else none
  match c with
  | 'A' => of .bufferAnchors .beginBuffer
  | 'z' => of .bufferAnchors .endBuffer
  | 'Z' => of .bufferAnchors .semiEndBuffer
  | 'G' => of .searchAnchor .beginPosition
  | 'b' => of .wordBoundary (.wordBoundary ascii)
  | 'B' => of .wordBoundary (.notWordBoundary ascii)
  | '<' => of .wordEdges (.wordBegin ascii)
  | '>' => of .wordEdges (.wordEnd ascii)
  | _ => none

/-- Reads an escape for one character, as a literal. -/
def readCharEscape (start : Nat) : Parse (Node Span) := do
  match ← readEscaped false start with
  | .byte b => literalNode #[UInt8.ofNat b] start
  | .code c =>
    match (← read).encoding.encode c with
    | .ok bytes => literalNode bytes.toArray start
    | .error _ => rejectSince .invalidCodePoint start

/-- Reads a reference or a call after its letter. -/
def readNamedTarget (close : Char) (start : Nat) (isCall : Bool) : Parse (Node Span) := do
  skip 2
  let target ← readTarget close start isCall
  if isCall then callNode target start else referenceNode target start

/-- Reads an escape outside brackets. -/
def readEscape : Parse (Node Span) := do
  let start ← here
  let d := (← read).dialect
  let options := (← get).options
  skip 1
  match ← peek with
  | none => reject .endAtEscape start (← here)
  | some c =>
    let close := nameClose? (← peekAt 1)
    if let some t := typeEscape? d options c then
      return ← atomNode (.charType t.type t.negated t.ascii) start
    if ← seesProperty then
      let t ← readProperty start
      return .atom ⟨start, ← here⟩ (.charType t.type t.negated t.ascii)
    if let some a := anchorEscape? d (options.has .asciiWord) c then
      return ← atomNode (.anchor a) start
    if c == 'K' && d.allows .keep then return ← atomNode .keep start
    if c == 'R' && d.allows .newlineEscape then
      skip 1
      return newlineNode (← read).encoding ⟨start, ← here⟩
    if c == 'N' && d.allows .nonNewline then return ← atomNode (.anyChar false) start
    if c == 'X' then reject (.unsupported "\\X") start ((← here) + 1)
    if c == 'Q' && d.allows .quote then
      skip 1
      return ← readQuote start
    if let some close := close then
      if c == 'k' && d.allows .namedRef then return ← readNamedTarget close start false
      if c == 'g' && d.allows .calls then return ← readNamedTarget close start true
    if '1' ≤ c && c ≤ '9' then
      if let some n ← readDecimalReference start then return n
    readCharEscape start

/-- Reads an operator that repeats nothing. -/
def readLooseRepeat (invalid : Bool) (start len : Nat) : Parse (Node Span) := do
  if invalid then reject .nothingToRepeat start (start + len)
  signLiteral start len

/-- Reads what no operator begins. -/
def readPlainAtom (start : Nat) : Parse (Node Span) := do
  let d := (← read).dialect
  let options := (← get).options
  let single := options.has .singleLine
  let c ← peek
  if c == some '[' && d.allows .bracket then readClass
  else if c == some '.' && d.allows .dot then
    atomNode (.anyChar (options.has .dotAll)) start
  else if c == some '^' && d.allows .lineAnchors then
    atomNode (.anchor (if single then .beginBuffer else .beginLine)) start
  else if c == some '$' && d.allows .lineAnchors then
    atomNode (.anchor (if single then .semiEndBuffer else .endLine)) start
  else if c == some '\\' then readEscape
  else
    let (_, bytes) ← nextCode
    literalNode bytes start

/-- Reads an atom where no group begins. -/
def readAtom (sign : Option (Sign × Nat)) : Parse (Node Span) := do
  let start ← here
  let invalid ← behaves .danglingRepeatInvalid
  match sign with
  | some (.interval, len) => readLooseRepeat ((← seesInterval len) && invalid) start len
  | some (.closing, len) => signLiteral start len
  | some (.star, len) | some (.plus, len) | some (.question, len) =>
    readLooseRepeat (invalid && (← behaves .repeatsAnywhere)) start len
  | _ => readPlainAtom start

end RegexMachine.Pattern
