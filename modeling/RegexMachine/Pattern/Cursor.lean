import RegexMachine.CompileLimits
import RegexMachine.Dialect
import RegexMachine.Encoding.Basic
import RegexMachine.Pattern.Node
import RegexMachine.Text.Utf8

/-!
Reading a pattern from left to right. The cursor knows its place, the options in effect there, and
the groups opened so far. Reading stops at the first flaw.
-/
namespace RegexMachine.Pattern

/-- A pattern and how it is compiled. -/
structure Setting where
  pattern : Bytes
  dialect : Dialect
  encoding : Encoding
  limits : CompileLimits

/-- What stays fixed while a pattern is read. -/
structure Reading where
  pattern : Bytes
  dialect : Dialect
  encoding : Encoding
  parseDepth : Nat
  maxCaptures : Nat
  repeatMax : Nat

def Setting.reading (s : Setting) : Reading where
  pattern := s.pattern
  dialect := s.dialect
  encoding := s.encoding
  parseDepth := s.limits.parseDepth
  maxCaptures := s.limits.maxCaptures
  repeatMax := s.limits.repeatMax

/-- A group as it was opened. -/
structure GroupDef where
  name : Option String
  /-- All its definitions are plain parentheses. -/
  plain : Bool
deriving DecidableEq, Repr

structure Cursor where
  pos : Nat
  /-- Options in effect here. -/
  options : Options
  depth : Nat
  /-- Number of the group opened last; a branch reset takes it back. -/
  groupCount : Nat
  /-- Definition of group `i + 1` at index `i`. -/
  groups : Array GroupDef
  hasNamed : Bool
  /-- The first reference by number. -/
  firstNumbered : Option Span
  /-- The pattern calls itself as a whole. -/
  callsWhole : Bool
  properties : PropertyRegistry

def Cursor.start (options : Options) (properties : PropertyRegistry) : Cursor where
  pos := 0
  options := options
  depth := 0
  groupCount := 0
  groups := #[]
  hasNamed := false
  firstNumbered := none
  callsWhole := false
  properties := properties

/-- Why no tree was read. Only the first reason is a property of the pattern; the others say that
the reader itself went wrong. -/
inductive Failure where
  | rejected (e : PatternError)
  /-- The reader stopped before the end. -/
  | stalled (pos size : Nat)
  /-- The reader read past the end. -/
  | overrun (pos size : Nat)
deriving DecidableEq, Repr

abbrev Parse := ReaderT Reading (EStateM Failure Cursor)

/-- A byte as a character of the same code. -/
def byteChar (b : UInt8) : Char := Char.ofNat b.toNat

variable {α : Type}

def here : Parse Nat := return (← get).pos

def reject (flaw : Flaw) (start stop : Nat) : Parse α :=
  throw (.rejected ⟨flaw, ⟨start, stop⟩⟩)

/-- Blames everything from `start` to the cursor. -/
def rejectSince (flaw : Flaw) (start : Nat) : Parse α := do
  let pos ← here
  reject flaw start (max pos start)

def stall : Parse α := do throw (.stalled (← here) (← read).pattern.size)

def overrun : Parse α := do throw (.overrun (← here) (← read).pattern.size)

def peekAt (k : Nat) : Parse (Option Char) := do
  return ((← read).pattern[(← here) + k]?).map byteChar

def peek : Parse (Option Char) := peekAt 0

def atEnd : Parse Bool := do return (← read).pattern.size ≤ (← here)

def sees (c : Char) : Parse Bool := return (← peek) == some c

def seesText (s : String) : Parse Bool := do
  if (← here) ≤ (← read).pattern.size then
    return (← read).pattern.startsAt (← here) (Bytes.ofString s)
  else overrun

def jump (pos : Nat) : Parse Unit := modify fun s => { s with pos := pos }

def skip (n : Nat) : Parse Unit := modify fun s => { s with pos := s.pos + n }

def eat (c : Char) : Parse Bool := do
  if ← sees c then
    skip 1
    return true
  return false

def eatText (s : String) : Parse Bool := do
  if ← seesText s then
    skip s.utf8ByteSize
    return true
  return false

/-- The byte at the cursor, which moves on. -/
def nextByte : Parse Char := do
  match ← peek with
  | some c =>
    skip 1
    return c
  | none => overrun

/-- Code and length of the character at the cursor. -/
def peekCode : Parse (Option (Nat × Nat)) := do
  if ← atEnd then return none
  return some ((← read).encoding.decodeAt (← read).pattern (← here))

/-- Bytes from `start` up to `stop`, which both lie in the pattern. -/
def bytesBetween (start stop : Nat) : Parse Bytes := do
  let b := (← read).pattern
  if start ≤ stop && stop ≤ b.size then return b.slice start stop
  overrun

/-- Code and bytes of the character at the cursor, which moves on. -/
def nextCode : Parse (Nat × Bytes) := do
  match ← peekCode with
  | some (code, len) =>
    let pos ← here
    skip len
    return (code, ← bytesBetween pos (pos + len))
  | none => overrun

def allows (op : Operator) : Parse Bool := return (← read).dialect.allows op

def behaves (b : Behavior) : Parse Bool := return (← read).dialect.behaves b

def hasOption (f : CompileFlag) : Parse Bool := return (← get).options.has f

/-- Operators whose notation may or may not have a backslash. -/
inductive Sign where
  | bar | opening | closing | star | plus | question | interval
deriving DecidableEq, Repr

def Sign.ofChar? : Char → Option Sign
  | '|' => some bar
  | '(' => some opening
  | ')' => some closing
  | '*' => some star
  | '+' => some plus
  | '?' => some question
  | '{' => some interval
  | _ => none

def Sign.plainOperator : Sign → Operator
  | bar => .bar
  | opening => .paren
  | closing => .paren
  | star => .star
  | plus => .plus
  | question => .question
  | interval => .interval

def Sign.escapedOperator : Sign → Operator
  | bar => .escBar
  | opening => .escParen
  | closing => .escParen
  | star => .escStar
  | plus => .escPlus
  | question => .escQuestion
  | interval => .escInterval

/-- The operator at the cursor, and the length of its notation. -/
def peekSign : Parse (Option (Sign × Nat)) := do
  let d := (← read).dialect
  match ← peek with
  | none => return none
  | some '\\' =>
    return ((← peekAt 1).bind Sign.ofChar?).bind fun s =>
      if d.allows s.escapedOperator then some (s, 2) else none
  | some c =>
    return (Sign.ofChar? c).bind fun s => if d.allows s.plainOperator then some (s, 1) else none

/-- Offset after the line break that ends a comment, or `n` bytes on. -/
def commentEnd (b : Bytes) (i : Nat) : Nat → Nat
  | 0 => i
  | n + 1 => if b.byteAt i == 10 then i + 1 else commentEnd b (i + 1) n

def isBlank (c : Char) : Bool :=
  c == ' ' || c == '\t' || c == '\n' || c == '\r' || c == '\x0c' || c == '\x0b'

/-- Offset after white space and comments. -/
def blankEnd (b : Bytes) (i : Nat) : Nat → Nat
  | 0 => i
  | n + 1 =>
    match (b[i]?).map byteChar with
    | none => i
    | some c =>
      if isBlank c then blankEnd b (i + 1) n
      else if c == '#' then blankEnd b (commentEnd b (i + 1) (b.size - (i + 1))) n
      else i

/-- Skips white space and comments where the options say so. -/
def skipExtended : Parse Unit := do
  if ← hasOption .extended then
    let b := (← read).pattern
    let pos ← here
    jump (blankEnd b pos (b.size - pos))

/-- Enters a level of nesting. -/
def descend (start : Nat) : Parse Unit := do
  modify fun s => { s with depth := s.depth + 1 }
  if (← read).parseDepth < (← get).depth then reject .tooDeep start (start + 1)

/-- Leaves a level of nesting. -/
def ascend : Parse Unit := modify fun s => { s with depth := s.depth - 1 }

/-- Value of a digit in a base up to 16. -/
def digit? (radix : Nat) (c : Char) : Option Nat :=
  let v :=
    if '0' ≤ c && c ≤ '9' then c.toNat - '0'.toNat
    else if 'a' ≤ c && c ≤ 'f' then c.toNat - 'a'.toNat + 10
    else if 'A' ≤ c && c ≤ 'F' then c.toNat - 'A'.toNat + 10
    else 16
  if v < radix then some v else none

structure Digits where
  value : Nat
  stop : Nat

/-- Reads digits from `i` on, at most `n` and none after the value has passed the limit. -/
def digitsFrom (b : Bytes) (radix limit i value : Nat) : Nat → Digits
  | 0 => ⟨value, i⟩
  | n + 1 =>
    if limit < value then ⟨value, i⟩
    else
      match (b[i]?).bind fun x => digit? radix (byteChar x) with
      | some d => digitsFrom b radix limit (i + 1) (radix * value + d) n
      | none => ⟨value, i⟩

/-- Numbers in patterns stay below 2 ^ 32. -/
def maxNumber : Nat := 0xFFFFFFFF

/-- A decimal number, if there is one. -/
def readDecimal : Parse (Option Nat) := do
  let start ← here
  let b := (← read).pattern
  let d := digitsFrom b 10 maxNumber start 0 (b.size - start)
  jump d.stop
  if maxNumber < d.value then rejectSince .numberTooBig start
  return if start < d.stop then some d.value else none

/-- A number of at most `count` digits, if there is one. -/
def readRadix (radix count : Nat) : Parse (Option Nat) := do
  let start ← here
  let d := digitsFrom (← read).pattern radix maxNumber start 0 count
  jump d.stop
  return if start < d.stop then some d.value else none

/-- Bytes from `start` to the cursor as text. -/
def textSince (start : Nat) : Parse String := do
  return Text.Utf8.lossy (← bytesBetween start (← here))

/-- Offset of the first byte from `i` on that is `c`, or `n` bytes on. -/
def seek (b : Bytes) (c : Char) (i : Nat) : Nat → Nat
  | 0 => i
  | n + 1 => if (b[i]?).map byteChar == some c then i else seek b c (i + 1) n

end RegexMachine.Pattern
