import RegexMachine.Pattern.Cursor

/-!
Escapes that stand for one character or one type of characters.
-/
namespace RegexMachine.Pattern

/-- A character written as an escape: a code point, or a byte that is taken as it is. -/
inductive Escaped where
  | code (c : Nat)
  | byte (b : Nat)
deriving DecidableEq, Repr

def Escaped.value : Escaped → Nat
  | code c => c
  | byte b => b

/-- A type written as an escape. -/
structure TypeEscape where
  type : CharType
  negated : Bool
  ascii : Bool

/-- Type that a letter after the backslash stands for. A capital letter negates it. -/
def typeEscape? (d : Dialect) (o : Options) (c : Char) : Option TypeEscape :=
  let negated := c.isUpper
  match c.toLower with
  | 'w' => if d.allows .wordEscape then some ⟨.word, negated, o.has .asciiWord⟩ else none
  | 'd' => if d.allows .digitEscape then some ⟨.digit, negated, o.has .asciiDigit⟩ else none
  | 's' => if d.allows .spaceEscape then some ⟨.space, negated, o.has .asciiSpace⟩ else none
  | 'h' =>
    if d.allows .hexDigitEscape then some ⟨.xdigit, negated, false⟩
    else if d.allows .perlOptions then some ⟨.blank, negated, false⟩
    else none
  | _ => none

/-- Largest value of a code point in braces. -/
def maxWide : Nat := 0x7FFFFFFF

/-- Reads digits and a closing brace. -/
def readBraced (radix count start : Nat) : Parse Nat := do
  let first ← here
  let d := digitsFrom (← read).pattern radix maxWide first 0 (count + 1)
  jump d.stop
  if first + count < d.stop || maxWide < d.value then rejectSince .codePointTooBig start
  if d.stop == first then rejectSince .invalidCodePoint start
  if !(← eat '}') then rejectSince .invalidCodePoint start
  return d.value

/-- Code of a control character with a letter of its own. -/
def controlCode? (d : Dialect) (inClass : Bool) (c : Char) : Option Nat :=
  let known :=
    match c with
    | 't' => some 0x09
    | 'n' => some 0x0A
    | 'r' => some 0x0D
    | 'f' => some 0x0C
    | 'a' => some 0x07
    | 'e' => some 0x1B
    | _ => none
  match c with
  | 'v' => if d.allows .verticalTab then some 0x0B else none
  | 'b' => if inClass then some 0x08 else none
  | _ => if d.allows .controlEscapes then known else none

/-- Two hexadecimal digits; without digits the code is 0. -/
def readHexByte (inClass : Bool) : Parse Escaped := do
  match ← readRadix 16 2 with
  | some v => return if inClass then .code v else .byte v
  | none => return .code 0

def readHex4 (start : Nat) : Parse Escaped := do
  let first ← here
  match ← readRadix 16 4 with
  | some v =>
    if (← here) == first + 4 then return .code v
    rejectSince .invalidCodePoint start
  | none => rejectSince .invalidCodePoint start

/-- Up to three octal digits. -/
def readOctal (inClass : Bool) : Parse Escaped := do
  let v := (← readRadix 8 3).getD 0
  return if 0xFF < v || inClass then .code v else .byte v

def readControl (start : Nat) : Parse Escaped := do
  match ← peek with
  | none => reject .endAtControl start (← here)
  | some x =>
    skip 1
    return .code (if x == '?' then 0x7F else x.toNat % 32)

/-- Reads the rest of a character escape after the backslash. An unknown escape stands for the
character itself. -/
def readEscaped (inClass : Bool) (start : Nat) : Parse Escaped := do
  let d := (← read).dialect
  match ← peek with
  | none => reject .endAtEscape start (← here)
  | some c =>
    if let some code := controlCode? d inClass c then
      skip 1
      return .code code
    let braced := (← peekAt 1) == some '{'
    if c == 'x' && d.allows .bracedHex && braced then
      skip 2
      return .code (← readBraced 16 8 start)
    else if c == 'x' && d.allows .hex2 then
      skip 1
      readHexByte inClass
    else if c == 'u' && d.allows .hex4 then
      skip 1
      readHex4 start
    else if c == 'o' && d.allows .bracedOctal && braced then
      skip 2
      return .code (← readBraced 8 11 start)
    else if '0' ≤ c && c ≤ '7' && d.allows .octal3 then
      readOctal inClass
    else if c == 'c' && d.allows .controlChar then
      skip 1
      readControl start
    else return .code (← nextCode).1

/-- Finds a type by property name; the encoding decides which there are. -/
def findProperty (name : String) : Parse (Option CharType) := do
  let (found, properties) := (← read).encoding.resolve (← get).properties name
  modify fun s => { s with properties := properties }
  return found

/-- Whether a property in braces follows. -/
def seesProperty : Parse Bool := do
  let c ← peek
  let next ← peekAt 1
  return (c == some 'p' || c == some 'P') && next == some '{' &&
    (← read).dialect.allows .propertyEscape

/-- Reads a property; the cursor is on its letter. -/
def readProperty (start : Nat) : Parse TypeEscape := do
  let capital := (← nextByte) == 'P'
  skip 1
  let caret := (← sees '^') && (← allows .propertyCaret)
  if caret then skip 1
  let first ← here
  let b := (← read).pattern
  jump (seek b '}' first (b.size - first))
  let name ← textSince first
  if !(← eat '}') then rejectSince (.invalidProperty name) start
  match ← findProperty name with
  | some t => return ⟨t, capital != caret, false⟩
  | none => rejectSince (.invalidProperty name) start

end RegexMachine.Pattern
