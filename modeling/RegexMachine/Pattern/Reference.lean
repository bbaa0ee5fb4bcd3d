import RegexMachine.Pattern.Cursor

/-!
Names of groups, and how references, calls and conditions say which group they mean.
-/
namespace RegexMachine.Pattern

/-- Reads a name up to its closing character, at most `n` characters, and tells whether one of them
may not stand there. A name begins with a word character that is no digit and goes on with word
characters. -/
def nameChars (close : Char) (first start : Nat) (bad : Bool) : Nat → Parse Bool
  | 0 => return bad
  | n + 1 => do
    match ← peekCode with
    | none => return bad
    | some (code, len) =>
      let c ← peek
      let pos ← here
      if c == some close then return bad
      else if (c == some '+' || c == some '-') && first < pos then
        let name ← textSince first
        skip 1
        let level ← readDecimal
        if level.isSome && (← sees close) then
          rejectSince (.unsupported "backreference level") start
        rejectSince (.invalidNameChar name) start
      else
        let e := (← read).encoding
        let good := e.hasType code .word && !(pos == first && e.hasType code .digit)
        skip len
        nameChars close first start (bad || !good) n

/-- Reads a group name and its closing character. -/
def readName (close : Char) (start : Nat) : Parse String := do
  let first ← here
  let bad ← nameChars close first start false ((← read).pattern.size - first)
  let name ← textSince first
  if !(← eat close) then rejectSince (.invalidName name) start
  if name.isEmpty then rejectSince .emptyName start
  if bad then rejectSince (.invalidNameChar name) start
  return name

def closeReference (close : Char) (start : Nat) : Parse Unit := do
  if ← eat close then return
  if (← sees '+') || (← sees '-') then rejectSince (.unsupported "backreference level") start
  rejectSince .invalidReference start

/-- Reads a number that a reference must have, and the closing character. -/
def referenceNumber (close : Char) (start : Nat) : Parse Nat := do
  match ← readDecimal with
  | none => rejectSince .invalidReference start
  | some n =>
    closeReference close start
    return n

/-- The group `n` places before or after the place where `count` groups are open. -/
def relativeGroup? (back : Bool) (count n : Nat) : Option Nat :=
  if n = 0 then none
  else if back then (if n ≤ count then some (count + 1 - n) else none)
  else if count + n ≤ maxNumber then some (count + n) else none

/-- Reads what a reference means, after its opening character: a name, a number, or a number of
groups back. Calls may also look ahead and mean the whole pattern. -/
def readTarget (close : Char) (start : Nat) (isCall : Bool) : Parse Target := do
  match ← peek with
  | some c =>
    if c == '-' || c == '+' then
      skip 1
      if c == '+' && !isCall then rejectSince .invalidReference start
      let n ← referenceNumber close start
      match relativeGroup? (c == '-') (← get).groupCount n with
      | some group => return .relative group
      | none => rejectSince .invalidReference start
    else if c.isDigit then
      let n ← referenceNumber close start
      if n == 0 && !isCall then rejectSince .invalidReference start
      return .number n
    else return .name (← readName close start)
  | none => return .name (← readName close start)

/-- Remembers the first reference by number. -/
def noteNumbered (target : Target) (start : Nat) : Parse Unit := do
  match target with
  | .name _ => return
  | _ =>
    let pos ← here
    modify fun s => { s with firstNumbered := s.firstNumbered.or (some ⟨start, pos⟩) }

/-- A reference whose target has been read. -/
def referenceNode (target : Target) (start : Nat) : Parse (Node Span) := do
  noteNumbered target start
  return .atom ⟨start, ← here⟩ (.backref target [] (← hasOption .ignoreCase))

/-- A call whose target has been read. -/
def callNode (target : Target) (start : Nat) : Parse (Node Span) := do
  if target == .number 0 then modify fun s => { s with callsWhole := true }
  else noteNumbered target start
  return .atom ⟨start, ← here⟩ (.call target 0)

end RegexMachine.Pattern
