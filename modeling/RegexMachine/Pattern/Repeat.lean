import RegexMachine.Pattern.Cursor

/-!
Repeat operators: their notation, and what they repeat.
-/
namespace RegexMachine.Pattern

/-- A repeat operator without its mode. -/
structure RepeatSign where
  bounds : Bounds
  isInterval : Bool

/-- Reads the rest of an interval after its opening brace. -/
def readIntervalBody (escaped : Bool) : Parse (Option Bounds) := do
  let low ← readDecimal
  if ← eat ',' then
    let high ← readDecimal
    let short := high.isSome && (← behaves .openLowInterval)
    match low.or (if short then some 0 else none) with
    | none => return none
    | some low =>
      let closed ← if escaped then eatText "\\\x7d" else eat '}'
      return if closed then some ⟨low, high⟩ else none
  else
    match low with
    | none => return none
    | some low =>
      let closed ← if escaped then eatText "\\\x7d" else eat '}'
      return if closed then some ⟨low, some low⟩ else none

/-- Reads `{n}`, `{n,}`, `{n,m}` or `{,m}`. Where the dialect allows it, braces of another form are
left alone. -/
def readInterval (len : Nat) : Parse (Option RepeatSign) := do
  let start ← here
  skip len
  match ← readIntervalBody (len == 2) with
  | none =>
    if ← behaves .looseInterval then
      jump start
      return none
    if ← atEnd then rejectSince .endAtLeftBrace start
    rejectSince .invalidInterval start
  | some bounds =>
    let limit := (← read).repeatMax
    if limit < bounds.min || bounds.max.any (limit < ·) then rejectSince .repeatTooBig start
    if bounds.max.any (· < bounds.min) then rejectSince .boundsReversed start
    return some ⟨bounds, true⟩

/-- Whether the cursor is on an interval of good form, `len` being the length of its brace. -/
def seesInterval (len : Nat) : Parse Bool := do
  let start ← here
  skip len
  let body ← readIntervalBody (len == 2)
  jump start
  return body.isSome

/-- Reads a repeat operator, if there is one. -/
def readRepeatSign : Parse (Option RepeatSign) := do
  let simple (len : Nat) (bounds : Bounds) : Parse (Option RepeatSign) := do
    skip len
    return some ⟨bounds, false⟩
  match ← peekSign with
  | some (.star, len) => simple len ⟨0, none⟩
  | some (.plus, len) => simple len ⟨1, none⟩
  | some (.question, len) => simple len ⟨0, some 1⟩
  | some (.interval, len) => readInterval len
  | _ => return none

/-- Reads the sign after a repeat operator that says how eager it is. -/
def readMode (r : RepeatSign) : Parse RepeatMode := do
  let fixed := r.isInterval && r.bounds.max == some r.bounds.min
  let plainFixed := fixed && (← behaves .fixedIntervalGreedy)
  if (← sees '?') && (← allows .lazyQuestion) && !plainFixed then
    skip 1
    return .lazy
  let possessive := if r.isInterval then Operator.possessiveInterval else .possessiveRepeat
  if (← sees '+') && (← allows possessive) then
    skip 1
    return .possessive
  return .greedy

/-- Splits off the last character of a literal, since a repeat applies to that alone. -/
def splitLastChar (e : Encoding) : Node Span → Option (Node Span) × Node Span
  | n@(.atom span (.literal bytes fold)) =>
    let last := e.lastChar bytes
    if last = 0 then (none, n)
    else
      let split := max (span.stop - (bytes.size - last)) span.start
      (some (.atom ⟨span.start, split⟩ (.literal (bytes.slice 0 last) fold)),
        .atom ⟨split, span.stop⟩ (.literal (bytes.slice last bytes.size) fold))
  | n => (none, n)

/-- The tree of a repeat operator applied to a tree that was read from `start` on. -/
def repeatedNode (e : Encoding) (n : Node Span) (start stop : Nat) (bounds : Bounds)
    (mode : RepeatMode) : Node Span :=
  let (head, body) := splitLastChar e n
  let r := Node.repeated ⟨body.note.start, stop⟩ bounds mode body
  match head with
  | none => r
  | some h => .sequence ⟨start, stop⟩ [h, r]

def checkRepeatTarget (n : Node Span) (again : Bool) (sign : Nat) : Parse Unit := do
  match n with
  | .atom _ (.anchor _) => rejectSince .invalidRepeatTarget sign
  | .atom _ .keep => rejectSince .invalidRepeatTarget sign
  | .repeated .. =>
    if again && (← behaves .noStackedRepeats) then rejectSince .nestedRepeat sign
  | _ => return

/-- Reads the repeat operators after a tree, at most as many as given. -/
def readRepeats (n : Node Span) (start : Nat) (again : Bool) : Nat → Parse (Node Span)
  | 0 => stall
  | fuel + 1 => do
    skipExtended
    let sign ← here
    match ← readRepeatSign with
    | none => return n
    | some r =>
      let mode ← readMode r
      checkRepeatTarget n again sign
      let n := repeatedNode (← read).encoding n start (← here) r.bounds mode
      readRepeats n start true fuel

end RegexMachine.Pattern
