import RegexMachine.Log
import RegexMachine.Machine.Step

/-!
Searches: attempts from one start after another, forward or backward, past those that the hints of
the program rule out.
-/
namespace RegexMachine

/-- What a search that was decided found. -/
inductive SearchOutcome where
  | found (r : Region)
  | notFound
  | interrupted
deriving DecidableEq, Repr

namespace SearchOutcome

def region? : SearchOutcome → Option Region
  | found r => some r
  | _ => none

end SearchOutcome

/-- Why a search was not decided. -/
inductive SearchError where
  | limit (e : LimitError)
  | fault (f : Machine.Fault)
  | late
deriving DecidableEq, Repr

def SearchError.message : SearchError → String
  | limit e => e.message
  | fault f => f.message
  | late => "the clock has run out"

namespace Machine

abbrev Search := EStateM SearchError State

/-- One attempt; what it answers, if anything, ends the search. -/
def tryAt (clock : Nat) (e : Setting) (pos : Nat) : Search (Option SearchOutcome) := do
  if e.signal (← get).tally.begun then return some .interrupted
  let h ← modifyGet (attempt clock e pos)
  match h with
  | .accepted => return some (.found ((← get).region e))
  | .exhausted => return none
  | .interrupted => return some .interrupted
  | .limit error => throw (.limit error)
  | .fault f => throw (.fault f)
  | .late => throw .late

/-- The longest match, if longest matches were collected. -/
def takeBest : Search SearchOutcome :=
  modifyGet fun s =>
    ((s.best.map fun b => SearchOutcome.found b.2).getD .notFound, { s with best := none })

/-- The first start from `pos` on that the hints allow. A text that matches begin with may be found
inside a character, whose first byte lies before `pos`. -/
def candidate? (e : Setting) (pos : Nat) : Option Nat :=
  let h := e.program.tables.hints
  let t := e.subject
  match h.leading with
  | some lit => (t.bytes.findText lit pos).map t.leftAdjust
  | none =>
    if h.anchor.has .beginLine && 0 < pos && !t.isLineStart pos then
      (t.bytes.findByte (· == 10) pos).map (· + 1)
    else
      match h.firstBytes with
      | some set => t.bytes.findByte set.has pos
      | none => some pos

/-- Tries starts in `pos ..= last`. -/
def forwardFrom (clock : Nat) (e : Setting) (last pos : Nat) : Search SearchOutcome := do
  if last < pos then takeBest
  else
    match candidate? e pos with
    | none => takeBest
    | some c =>
      if _h : last < c then takeBest
      else if _hc : c < pos then forwardFrom clock e last (e.subject.next pos)
      else
        match ← tryAt clock e c with
        | some o => return o
        | none =>
          if e.subject.atEnd c then takeBest else forwardFrom clock e last (e.subject.next c)
termination_by last + 1 - pos
decreasing_by
  · have := Subject.lt_next e.subject pos
    omega
  · have := Subject.lt_next e.subject c
    omega

/-- The last start worth trying in a search up to `last`; none if there is no start at all. -/
def lastStart? (e : Setting) (last : Nat) : Option Nat :=
  let h := e.program.tables.hints
  let size := e.subject.size
  if h.anchor.has .beginBuffer && (0 < e.origin || e.options.has .notBol) then none
  else if size < h.minLength then none
  else
    let last :=
      if h.anchor.has .beginBuffer then 0
      else if h.anchor.has .beginPosition then e.origin
      else last
    some (min last (size - h.minLength))

def forward (clock : Nat) (e : Setting) (last : Nat) : Search SearchOutcome :=
  match lastStart? e last with
  | none => return .notFound
  | some last => forwardFrom clock e last (e.subject.rightAdjust e.origin)

/-- Whether the hints allow a match from a start on. -/
def allowed (e : Setting) (pos : Nat) : Bool :=
  let h := e.program.tables.hints
  let t := e.subject
  (!h.anchor.has .beginBuffer || t.isStart pos) &&
    (!h.anchor.has .beginPosition || pos == e.origin) &&
    (!h.anchor.has .beginLine || t.isLineStart pos) &&
    h.minLength ≤ t.size - pos &&
    h.leading.all (t.bytes.startsAt pos) &&
    h.firstBytes.all fun set => (t.bytes[pos]?).any set.has

/-- Tries starts from `pos` back to `first`. -/
def backwardFrom (clock : Nat) (e : Setting) (first pos : Nat) : Search SearchOutcome := do
  if pos < first then takeBest
  else
    let outcome ← if allowed e pos then tryAt clock e pos else pure none
    match outcome with
    | some o => return o
    | none =>
      match _h : e.subject.prev? pos with
      | none => takeBest
      | some p => backwardFrom clock e first p
termination_by pos
decreasing_by exact Subject.prev?_lt _h

def backward (clock : Nat) (e : Setting) (first : Nat) : Search SearchOutcome :=
  backwardFrom clock e first (e.subject.leftAdjust e.origin)

end Machine
end RegexMachine
