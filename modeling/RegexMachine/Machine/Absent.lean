import RegexMachine.Machine.Backtrack

/-!
The absent operator takes the longest text in which its body matches nowhere. Whether a text is
free of matches is found out by runs of the body on the subject cut off at the end of that text.
-/
namespace RegexMachine.Machine

/-- Runs the code at an address from a position, and answers why it stopped. -/
abbrev Runner := Setting → Addr → Nat → State → Halt × State

/-- Whether the body matches from some place on in `pos ..= stop`. -/
def blockedFrom (runner : Runner) (e : Setting) (body : Addr) (stop pos : Nat) (s : State) :
    Except Halt Bool :=
  match runner e body pos s with
  | (.accepted, _) => .ok true
  | (.exhausted, s) =>
    if _h : pos < stop then blockedFrom runner e body stop (e.subject.next pos) s else .ok false
  | (h, _) => .error h
termination_by stop - pos
decreasing_by
  have := Subject.lt_next e.subject pos
  omega

/-- Setting of runs on the subject before `stop`. They take the first match they find, and see the
interrupt flag as it is now. -/
def Setting.upTo (e : Setting) (stop begun : Nat) : Setting :=
  { e with
    subject := e.subject.upTo stop
    options := (e.options.erase .findLongest).erase .findNotEmpty
    signal := fun _ => e.signal begun
    tracing := false }

/-- Whether the body matches somewhere inside `start ..< stop`. -/
def blocked (runner : Runner) (e : Setting) (body : Addr) (begun start stop : Nat) :
    Except Halt Bool :=
  blockedFrom runner (e.upTo stop begun) body stop start .initial

/-- Places from `i` on where a character begins, and the end, after those in `found`. -/
def boundariesFrom (t : Subject) (i : Nat) (found : Array Nat) : Array Nat :=
  if _h : i < t.size then boundariesFrom t (t.next i) (found.push i) else found.push i
termination_by t.size - i
decreasing_by
  have := Subject.lt_next t i
  omega

/-- The last index that is free, where `lo` is and `hi` is not, and none is after one that is
not. -/
def lastFree (blocked : Nat → Except Halt Bool) (lo hi : Nat) : Except Halt Nat :=
  if _h : 1 < hi - lo then
    let mid := lo + (hi - lo) / 2
    match blocked mid with
    | .error h => .error h
    | .ok true => lastFree blocked lo mid
    | .ok false => lastFree blocked mid hi
  else .ok lo
termination_by hi - lo
decreasing_by all_goals omega

/-- End of the longest text from `start` on in which the body matches nowhere; none if it matches
the empty text. -/
def absentEnd (runner : Runner) (e : Setting) (body : Addr) (begun start : Nat) :
    Except Halt (Option Nat) := do
  let cuts := boundariesFrom e.subject start #[]
  let test := blocked runner e body begun start
  if ← test start then return none
  let i ← lastFree (fun i => test (cuts.getD i start)) 0 cuts.size
  return some (cuts.getD i start)

def takeAbsent (runner : Runner) (e : Setting) (body : Addr) : Run Unit := do
  let s ← get
  match absentEnd runner e body s.tally.begun s.pos with
  | .error h => halt h
  | .ok none => backtrack e
  | .ok (some stop) =>
    if s.pos < stop then push e (.absent (s.ip + 1) s.pos stop)
    modify fun s => { s with ip := s.ip + 1, pos := stop }

end RegexMachine.Machine
