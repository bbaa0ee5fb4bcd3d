import RegexMachine.Machine.Backtrack

/-!
Loops: counted rounds, rounds that consume nothing, guards, and runs of any characters.
-/
namespace RegexMachine.Machine

/-- A counted loop and the number of its rounds. -/
def loopState (e : Setting) (id : Nat) : Run (CountedLoop × Nat) := do
  let counts := (← get).regs.counts
  match e.program.tables.loops[id]?, counts[id]? with
  | some l, some n => return (l, n)
  | _, _ => fault (.outside counts.size id)

def setCount (id rounds : Nat) : Run Unit :=
  modifyRegs fun r => { r with counts := r.counts.setIfInBounds id rounds }

/-- Another round or the way out, in the order the loop prefers. -/
def chooseRound (e : Setting) (l : CountedLoop) : Run Unit :=
  if l.greedy then do
    fork e l.exit
    goTo l.body
  else do
    fork e l.body
    goTo l.exit

def enterLoop (e : Setting) (id : Nat) : Run Unit := do
  let (l, rounds) ← loopState e id
  push e (.count id rounds)
  setCount id 0
  if l.min == 0 then chooseRound e l else goTo l.body

def endRound (e : Setting) (id : Nat) : Run Unit := do
  let (l, before) ← loopState e id
  push e (.count id before)
  let rounds := before + 1
  setCount id rounds
  if l.max.any (· ≤ rounds) then goTo l.exit
  else if rounds < l.min then goTo l.body
  else chooseRound e l

/-- Whether the slot that a frame saved is not that of its group now. -/
def changed (c : Captures) : Frame → Bool
  | .capture g slot _ => c.slot? g != some slot
  | _ => false

/-- A round that made no progress leaves the loop, by skipping the way back. -/
def checkRound (id : Nat) (captures : Bool) : Run Unit := do
  let s ← get
  let v ← require .round (s.stack.view? (FrameStack.isRound id))
  let empty := FrameStack.savedPos v.frame == s.pos &&
    !(captures && v.above.any (changed s.regs.captures))
  goTo (if empty then s.ip + 2 else s.ip + 1)

/-- What follows a guard in a round depends on where the round began until the round consumes
something; before that nothing is remembered. -/
def passGuard (e : Setting) (site : Nat) (within : Option Nat) : Run Unit := do
  let s ← get
  match s.memo with
  | none => next
  | some memo =>
    let fresh ← match within with
      | none => pure false
      | some c => do
        let v ← require .round (s.stack.view? (FrameStack.isRound c))
        pure (FrameStack.savedPos v.frame == s.pos)
    if fresh then next
    else if memo.hasFailed site s.pos then backtrack e
    else
      push e (.guard site s.pos)
      next

/-- Passes over any characters from `pos` on, leaving alternatives where `wanted` says so. -/
def passAny (e : Setting) (ip : Addr) (multiline : Bool) (wanted : Nat → Bool) (pos : Nat) :
    Run Unit := do
  match _h : e.subject.anyLength? pos multiline with
  | none => modify fun s => { s with ip := ip, pos := pos }
  | some n =>
    if wanted pos then push e (.alternative ip pos)
    passAny e ip multiline wanted (pos + n)
termination_by e.subject.size - pos
decreasing_by
  have := Subject.anyLength?_pos _h
  omega

/-- Takes as many characters as there are; where a byte must follow, places before others are no
alternatives. -/
def takeAny (e : Setting) (multiline : Bool) (before : Option UInt8) : Run Unit := do
  let s ← get
  passAny e (s.ip + 1) multiline
    (fun i => before.all fun b => e.subject.bytes[i]? == some b) s.pos

end RegexMachine.Machine
