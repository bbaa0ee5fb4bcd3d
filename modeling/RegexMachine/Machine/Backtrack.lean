import RegexMachine.Machine.State

/-!
Backtracking: frames are taken off the stack until one of them resumes, and what the others
recorded is undone on the way.
-/
namespace RegexMachine.Machine

/-- Part of the state that a call of a subroutine saves. -/
def callState (e : Setting) (sub : Nat) : Run CallState := do
  let subs := e.program.tables.subroutines
  match subs[sub]? with
  | none => fault (.outside subs.size sub)
  | some r =>
    let regs := (← get).regs
    let groups := regs.captures.slots.size
    let loops := regs.counts.size
    match regs.captures.starts? r.captures with
    | none => fault (.outside groups (max groups r.captures.first))
    | some starts =>
      if r.loops.stop < r.loops.first then fault (.rangeReversed r.loops.first r.loops.stop)
      else if loops < r.loops.stop then fault (.rangeOutside r.loops.stop loops)
      else return ⟨starts, (regs.counts.extract r.loops.first r.loops.stop).toList⟩

/-- Writes values from an index on. -/
def writeFrom (a : Array Nat) (i : Nat) : List Nat → Array Nat
  | [] => a
  | v :: vs => writeFrom (a.setIfInBounds i v) (i + 1) vs

namespace Registers

/-- Puts back what a call of a subroutine saved. -/
def setCallState (r : Registers) (p : Program) (sub : Nat) (c : CallState) : Registers :=
  match p.tables.subroutines[sub]? with
  | none => r
  | some inside =>
    { r with
      captures := r.captures.setStarts inside.captures c.starts
      counts := writeFrom r.counts inside.loops.first c.counts }

/-- Undoes what a frame recorded. -/
def undo (r : Registers) (p : Program) : Frame → Registers
  | .capture g slot h => { r with captures := r.captures.restore g slot h }
  | .count loop rounds => { r with counts := r.counts.setIfInBounds loop rounds }
  | .keep start => { r with keep := start }
  | .call _ _ _ => { r with depth := r.depth - 1 }
  | .returned sub c => { r.setCallState p sub c with depth := r.depth + 1 }
  | _ => r

end Registers

/-- Records that a guard has failed. -/
def markFailed (site pos : Nat) : Run Unit :=
  modify fun s => { s with memo := s.memo.map (·.markFailed site pos) }

/-- Counts a resumed alternative, and reads the interrupt flag when it is time to. -/
def countRetry (e : Setting) : Run Unit := do
  let t ← modifyGet fun s =>
    let t : Tally := ⟨s.tally.retries + 1, s.tally.searchRetries + 1, s.tally.ticks + 1,
      s.tally.begun⟩
    (t, { s with tally := t })
  let l := e.limits
  if l.retries != 0 && l.retries < t.retries then halt (.limit (.retries l.retries))
  if l.searchRetries != 0 && l.searchRetries < t.searchRetries then
    halt (.limit (.searchRetries l.searchRetries))
  if l.interruptInterval ≤ t.ticks then
    modify fun s => { s with tally := { s.tally with ticks := 0 } }
    if e.signal t.begun then halt .interrupted

def resume (e : Setting) (ip : Addr) (pos : Nat) (stack : FrameStack) : Run Unit := do
  modify fun s => { s with ip := ip, pos := pos, stack := stack }
  emit e (.backtrack ip pos)
  countRetry e

/-- Pops the given frames until one of them resumes. -/
def backtrackFrom (e : Setting) :
    (frames : List Frame) → (size : Nat) → size = frames.length → Run Unit
  | [], _, _ => halt .exhausted
  | f :: below, size, h =>
    have hb : size - 1 = below.length := by simp [h]
    match f with
    | .alternative ip pos => resume e ip pos ⟨below, size - 1, hb⟩
    | .stepBack ip pos more =>
      match e.subject.prev? pos with
      | none => backtrackFrom e below (size - 1) hb
      | some p =>
        let stack : FrameStack := ⟨below, size - 1, hb⟩
        resume e ip p
          (if more.all (1 < ·) && 0 < p then stack.push (.stepBack ip p (more.map (· - 1)))
            else stack)
    | .absent ip start stop =>
      match (e.subject.prev? stop).filter (start ≤ ·) with
      | none => backtrackFrom e below (size - 1) hb
      | some p =>
        let stack : FrameStack := ⟨below, size - 1, hb⟩
        resume e ip p (if start < p then stack.push (.absent ip start p) else stack)
    | .guard site pos => do
      markFailed site pos
      backtrackFrom e below (size - 1) hb
    | f => do
      modifyRegs (·.undo e.program f)
      backtrackFrom e below (size - 1) hb

/-- Gives up the present path and resumes the alternative left last. -/
def backtrack (e : Setting) : Run Unit := do
  let stack ← modifyGet fun s => (s.stack, { s with stack := .empty })
  backtrackFrom e stack.frames stack.size stack.size_eq

/-- Goes on if a condition holds. -/
def check (e : Setting) (ok : Bool) : Run Unit := if ok then next else backtrack e

/-- Goes on past matched bytes. -/
def consume (e : Setting) (length : Option Nat) : Run Unit := do
  match length with
  | some n => modify fun s => { s with ip := s.ip + 1, pos := s.pos + n }
  | none => backtrack e

end RegexMachine.Machine
