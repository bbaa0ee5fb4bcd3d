import RegexMachine.Machine.Backtrack

/-!
Regions: look arounds and atomic groups, which are closed for good once they have matched.
-/
namespace RegexMachine.Machine

/-- The look around that is open under a mark. -/
def openLook (mark : Nat) (s : State) : Run (FrameView s.stack.frames) :=
  require .look (s.stack.view? (FrameStack.isLook mark))

def endLook (e : Setting) (mark : Nat) : Run Unit := do
  let s ← get
  let v ← openLook mark s
  modify fun s' => { s' with pos := FrameStack.savedPos v.frame, stack := s.stack.commit v }
  emit e (.commit mark)
  next

def endAtomic (e : Setting) (mark : Nat) : Run Unit := do
  let s ← get
  let v ← require .atomic (s.stack.view? (FrameStack.isAtomic mark))
  modify fun s' => { s' with stack := s.stack.commit v }
  emit e (.commit mark)
  next

/-- Fails unless the position is where the look around began. -/
def checkPos (e : Setting) (mark : Nat) : Run Unit := do
  let s ← get
  let v ← openLook mark s
  check e (s.pos == FrameStack.savedPos v.frame)

/-- Pops the given frames, those of returned calls included, down to the start of the look around
under a mark, inside `level` invocations that have returned. -/
def unwindFrom (e : Setting) (mark level : Nat) :
    (frames : List Frame) → (size : Nat) → size = frames.length → Run Unit
  | [], _, _ => require .look none
  | f :: below, size, h =>
    have hb : size - 1 = below.length := congrArg Nat.pred h
    if level == 0 && FrameStack.isLook mark f then
      modify fun s => { s with stack := ⟨below, size - 1, hb⟩ }
    else
      match f with
      | .returned sub c => do
        modifyRegs (·.undo e.program (.returned sub c))
        unwindFrom e mark (level + 1) below (size - 1) hb
      | .call back sub saved =>
        if level == 0 then require .matchingCall none
        else do
          modifyRegs (·.undo e.program (.call back sub saved))
          unwindFrom e mark (level - 1) below (size - 1) hb
      | f => do
        modifyRegs (·.undo e.program f)
        unwindFrom e mark level below (size - 1) hb

/-- Undoes everything since the look around began. -/
def unwind (e : Setting) (mark : Nat) : Run Unit := do
  let stack ← modifyGet fun s => (s.stack, { s with stack := .empty })
  unwindFrom e mark 0 stack.frames stack.size stack.size_eq
  next

/-- Place that is `n` characters before `i`. -/
def back? (t : Subject) (i : Nat) : Nat → Option Nat
  | 0 => some i
  | n + 1 => (t.prev? i).bind fun p => back? t p n

/-- Goes back by the least number of characters, and leaves the others as alternatives. -/
def stepBack (e : Setting) (min : Nat) (max : Option Nat) : Run Unit := do
  let s ← get
  match back? e.subject s.pos min with
  | none => backtrack e
  | some p =>
    let more := max.map (· - min)
    if more.all (0 < ·) && 0 < p then push e (.stepBack (s.ip + 1) p more)
    modify fun s => { s with ip := s.ip + 1, pos := p }

end RegexMachine.Machine
