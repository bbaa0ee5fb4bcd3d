import RegexMachine.Machine.Backtrack

/-!
Capture groups, references to them, and calls of subroutines.
-/
namespace RegexMachine.Machine

def slotOf (group : Nat) : Run Slot := do
  let c := (← get).regs.captures
  match c.slot? group with
  | some s => return s
  | none => fault (.outside c.slots.size group)

/-- Leaves a record of a group that is about to change. -/
def saveSlot (e : Setting) (group : Nat) : Run Unit := do
  let slot ← slotOf group
  push e (.capture group slot (← get).regs.captures.history)

def openGroup (e : Setting) (group : Nat) (undo : Bool) : Run Unit := do
  if undo then saveSlot e group
  let slot ← slotOf group
  let pos := (← get).pos
  modifyCaptures (·.setSlot group { slot with start := some pos })
  next

/-- Ends a group at the position. -/
def closeGroup (e : Setting) (group : Nat) (undo : Bool) : Run Unit := do
  if undo then saveSlot e group
  let slot ← slotOf group
  let s ← get
  match slot.start with
  | none => fault (.notOpened group s.ip)
  | some start =>
    let span : Span := ⟨start, s.pos⟩
    modifyCaptures (·.setSlot group ⟨some start, some span⟩)
    if undo && e.program.has .captureHistory then modifyCaptures (·.record group span)
    next

/-- Makes the position the start that is reported. -/
def keepOut (e : Setting) : Run Unit := do
  let s ← get
  push e (.keep s.regs.keep)
  modifyRegs fun r => { r with keep := some s.pos }
  next

/-- Length of a copy at the position of the text of the last of some groups that has one. -/
def copyLength? (t : Subject) (c : Captures) (pos : Nat) (fold : Bool) (groups : List Nat) :
    Option Nat :=
  groups.reverse.findSome? fun g => (c.span? g).bind fun s => t.copyLength? pos s fold

def matchCopy (e : Setting) (groups : List Nat) (fold : Bool) : Run Unit := do
  let s ← get
  match copyLength? e.subject s.regs.captures s.pos fold groups with
  | some n => consume e (some n)
  | none =>
    if e.program.has .unsetMatchesEmpty && !groups.any s.regs.captures.isSet then next
    else backtrack e

def branchIfSet (groups : List Nat) (otherwise : Addr) : Run Unit := do
  if groups.any (← get).regs.captures.isSet then next else goTo otherwise

def enterCall (e : Setting) (target : Addr) (sub : Nat) : Run Unit := do
  let s ← get
  let limit := e.limits.callDepth
  if limit ≤ s.regs.depth then halt (.limit (.callDepth limit))
  let saved ← callState e sub
  push e (.call (s.ip + 1) sub saved)
  let depth := s.regs.depth + 1
  modifyRegs fun r => { r with depth := depth }
  emit e (.call target depth)
  goTo target

/-- Returns to the caller, whose group starts and loop counts become what they were when it
called. -/
def leaveCall (e : Setting) : Run Unit := do
  let (back, sub, saved) ← require .call (← get).stack.currentCall?
  let undo ← callState e sub
  modifyRegs (·.setCallState e.program sub saved)
  push e (.returned sub undo)
  if (← get).regs.depth == 0 then fault .underflow
  modifyRegs fun r => { r with depth := r.depth - 1 }
  emit e (.ret back)
  goTo back

end RegexMachine.Machine
