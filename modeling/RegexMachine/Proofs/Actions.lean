import RegexMachine.Proofs.Programs
import RegexMachine.Proofs.SafeSteps

/-!
What all actions of the machine have in common. They are made of a few simple ones, so a property that
these have, and that goes on from one action to the next, is one of every instruction but those at
which a match ends.
-/
namespace RegexMachine.Machine

/-! ## Rules -/

/-- The first holds where an action goes on, the second where it ends the run. -/
def Holds {α : Type} (I : State → Prop) (J : Halt → State → Prop) :
    EStateM.Result Halt State α → Prop
  | .ok _ t => I t
  | .error k t => J k t

/-- An action that keeps what holds before it, unless it ends the run. -/
def Maintains {α : Type} (I : State → Prop) (J : Halt → State → Prop) (x : Run α) : Prop :=
  ∀ s, I s → Holds I J (x s)

section
variable {α β : Type} {I : State → Prop} {J : Halt → State → Prop}

theorem maintains_pure (a : α) : Maintains I J (pure a : Run α) := fun _ hs => hs

theorem Maintains.bind {x : Run α} {f : α → Run β} (hx : Maintains I J x)
    (hf : ∀ a, Maintains I J (f a)) : Maintains I J (x >>= f) := by
  intro s hs
  have hfirst := hx s hs
  cases h : x s with
  | ok a t =>
    rw [h] at hfirst
    rw [bind_ok h]
    exact hf a t hfirst
  | error k t =>
    rw [h] at hfirst
    rw [bind_error h]
    exact hfirst

theorem maintains_get {f : State → Run α} (h : ∀ s, Maintains I J (f s)) :
    Maintains I J (get >>= f) := fun s => h s s

theorem maintains_modify {f : State → State} (h : ∀ s, I s → I (f s)) :
    Maintains I J (modify f) := h

theorem maintains_halt {k : Halt} (h : ∀ s, I s → J k s) : Maintains I J (halt k : Run α) := h

theorem maintains_push {e : Setting} {f : Frame} (hlimit : ∀ n s, I s → J (.limit (.frames n)) s)
    (h : ∀ s, I s → I { s with stack := s.stack.push f }) : Maintains I J (push e f) := by
  intro s hs
  simp only [push, bind_get]
  by_cases hl : (e.limits.frames != 0 && decide (e.limits.frames ≤ s.stack.size)) = true
  · rw [if_pos hl]
    exact hlimit _ s hs
  · rw [if_neg hl]
    exact h s hs

end

/-! ## Simple actions -/

/-- A state with other work done, another longest match and other events. -/
def State.veiled (s : State) (tally : Tally) (best : Option (Nat × Region)) (events : Array Event) :
    State := { s with tally := tally, best := best, events := events }

/-- Changes that leave the unseen parts as they are, and depend on none of them. -/
def Plainly (f : State → State) : Prop :=
  ∀ s : State, (f s).best = s.best ∧ (f s).memo.isSome = s.memo.isSome ∧
    ∀ tally best events, f (s.veiled tally best events) = (f s).veiled tally best events

/-- Events that tell of work: attempts, instructions and alternatives that are resumed. -/
def Event.isWork : Event → Bool
  | .start _ => true
  | .instruction _ _ _ => true
  | .backtrack _ _ => true
  | _ => false

/-- A property that simple actions have, and those that are made of actions that have it. What is read
of a state must not be the work done, the longest match or the events. -/
structure Pervades (e : Setting) (P : ∀ {α : Type}, Run α → Prop) : Prop where
  pure {α : Type} (a : α) : P (Pure.pure a : Run α)
  bind {α β : Type} {x : Run α} {f : α → Run β} (hx : P x) (hf : ∀ a, P (f a)) : P (x >>= f)
  halt {α : Type} {h : Halt} (hne : h ≠ .interrupted) (hne' : h ≠ .accepted) :
    P (Machine.halt h : Run α)
  get {α : Type} {f : State → Run α}
    (hf : ∀ (s : State) tally best events, f (s.veiled tally best events) = f s)
    (h : ∀ s, P (f s)) : P (get >>= f)
  modify {f : State → State} (hf : Plainly f) : P (modify f : Run Unit)
  emit (ev : Event) (h : ev.isWork = false) : P (Machine.emit e ev)
  push (f : Frame) : P (Machine.push e f)
  resume (ip : Addr) (pos : Nat) (stack : FrameStack) : P (Machine.resume e ip pos stack)
  /-- The stack is taken away. -/
  detach {α : Type} {f : FrameStack → Run α} (h : ∀ k, P (f k)) :
    P ((modifyGet fun s => (s.stack, { s with stack := .empty })) >>= f)

section
variable {P : ∀ {α : Type}, Run α → Prop} {α : Type} {e : Setting}

theorem Pervades.ite (_ : Pervades e @P) {x y : Run α} {c : Prop} [Decidable c] (hx : P x)
    (hy : P y) : P (if c then x else y) := by
  split
  · exact hx
  · exact hy

variable (law : Pervades e @P)
include law

theorem pervades_fault (f : Fault) : P (fault f : Run α) := law.halt nofun nofun

theorem pervades_require (w : Missing) (found : Option α) : P (require w found) := by
  cases found with
  | none => exact law.get (fun _ _ _ _ => rfl) fun _ => pervades_fault law _
  | some a => exact law.pure a

theorem pervades_modifyRegs (f : Registers → Registers) : P (modifyRegs f) :=
  law.modify fun _ => ⟨rfl, rfl, fun _ _ _ => rfl⟩

theorem pervades_next : P next := law.modify fun _ => ⟨rfl, rfl, fun _ _ _ => rfl⟩

theorem pervades_goTo (a : Addr) : P (goTo a) := law.modify fun _ => ⟨rfl, rfl, fun _ _ _ => rfl⟩

theorem pervades_fork (a : Addr) : P (fork e a) :=
  law.get (fun _ _ _ _ => rfl) fun _ => law.bind (law.emit _ rfl) fun _ => law.push _

/-! ## Backtracking -/

theorem pervades_markFailed (site pos : Nat) : P (markFailed site pos) :=
  law.modify fun s => ⟨rfl, by cases s.memo <;> rfl, fun _ _ _ => rfl⟩

theorem pervades_backtrackFrom (frames : List Frame) (size : Nat) (hsize : size = frames.length) :
    P (backtrackFrom e frames size hsize) := by
  induction frames generalizing size with
  | nil => exact law.halt nofun nofun
  | cons f below ih =>
    cases f with
    | alternative ip pos => exact law.resume ..
    | stepBack ip pos more =>
      rw [backtrackFrom]
      cases e.subject.prev? pos with
      | none => exact ih ..
      | some p => exact law.resume ..
    | absent ip start stop =>
      rw [backtrackFrom]
      cases (e.subject.prev? stop).filter (start ≤ ·) with
      | none => exact ih ..
      | some p => exact law.resume ..
    | guard site pos => exact law.bind (pervades_markFailed law ..) fun _ => ih ..
    | _ => exact law.bind (pervades_modifyRegs law _) fun _ => ih ..

theorem pervades_backtrack : P (backtrack e) :=
  law.detach fun _ => pervades_backtrackFrom law ..

theorem pervades_check (ok : Bool) : P (check e ok) :=
  law.ite (pervades_next law) (pervades_backtrack law)

theorem pervades_consume (length : Option Nat) : P (consume e length) := by
  cases length with
  | none => exact pervades_backtrack law
  | some n => exact law.modify fun _ => ⟨rfl, rfl, fun _ _ _ => rfl⟩

/-! ## Groups -/

theorem pervades_callState (sub : Nat) : P (callState e sub) := by
  unfold callState
  dsimp only
  split
  · exact pervades_fault law _
  · refine law.get (fun _ _ _ _ => rfl) fun s => ?_
    split
    · exact pervades_fault law _
    · exact law.ite (pervades_fault law _)
        (law.ite (pervades_fault law _) (law.pure _))

theorem pervades_slotOf (g : Nat) : P (slotOf g) := by
  refine law.get (fun _ _ _ _ => rfl) fun s => ?_
  dsimp only
  split
  · exact law.pure _
  · exact pervades_fault law _

theorem pervades_saveSlot (g : Nat) : P (saveSlot e g) :=
  law.bind (pervades_slotOf law g) fun _ => law.get (fun _ _ _ _ => rfl) fun _ => law.push _

theorem pervades_openGroup (g : Nat) (undo : Bool) : P (openGroup e g undo) := by
  have hrest : P (slotOf g >>= fun slot => get >>= fun s =>
      modifyCaptures (·.setSlot g { slot with start := some s.pos }) >>= fun _ => next) :=
    law.bind (pervades_slotOf law g) fun _ => law.get (fun _ _ _ _ => rfl) fun _ =>
      law.bind (pervades_modifyRegs law _) fun _ => pervades_next law
  cases undo with
  | false => exact hrest
  | true => exact law.bind (pervades_saveSlot law g) fun _ => hrest

theorem pervades_closeGroup (g : Nat) (undo : Bool) : P (closeGroup e g undo) := by
  have hrest (f : Slot → State → Run Unit)
      (hsees : ∀ slot (s : State) tally best events, f slot (s.veiled tally best events) = f slot s)
      (hf : ∀ slot s, P (f slot s)) : P (slotOf g >>= fun slot => get >>= f slot) :=
    law.bind (pervades_slotOf law g) fun slot => law.get (hsees slot) (hf slot)
  have hclose (undo : Bool) (span : Span) (slot : Slot) :
      P (modifyCaptures (·.setSlot g slot) >>= fun _ =>
        if undo && e.program.has .captureHistory then
          modifyCaptures (·.record g span) >>= fun _ => next
        else next) :=
    law.bind (pervades_modifyRegs law _) fun _ => law.ite
      (law.bind (pervades_modifyRegs law _) fun _ => pervades_next law) (pervades_next law)
  cases undo with
  | false =>
    refine hrest _ (fun _ _ _ _ _ => rfl) fun slot s => ?_
    split
    · exact pervades_fault law _
    · exact hclose false _ _
  | true =>
    refine law.bind (pervades_saveSlot law g) fun _ => hrest _ (fun _ _ _ _ _ => rfl) fun slot s => ?_
    split
    · exact pervades_fault law _
    · exact hclose true _ _

theorem pervades_keepOut : P (keepOut e) :=
  law.get (fun _ _ _ _ => rfl) fun _ => law.bind (law.push _) fun _ =>
    law.bind (pervades_modifyRegs law _) fun _ => pervades_next law

theorem pervades_matchCopy (groups : List Nat) (fold : Bool) : P (matchCopy e groups fold) := by
  refine law.get (fun _ _ _ _ => rfl) fun s => ?_
  split
  · exact pervades_consume law _
  · exact law.ite (pervades_next law) (pervades_backtrack law)

theorem pervades_branchIfSet (groups : List Nat) (a : Addr) : P (branchIfSet groups a) :=
  law.get (fun _ _ _ _ => rfl) fun _ => law.ite (pervades_next law) (pervades_goTo law a)

theorem pervades_enterCall (target : Addr) (sub : Nat) : P (enterCall e target sub) := by
  refine law.get (fun _ _ _ _ => rfl) fun s => ?_
  refine law.ite (law.bind (law.halt nofun nofun) fun _ => ?_) ?_
  all_goals
    exact law.bind (pervades_callState law sub) fun _ => law.bind (law.push _) fun _ =>
      law.bind (pervades_modifyRegs law _) fun _ => law.bind (law.emit _ rfl) fun _ =>
        pervades_goTo law _

theorem pervades_leaveCall : P (leaveCall e) := by
  refine law.get (fun _ _ _ _ => rfl) fun s => law.bind (pervades_require law ..) fun call => ?_
  refine law.bind (pervades_callState law _) fun undo => law.bind (pervades_modifyRegs law _) fun _ =>
    law.bind (law.push _) fun _ => law.get (fun _ _ _ _ => rfl) fun t => ?_
  refine law.ite (law.bind (pervades_fault law _) fun _ => ?_) ?_
  all_goals
    exact law.bind (pervades_modifyRegs law _) fun _ => law.bind (law.emit _ rfl) fun _ =>
      pervades_goTo law _

/-! ## Loops -/

theorem pervades_loopState (id : Nat) : P (loopState e id) := by
  refine law.get (fun _ _ _ _ => rfl) fun s => ?_
  dsimp only
  split
  · exact law.pure _
  · exact pervades_fault law _

theorem pervades_chooseRound (l : CountedLoop) : P (chooseRound e l) := by
  unfold chooseRound
  exact law.ite (law.bind (pervades_fork law _) fun _ => pervades_goTo law _)
    (law.bind (pervades_fork law _) fun _ => pervades_goTo law _)

theorem pervades_enterLoop (id : Nat) : P (enterLoop e id) :=
  law.bind (pervades_loopState law id) fun _ => law.bind (law.push _) fun _ =>
    law.bind (pervades_modifyRegs law _) fun _ =>
      law.ite (pervades_chooseRound law _) (pervades_goTo law _)

theorem pervades_endRound (id : Nat) : P (endRound e id) :=
  law.bind (pervades_loopState law id) fun _ => law.bind (law.push _) fun _ =>
    law.bind (pervades_modifyRegs law _) fun _ => law.ite (pervades_goTo law _)
      (law.ite (pervades_goTo law _) (pervades_chooseRound law _))

theorem pervades_checkRound (id : Nat) (captures : Bool) : P (checkRound id captures) :=
  law.get (fun _ _ _ _ => rfl) fun _ => law.bind (pervades_require law ..) fun _ =>
    pervades_goTo law _

theorem pervades_passGuard (site : Nat) (within : Option Nat) : P (passGuard e site within) := by
  refine law.get (fun _ _ _ _ => rfl) fun s => ?_
  split
  · exact pervades_next law
  · have hrest : ∀ (memo : Memo) (fresh : Bool), P (if fresh then next
        else if memo.hasFailed site s.pos then backtrack e
        else push e (.guard site s.pos) >>= fun _ => next) := fun memo fresh =>
      law.ite (pervades_next law) (law.ite (pervades_backtrack law)
        (law.bind (law.push _) fun _ => pervades_next law))
    cases within with
    | none => exact law.bind (law.pure false) fun _ => hrest ..
    | some c =>
      exact law.bind (pervades_require law ..) fun v => law.bind (law.pure _) fun _ => hrest ..

theorem pervades_passAny (ip : Addr) (multiline : Bool) (wanted : Nat → Bool) (pos : Nat) :
    P (passAny e ip multiline wanted pos) := by
  induction hn : e.subject.size - pos using Nat.strongRecOn generalizing pos with
  | ind n ih =>
    unfold passAny
    split
    · exact law.modify fun _ => ⟨rfl, rfl, fun _ _ _ => rfl⟩
    · rename_i k hk
      have hpos := Subject.anyLength?_pos hk
      have hrest : P (passAny e ip multiline wanted (pos + k)) :=
        ih (e.subject.size - (pos + k)) (by omega) (pos + k) rfl
      exact law.ite (law.bind (law.push _) fun _ => hrest) hrest

theorem pervades_takeAny (multiline : Bool) (before : Option UInt8) :
    P (takeAny e multiline before) :=
  law.get (fun _ _ _ _ => rfl) fun _ => pervades_passAny law ..

/-! ## Regions -/

theorem pervades_endLook (mark : Nat) : P (endLook e mark) :=
  law.get (fun _ _ _ _ => rfl) fun _ => law.bind (pervades_require law ..) fun _ =>
    law.bind (law.modify fun _ => ⟨rfl, rfl, fun _ _ _ => rfl⟩) fun _ =>
      law.bind (law.emit _ rfl) fun _ => pervades_next law

theorem pervades_endAtomic (mark : Nat) : P (endAtomic e mark) :=
  law.get (fun _ _ _ _ => rfl) fun _ => law.bind (pervades_require law ..) fun _ =>
    law.bind (law.modify fun _ => ⟨rfl, rfl, fun _ _ _ => rfl⟩) fun _ =>
      law.bind (law.emit _ rfl) fun _ => pervades_next law

theorem pervades_checkPos (mark : Nat) : P (checkPos e mark) :=
  law.get (fun _ _ _ _ => rfl) fun _ => law.bind (pervades_require law ..) fun _ =>
    pervades_check law _

theorem pervades_unwindFrom (mark level : Nat) (frames : List Frame) (size : Nat)
    (hsize : size = frames.length) : P (unwindFrom e mark level frames size hsize) := by
  induction frames generalizing level size with
  | nil => exact pervades_require law ..
  | cons f below ih =>
    unfold unwindFrom
    refine law.ite (law.modify fun _ => ⟨rfl, rfl, fun _ _ _ => rfl⟩) ?_
    split
    · exact law.bind (pervades_modifyRegs law _) fun _ => ih ..
    · exact law.ite (pervades_require law ..)
        (law.bind (pervades_modifyRegs law _) fun _ => ih ..)
    · exact law.bind (pervades_modifyRegs law _) fun _ => ih ..

theorem pervades_unwind (mark : Nat) : P (unwind e mark) :=
  law.detach fun _ => law.bind (pervades_unwindFrom law mark 0 _ _ _) fun _ => pervades_next law

theorem pervades_stepBack (min : Nat) (max : Option Nat) : P (stepBack e min max) := by
  refine law.get (fun _ _ _ _ => rfl) fun s => ?_
  split
  · exact pervades_backtrack law
  · rename_i p _
    have hrest : P (modify fun t : State => { t with ip := t.ip + 1, pos := p } : Run Unit) :=
      law.modify fun _ => ⟨rfl, rfl, fun _ _ _ => rfl⟩
    exact law.ite (law.bind (law.push _) fun _ => hrest) hrest

theorem pervades_dropTop : P dropTop :=
  law.get (fun _ _ _ _ => rfl) fun _ => law.bind (pervades_require law ..) fun _ =>
    law.modify fun _ => ⟨rfl, rfl, fun _ _ _ => rfl⟩

/-! ## Instructions -/

/-- Every instruction but those at which matches end has the property, if runs inside a step do not
get in its way. -/
theorem pervades_exec {r : Runner} (habsent : ∀ body, P (takeAbsent r e body)) {i : Instr}
    (hi : i ≠ .accept) (hi' : i ≠ .absentEnd) : P (exec r e i) := by
  refine law.get (fun _ _ _ _ => rfl) fun s => ?_
  cases i with
  | accept => exact absurd rfl hi
  | anyChars => exact pervades_takeAny law ..
  | anyCharsBefore => exact pervades_takeAny law ..
  | anchor => exact pervades_check law _
  | backref => exact pervades_matchCopy law ..
  | ifSet => exact pervades_branchIfSet law ..
  | groupStart => exact pervades_openGroup law ..
  | groupEnd => exact pervades_closeGroup law ..
  | groupEndRecursive => exact pervades_closeGroup law ..
  | keep => exact pervades_keepOut law
  | fail => exact pervades_backtrack law
  | jump => exact pervades_goTo law _
  | fork => exact law.bind (pervades_fork law _) fun _ => pervades_next law
  | drop => exact pervades_dropTop law
  | repeatEnter => exact pervades_enterLoop law _
  | repeatNext => exact pervades_endRound law _
  | roundStart => exact law.bind (law.push _) fun _ => pervades_next law
  | roundEnd => exact pervades_checkRound law ..
  | lookStart => exact law.bind (law.push _) fun _ => pervades_next law
  | lookEnd => exact pervades_endLook law _
  | atomicStart => exact law.bind (law.push _) fun _ => pervades_next law
  | atomicEnd => exact pervades_endAtomic law _
  | unwind => exact pervades_unwind law _
  | stepBack => exact pervades_stepBack law ..
  | checkPos => exact pervades_checkPos law _
  | call => exact pervades_enterCall law ..
  | ret => exact pervades_leaveCall law
  | guard => exact pervades_passGuard law ..
  | absent => exact habsent _
  | absentEnd => exact absurd rfl hi'
  | _ => exact pervades_consume law _

end

/-- Runs inside a step have no part in it but that they may end the run. -/
theorem maintains_takeAbsent {I : State → Prop} {J : Halt → State → Prop} {e : Setting}
    (law : Pervades e fun {α} => Maintains (α := α) I J) {r : Runner} {body : Addr}
    (hends : ∀ (s : State) k, absentEnd r e body s.tally.begun s.pos = .error k → ∀ t, I t → J k t) :
    Maintains I J (takeAbsent r e body) := by
  refine maintains_get fun s => ?_
  split
  · exact maintains_halt (hends s _ ‹_›)
  · exact pervades_backtrack law
  · rename_i stop _
    have hrest : Maintains I J
        (modify fun t : State => { t with ip := t.ip + 1, pos := stop } : Run Unit) :=
      law.modify fun _ => ⟨rfl, rfl, fun _ _ _ => rfl⟩
    exact law.ite ((law.push _).bind fun _ => hrest) hrest

end RegexMachine.Machine
