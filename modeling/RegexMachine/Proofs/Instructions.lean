import RegexMachine.Proofs.Moves
import RegexMachine.Proofs.Ways

/-!
What each instruction does to a core. An instruction that needs a marker finds it below the frames
of completed code.
-/
namespace RegexMachine.Machine
open Point

theorem push_quiet {e : Setting} (hq : Quiet e) (f : Frame) (s : State) :
    push e f s = .ok () { s with stack := s.stack.push f } := by
  simp only [push, hq.frames]
  rfl

theorem bind_push {β : Type} {e : Setting} (hq : Quiet e) (f : Frame) (g : Unit → Run β)
    (s : State) : (push e f >>= g) s = g () { s with stack := s.stack.push f } :=
  bind_ok (push_quiet hq f s)

/-- A marker of a round is visible: it lies below frames of completed code only. -/
def Sees (frames : List Frame) (check pos : Nat) : Prop :=
  ∃ F K lo, frames = F ++ .round check pos :: K ∧ Tidy lo F ∧ check < lo

theorem Sees.append {F K : List Frame} {lo check pos : Nat} (hF : Tidy lo F) (hlt : check < lo)
    (h : Sees K check pos) : Sees (F ++ K) check pos := by
  obtain ⟨G, L, lo', rfl, hG, hlt'⟩ := h
  refine ⟨F ++ G, L, min lo lo', by simp, ?_, by omega⟩
  exact (hF.mono (by omega)).append (hG.mono (by omega))

theorem Sees.of_settled {K L : List Frame} {check pos : Nat} (h : Sees K check pos)
    (hs : Settled K L) : Sees L check pos := by
  obtain ⟨G, M, lo, rfl, hG, hlt⟩ := h
  rcases hs.of_append with ⟨G', hG', rfl⟩ | ⟨_, hM⟩
  · obtain ⟨vs, hv, rfl⟩ := hG'
    exact ⟨G', M, lo, rfl, hG.dropVoids hv, hlt⟩
  · rw [hM.eq_of_ne (by simp)]
    exact ⟨[], M, lo, rfl, .nil lo, hlt⟩

variable {e : Setting} {c : Core}

theorem moves_consume {i : Instr} {width : Nat → Option Nat} {n : Nat}
    (hi : e.program.code[c.ip]? = some i)
    (hx : ∀ r, exec r e i = fun s => consume e (width s.pos) s) (hw : width c.pos = some n) :
    Moves e (.going c) (.going { c with ip := c.ip + 1, pos := c.pos + n }) := by
  refine Does.moves (x := fun s => consume e (width s.pos) s) ?_ hi hx
  intro s hs
  subst hs
  refine ⟨{ s with ip := s.ip + 1, pos := s.pos + n }, rfl, ?_⟩
  have : width s.pos = some n := hw
  simp only [this]
  rfl

theorem moves_consume_none {i : Instr} {width : Nat → Option Nat}
    (hi : e.program.code[c.ip]? = some i)
    (hx : ∀ r, exec r e i = fun s => consume e (width s.pos) s) (hw : width c.pos = none) :
    Moves e (.going c) (.failing c) := by
  refine Does.moves (x := fun s => consume e (width s.pos) s) ?_ hi hx
  intro s hs
  subst hs
  refine ⟨s, rfl, ?_⟩
  have : width s.pos = none := hw
  simp only [this]
  rfl

theorem moves_anchor {a : Anchor} (hi : e.program.code[c.ip]? = some (.anchor a))
    (h : e.subject.holds e.origin c.pos a = true) :
    Moves e (.going c) (.going { c with ip := c.ip + 1 }) := by
  refine Does.moves (x := fun s => check e (e.subject.holds e.origin s.pos a) s) ?_ hi
    (fun _ => rfl)
  intro s hs
  subst hs
  refine ⟨{ s with ip := s.ip + 1 }, rfl, ?_⟩
  have : e.subject.holds e.origin s.pos a = true := h
  simp only [this]
  rfl

theorem moves_anchor_fail {a : Anchor} (hi : e.program.code[c.ip]? = some (.anchor a))
    (h : e.subject.holds e.origin c.pos a = false) : Moves e (.going c) (.failing c) := by
  refine Does.moves (x := fun s => check e (e.subject.holds e.origin s.pos a) s) ?_ hi
    (fun _ => rfl)
  intro s hs
  subst hs
  refine ⟨s, rfl, ?_⟩
  have : e.subject.holds e.origin s.pos a = false := h
  simp only [this]
  rfl

theorem moves_jump {a : Addr} (hi : e.program.code[c.ip]? = some (.jump a)) :
    Moves e (.going c) (.going { c with ip := a }) := by
  refine Does.moves (x := goTo a) ?_ hi (fun _ => rfl)
  intro s hs
  subst hs
  exact ⟨{ s with ip := a }, rfl, rfl⟩

theorem moves_fail (hi : e.program.code[c.ip]? = some .fail) :
    Moves e (.going c) (.failing c) := by
  refine Does.moves (x := backtrack e) ?_ hi (fun _ => rfl)
  intro s hs
  exact ⟨s, hs, rfl⟩

theorem fork_quiet (hq : Quiet e) (a : Addr) (s : State) :
    ∃ s', s'.core = { s.core with frames := .alternative a s.pos :: s.core.frames } ∧
      fork e a s = .ok () s' := by
  let t := s.emit e (.fork a s.pos)
  refine ⟨{ t with stack := t.stack.push (.alternative a s.pos) }, ?_, ?_⟩
  · change { t.core with frames := .alternative a s.pos :: t.core.frames } = _
    rw [show t.core = s.core from core_emit _ _ _]
  · simp only [fork, bind_get, emit, bind_modify]
    exact push_quiet hq _ _

theorem moves_fork (hq : Quiet e) {a : Addr} (hi : e.program.code[c.ip]? = some (.fork a)) :
    Moves e (.going c)
      (.going { c with ip := c.ip + 1, frames := .alternative a c.pos :: c.frames }) := by
  refine Does.moves (x := fork e a >>= fun _ => next) ?_ hi (fun _ => rfl)
  intro s hs
  subst hs
  obtain ⟨t, ht, hf⟩ := fork_quiet hq a s
  refine ⟨{ t with ip := t.ip + 1 }, ?_, bind_ok hf⟩
  change { t.core with ip := t.core.ip + 1 } = _
  rw [ht]
  rfl

theorem moves_drop {f : Frame} {K : List Frame} (hi : e.program.code[c.ip]? = some .drop)
    (h : c.frames = f :: K) :
    Moves e (.going c) (.going { c with ip := c.ip + 1, frames := K }) := by
  refine Does.moves (x := dropTop) ?_ hi (fun _ => rfl)
  intro s hs
  subst hs
  obtain ⟨ip, pos, start, ⟨frames, size, hsize⟩, regs, tally, memo, best, events⟩ := s
  cases h
  exact ⟨_, rfl, rfl⟩

/-! ## Groups -/

theorem slotOf_ok {g : Nat} {slot : Slot} {s : State} (h : s.regs.captures.slot? g = some slot) :
    slotOf g s = .ok slot s := by
  simp only [slotOf, bind_get, h]
  rfl

theorem saveSlot_ok (hq : Quiet e) {g : Nat} {slot : Slot} {s : State}
    (h : s.regs.captures.slot? g = some slot) :
    saveSlot e g s =
      .ok () { s with stack := s.stack.push (.capture g slot s.regs.captures.history) } := by
  simp only [saveSlot]
  rw [bind_ok (slotOf_ok h), bind_get]
  exact push_quiet hq _ _

/-- Frames with a record of a group, where one is kept. -/
def savedSlot (undo : Bool) (g : Nat) (slot : Slot) (h : History) (K : List Frame) : List Frame :=
  if undo then .capture g slot h :: K else K

theorem saveIf_ok (hq : Quiet e) (undo : Bool) {g : Nat} {slot : Slot} {s : State}
    (h : s.regs.captures.slot? g = some slot) :
    ∃ s', s'.core = { s.core with
        frames := savedSlot undo g slot s.regs.captures.history s.core.frames } ∧
      ∀ k : Run Unit,
        (if undo = true then saveSlot e g >>= fun _ => k else k) s = k s' := by
  cases undo with
  | false => exact ⟨s, rfl, fun _ => rfl⟩
  | true => exact ⟨_, rfl, fun _ => bind_ok (saveSlot_ok hq h)⟩

theorem moves_groupStart (hq : Quiet e) {g : Nat} {undo : Bool} {slot : Slot}
    (hi : e.program.code[c.ip]? = some (.groupStart g undo))
    (h : c.regs.captures.slot? g = some slot) :
    Moves e (.going c) (.going { c with
      ip := c.ip + 1
      frames := savedSlot undo g slot c.regs.captures.history c.frames
      regs := { c.regs with
        captures := c.regs.captures.setSlot g { slot with start := some c.pos } } }) := by
  refine Does.moves (x := openGroup e g undo) ?_ hi (fun _ => rfl)
  intro s hs
  subst hs
  obtain ⟨t, ht, hsave⟩ := saveIf_ok hq undo (s := s) h
  have hslot : t.regs.captures.slot? g = some slot := by
    rw [show t.regs = s.regs from congrArg Core.regs ht]
    exact h
  let u : State := { t with
    ip := t.ip + 1
    regs := { t.regs with
      captures := t.regs.captures.setSlot g { slot with start := some t.pos } } }
  refine ⟨u, ?_, ?_⟩
  · change { t.core with
      ip := t.core.ip + 1
      regs := { t.core.regs with
        captures := t.core.regs.captures.setSlot g { slot with start := some t.core.pos } } } = _
    rw [ht]
    rfl
  · simp only [openGroup]
    rw [hsave, bind_ok (slotOf_ok hslot)]
    rfl

theorem moves_groupEnd (hq : Quiet e) {g start : Nat} {undo : Bool} {slot : Slot}
    (hi : e.program.code[c.ip]? = some (.groupEnd g undo))
    (h : c.regs.captures.slot? g = some slot) (hstart : slot.start = some start) :
    Moves e (.going c) (.going { c with
      ip := c.ip + 1
      frames := savedSlot undo g slot c.regs.captures.history c.frames
      regs := { c.regs with
        captures := c.regs.captures.closed g ⟨start, c.pos⟩
          (undo && e.program.has .captureHistory) } }) := by
  refine Does.moves (x := closeGroup e g undo) ?_ hi (fun _ => rfl)
  intro s hs
  subst hs
  obtain ⟨t, ht, hsave⟩ := saveIf_ok hq undo (s := s) h
  have hslot : t.regs.captures.slot? g = some slot := by
    rw [show t.regs = s.regs from congrArg Core.regs ht]
    exact h
  let u : State := { t with
    ip := t.ip + 1
    regs := { t.regs with
      captures := t.regs.captures.closed g ⟨start, t.pos⟩
        (undo && e.program.has .captureHistory) } }
  refine ⟨u, ?_, ?_⟩
  · change { t.core with
      ip := t.core.ip + 1
      regs := { t.core.regs with
        captures := t.core.regs.captures.closed g ⟨start, t.core.pos⟩
          (undo && e.program.has .captureHistory) } } = _
    rw [ht]
    rfl
  · simp only [closeGroup]
    rw [hsave, bind_ok (slotOf_ok hslot), bind_get]
    simp only [hstart]
    cases hlog : undo && e.program.has .captureHistory with
    | false => simp [u, hlog, Captures.closed, modifyCaptures, modifyRegs, next]; rfl
    | true => simp [u, hlog, Captures.closed, modifyCaptures, modifyRegs, next]; rfl

theorem moves_keep (hq : Quiet e) (hi : e.program.code[c.ip]? = some .keep) :
    Moves e (.going c) (.going { c with
      ip := c.ip + 1
      frames := .keep c.regs.keep :: c.frames
      regs := { c.regs with keep := some c.pos } }) := by
  refine Does.moves (x := keepOut e) ?_ hi (fun _ => rfl)
  intro s hs
  subst hs
  let u : State := { s with
    ip := s.ip + 1
    stack := s.stack.push (.keep s.regs.keep)
    regs := { s.regs with keep := some s.pos } }
  refine ⟨u, rfl, ?_⟩
  simp only [keepOut, bind_get]
  rw [bind_push hq]
  rfl

/-! ## Counted loops -/

/-- Another round or the way out, the other one being left as an alternative. -/
def roundChoice (l : CountedLoop) (c : Core) : Core :=
  if l.greedy then { c with ip := l.body, frames := .alternative l.exit c.pos :: c.frames }
  else { c with ip := l.exit, frames := .alternative l.body c.pos :: c.frames }

theorem chooseRound_quiet (hq : Quiet e) (l : CountedLoop) (s : State) :
    ∃ s', s'.core = roundChoice l s.core ∧ chooseRound e l s = .ok () s' := by
  cases hg : l.greedy with
  | true =>
    obtain ⟨t, ht, hf⟩ := fork_quiet hq l.exit s
    refine ⟨{ t with ip := l.body }, ?_, ?_⟩
    · change { t.core with ip := l.body } = _
      rw [ht, roundChoice, hg]
      rfl
    · simp only [chooseRound, hg, ↓reduceIte]
      rw [bind_ok hf]
      rfl
  | false =>
    obtain ⟨t, ht, hf⟩ := fork_quiet hq l.body s
    refine ⟨{ t with ip := l.exit }, ?_, ?_⟩
    · change { t.core with ip := l.exit } = _
      rw [ht, roundChoice, hg]
      rfl
    · simp only [chooseRound, hg, Bool.false_eq_true, ↓reduceIte]
      rw [bind_ok hf]
      rfl

theorem loopState_ok {id n : Nat} {l : CountedLoop} {s : State}
    (hl : e.program.tables.loops[id]? = some l) (hn : s.regs.counts[id]? = some n) :
    loopState e id s = .ok (l, n) s := by
  simp only [loopState, bind_get, hl, hn]
  rfl

/-- A core with the count of a loop changed, and a record of what it was. -/
def Core.counting (c : Core) (id before rounds : Nat) : Core :=
  { c with
    frames := .count id before :: c.frames
    regs := { c.regs with counts := c.regs.counts.setIfInBounds id rounds } }

theorem moves_repeatEnter (hq : Quiet e) {id n : Nat} {l : CountedLoop}
    (hi : e.program.code[c.ip]? = some (.repeatEnter id))
    (hl : e.program.tables.loops[id]? = some l) (hn : c.regs.counts[id]? = some n) :
    Moves e (.going c) (.going
      (if l.min = 0 then roundChoice l (c.counting id n 0)
        else { c.counting id n 0 with ip := l.body })) := by
  refine Does.moves (x := enterLoop e id) ?_ hi (fun _ => rfl)
  intro s hs
  subst hs
  let t : State := { s with
    stack := s.stack.push (.count id n)
    regs := { s.regs with counts := s.regs.counts.setIfInBounds id 0 } }
  have henter : enterLoop e id s = (if l.min == 0 then chooseRound e l else goTo l.body) t := by
    simp only [enterLoop]
    rw [bind_ok (loopState_ok hl hn)]
    simp only
    rw [bind_push hq]
    rfl
  by_cases hmin : l.min = 0
  · obtain ⟨u, hu, hc⟩ := chooseRound_quiet hq l t
    refine ⟨u, ?_, ?_⟩
    · rw [hu, if_pos hmin]
      rfl
    · rw [henter, if_pos (by simpa using hmin), hc]
  · refine ⟨{ t with ip := l.body }, ?_, ?_⟩
    · rw [if_neg hmin]
      rfl
    · rw [henter, if_neg (by simpa using hmin)]
      rfl

theorem moves_repeatNext (hq : Quiet e) {id n : Nat} {l : CountedLoop}
    (hi : e.program.code[c.ip]? = some (.repeatNext id))
    (hl : e.program.tables.loops[id]? = some l) (hn : c.regs.counts[id]? = some n) :
    Moves e (.going c) (.going
      (if l.max.any (· ≤ n + 1) then { c.counting id n (n + 1) with ip := l.exit }
        else if n + 1 < l.min then { c.counting id n (n + 1) with ip := l.body }
        else roundChoice l (c.counting id n (n + 1)))) := by
  refine Does.moves (x := endRound e id) ?_ hi (fun _ => rfl)
  intro s hs
  subst hs
  let t : State := { s with
    stack := s.stack.push (.count id n)
    regs := { s.regs with counts := s.regs.counts.setIfInBounds id (n + 1) } }
  have hend : endRound e id s =
      (if l.max.any (· ≤ n + 1) then goTo l.exit
        else if n + 1 < l.min then goTo l.body else chooseRound e l) t := by
    simp only [endRound]
    rw [bind_ok (loopState_ok hl hn)]
    simp only
    rw [bind_push hq]
    rfl
  rw [hend]
  split
  · exact ⟨{ t with ip := l.exit }, rfl, rfl⟩
  · split
    · exact ⟨{ t with ip := l.body }, rfl, rfl⟩
    · exact chooseRound_quiet hq l t

/-! ## Rounds and regions -/

theorem moves_roundStart (hq : Quiet e) {id : Nat}
    (hi : e.program.code[c.ip]? = some (.roundStart id)) :
    Moves e (.going c)
      (.going { c with ip := c.ip + 1, frames := .round id c.pos :: c.frames }) := by
  refine Does.moves (x := fun s => (push e (.round id s.pos) >>= fun _ => next) s) ?_ hi
    (fun _ => rfl)
  intro s hs
  subst hs
  exact ⟨_, rfl, bind_push hq _ _ _⟩

theorem require_some {α : Type} {what : Missing} {a : α} {s : State} :
    require what (some a) s = .ok a s := rfl

theorem moves_roundEnd {id pos lo : Nat} {captures : Bool} {F K : List Frame}
    (hi : e.program.code[c.ip]? = some (.roundEnd id captures))
    (h : c.frames = F ++ .round id pos :: K) (hF : Tidy lo F) (hlt : id < lo) :
    Moves e (.going c) (.going { c with
      ip := if pos == c.pos && !(captures && F.any (changed c.regs.captures)) then c.ip + 2
        else c.ip + 1 }) := by
  refine Does.moves (x := checkRound id captures) ?_ hi (fun _ => rfl)
  intro s hs
  subst hs
  obtain ⟨v, hv, habove, hframe, -⟩ := s.stack.view?_of_tidy (FrameStack.isRound id) hF
    (FrameStack.isRound_of_plain hlt) h rfl (by simp [FrameStack.isRound])
  refine ⟨{ s with
    ip := if pos == s.pos && !(captures && F.any (changed s.regs.captures)) then s.ip + 2
      else s.ip + 1 }, rfl, ?_⟩
  simp only [checkRound, bind_get, hv]
  rw [bind_ok require_some, hframe, habove, List.any_reverse]
  rfl

theorem moves_lookStart (hq : Quiet e) {mark : Nat}
    (hi : e.program.code[c.ip]? = some (.lookStart mark)) :
    Moves e (.going c)
      (.going { c with ip := c.ip + 1, frames := .look mark c.pos :: c.frames }) := by
  refine Does.moves (x := fun s => (push e (.look mark s.pos) >>= fun _ => next) s) ?_ hi
    (fun _ => rfl)
  intro s hs
  subst hs
  exact ⟨_, rfl, bind_push hq _ _ _⟩

theorem moves_atomicStart (hq : Quiet e) {mark : Nat}
    (hi : e.program.code[c.ip]? = some (.atomicStart mark)) :
    Moves e (.going c)
      (.going { c with ip := c.ip + 1, frames := .atomic mark :: c.frames }) := by
  refine Does.moves (x := fun s => (push e (.atomic mark) >>= fun _ => next) s) ?_ hi
    (fun _ => rfl)
  intro s hs
  subst hs
  exact ⟨_, rfl, bind_push hq _ _ _⟩

/-- Frames of a region that is closed for good. -/
def sealed (F K : List Frame) : List Frame :=
  (F.map Frame.committed ++ .void :: K).dropWhile Frame.isVoid

theorem sealed_settled (F K : List Frame) :
    Settled (F.map Frame.committed ++ .void :: K) (sealed F K) := Settled.dropVoids _

theorem moves_lookEnd {mark pos lo : Nat} {F K : List Frame}
    (hi : e.program.code[c.ip]? = some (.lookEnd mark))
    (h : c.frames = F ++ .look mark pos :: K) (hF : Tidy lo F) :
    Moves e (.going c)
      (.going { c with ip := c.ip + 1, pos := pos, frames := sealed F K }) := by
  refine Does.moves (x := endLook e mark) ?_ hi (fun _ => rfl)
  intro s hs
  subst hs
  obtain ⟨v, hv, habove, hframe, hbelow⟩ := s.stack.view?_of_tidy (FrameStack.isLook mark) hF
    (FrameStack.isLook_of_plain mark lo) h rfl (by simp [FrameStack.isLook])
  let t : State := ({ s with
    pos := FrameStack.savedPos v.frame, stack := s.stack.commit v } : State).emit e (.commit mark)
  refine ⟨{ t with ip := t.ip + 1 }, ?_, ?_⟩
  · change { t.core with ip := t.core.ip + 1 } = _
    rw [show t.core = _ from core_emit _ _ _]
    simp only [State.core, FrameStack.commit_frames, habove, hframe, hbelow, List.reverse_reverse]
    rfl
  · simp only [endLook, openLook, bind_get, hv]
    rw [bind_ok require_some]
    rfl

theorem moves_atomicEnd {mark lo : Nat} {F K : List Frame}
    (hi : e.program.code[c.ip]? = some (.atomicEnd mark))
    (h : c.frames = F ++ .atomic mark :: K) (hF : Tidy lo F) :
    Moves e (.going c) (.going { c with ip := c.ip + 1, frames := sealed F K }) := by
  refine Does.moves (x := endAtomic e mark) ?_ hi (fun _ => rfl)
  intro s hs
  subst hs
  obtain ⟨v, hv, habove, hframe, hbelow⟩ := s.stack.view?_of_tidy (FrameStack.isAtomic mark) hF
    (FrameStack.isAtomic_of_plain mark lo) h rfl (by simp [FrameStack.isAtomic])
  let t : State := ({ s with stack := s.stack.commit v } : State).emit e (.commit mark)
  refine ⟨{ t with ip := t.ip + 1 }, ?_, ?_⟩
  · change { t.core with ip := t.core.ip + 1 } = _
    rw [show t.core = _ from core_emit _ _ _]
    simp only [State.core, FrameStack.commit_frames, habove, hbelow, List.reverse_reverse]
    rfl
  · simp only [endAtomic, bind_get, hv]
    rw [bind_ok require_some]
    rfl

/-- Unwinding a list of frames, whose number is its length. -/
def unwindList (e : Setting) (mark level : Nat) (frames : List Frame) : Run Unit :=
  unwindFrom e mark level frames frames.length rfl

theorem unwind_eq (mark : Nat) (s : State) :
    unwind e mark s = (unwindList e mark 0 s.stack.frames >>= fun _ => next)
      { s with stack := .empty } := by
  obtain ⟨ip, pos, start, ⟨frames, size, hsize⟩, regs, tally, memo, best, events⟩ := s
  cases hsize
  rfl

/-- Frames of completed code are undone one after another, whether or not calls stand above. -/
theorem unwindList_tidy (mark : Nat) {lo : Nat} {F : List Frame} (hF : Tidy lo F)
    (level : Nat) (below : List Frame) (s : State) :
    unwindList e mark level (F ++ below) s =
      unwindList e mark level below { s with regs := s.regs.undoAll e.program F } := by
  induction hF generalizing level s below with
  | nil => rfl
  | @frame lo f F hf hF ih =>
    have step : unwindList e mark level (f :: (F ++ below)) s =
        unwindList e mark level (F ++ below) { s with regs := s.regs.undo e.program f } := by
      cases f with
      | look _ _ => cases hf
      | atomic _ => cases hf
      | call _ _ _ => cases hf
      | returned _ _ => cases hf
      | _ => cases level <;> rfl
    exact step.trans (ih _ _ _)
  | @call lo G F sub undo back sub' saved hG hF ihG ihF =>
    have enter : unwindList e mark level
          (.returned sub undo :: (G ++ .call back sub' saved :: F) ++ below) s =
        unwindList e mark (level + 1) (G ++ .call back sub' saved :: (F ++ below))
          { s with regs := s.regs.undo e.program (.returned sub undo) } := by
      rw [show .returned sub undo :: (G ++ .call back sub' saved :: F) ++ below =
        .returned sub undo :: (G ++ .call back sub' saved :: (F ++ below)) by simp]
      cases level <;> rfl
    have leave : ∀ t : State,
        unwindList e mark (level + 1) (.call back sub' saved :: (F ++ below)) t =
          unwindList e mark level (F ++ below)
            { t with regs := t.regs.undo e.program (.call back sub' saved) } := fun _ => rfl
    rw [enter, ihG, leave, ihF]
    simp only [Registers.undoAll_cons, Registers.undoAll_append]

theorem moves_unwind {mark pos lo : Nat} {F K : List Frame}
    (hi : e.program.code[c.ip]? = some (.unwind mark))
    (h : c.frames = F ++ .look mark pos :: K) (hF : Tidy lo F) :
    Moves e (.going c) (.going { c with
      ip := c.ip + 1, frames := K, regs := c.regs.undoAll e.program F }) := by
  refine Does.moves (x := unwind e mark) ?_ hi (fun _ => rfl)
  intro s hs
  subst hs
  have hframes : s.stack.frames = F ++ .look mark pos :: K := h
  refine ⟨{ s with
    ip := s.ip + 1, stack := ⟨K, K.length, rfl⟩, regs := s.regs.undoAll e.program F }, rfl, ?_⟩
  rw [unwind_eq, hframes]
  have hlist : unwindList e mark 0 (F ++ .look mark pos :: K) { s with stack := .empty } =
      .ok () { s with stack := ⟨K, K.length, rfl⟩, regs := s.regs.undoAll e.program F } := by
    rw [unwindList_tidy mark hF]
    simp [unwindList, unwindFrom, FrameStack.isLook]
    rfl
  exact bind_ok hlist

theorem moves_checkPos {mark pos lo : Nat} {F K : List Frame}
    (hi : e.program.code[c.ip]? = some (.checkPos mark))
    (h : c.frames = F ++ .look mark pos :: K) (hF : Tidy lo F) :
    Moves e (.going c)
      (if c.pos = pos then .going { c with ip := c.ip + 1 } else .failing c) := by
  have hcheck : ∀ s : State, s.core = c →
      checkPos e mark s = check e (s.pos == pos) s := by
    intro s hs
    subst hs
    obtain ⟨v, hv, -, hframe, -⟩ := s.stack.view?_of_tidy (FrameStack.isLook mark) hF
      (FrameStack.isLook_of_plain mark lo) h rfl (by simp [FrameStack.isLook])
    simp only [checkPos, openLook, bind_get, hv]
    rw [bind_ok require_some, hframe]
    rfl
  split
  · refine Does.moves (x := checkPos e mark) ?_ hi (fun _ => rfl)
    intro s hs
    have hp : s.pos = pos := by rw [← ‹c.pos = pos›, ← hs]; rfl
    refine ⟨{ s with ip := s.ip + 1 }, by rw [← hs]; rfl, ?_⟩
    have hb : (s.pos == pos) = true := by simp [hp]
    exact (hcheck s hs).trans (by rw [hb]; rfl)
  · refine Does.moves (x := checkPos e mark) ?_ hi (fun _ => rfl)
    intro s hs
    have hp : s.pos ≠ pos := by
      intro hp
      exact ‹¬ c.pos = pos› (by rw [← hp, ← hs]; rfl)
    refine ⟨s, hs, ?_⟩
    rw [hcheck s hs]
    simp [check, hp]

/-! ## Steps back -/

theorem moves_stepBack_fail {min : Nat} {max : Option Nat}
    (hi : e.program.code[c.ip]? = some (.stepBack min max))
    (h : back? e.subject c.pos min = none) : Moves e (.going c) (.failing c) := by
  refine Does.moves (x := stepBack e min max) ?_ hi (fun _ => rfl)
  intro s hs
  subst hs
  refine ⟨s, rfl, ?_⟩
  have : back? e.subject s.pos min = none := h
  simp only [stepBack, bind_get, this]

theorem moves_stepBack_first (hq : Quiet e) {min p : Nat} {max : Option Nat}
    (hi : e.program.code[c.ip]? = some (.stepBack min max))
    (h : back? e.subject c.pos min = some p) :
    Moves e (.going c) (.going { c with
      ip := c.ip + 1, pos := p
      frames := if (max.map (· - min)).all (0 < ·) && 0 < p then
          .stepBack (c.ip + 1) p (max.map (· - min)) :: c.frames
        else c.frames }) := by
  refine Does.moves (x := stepBack e min max) ?_ hi (fun _ => rfl)
  intro s hs
  subst hs
  have : back? e.subject s.pos min = some p := h
  simp only [stepBack, bind_get, this]
  split
  · refine ⟨_, ?_, bind_push hq _ _ _⟩
    rfl
  · exact ⟨_, rfl, rfl⟩

/-! ## Guards -/

/-- Without a memory a guard does nothing. -/
theorem moves_guard_none {site : Nat} {within : Option Nat}
    (hi : e.program.code[c.ip]? = some (.guard site within)) (h : c.memo = none) :
    Moves e (.going c) (.going { c with ip := c.ip + 1 }) := by
  refine Does.moves (x := passGuard e site within) ?_ hi (fun _ => rfl)
  intro s hs
  subst hs
  have : s.memo = none := h
  have hpass : passGuard e site within s = next s := by
    simp only [passGuard, bind_get, this]
  exact ⟨{ s with ip := s.ip + 1 }, rfl, hpass.trans rfl⟩

/-- Whether the round that a guard stands in began at the position; `false` if there is none. -/
def RoundBeganAt (frames : List Frame) (within : Option Nat) (pos : Nat) (fresh : Bool) : Prop :=
  match within with
  | none => fresh = false
  | some check => ∃ start, Sees frames check start ∧ fresh = (start == pos)

theorem moves_guard (hq : Quiet e) {site : Nat} {within : Option Nat} {m : Memo} {fresh : Bool}
    (hi : e.program.code[c.ip]? = some (.guard site within)) (h : c.memo = some m)
    (hw : RoundBeganAt c.frames within c.pos fresh) :
    Moves e (.going c)
      (if fresh then .going { c with ip := c.ip + 1 }
        else if m.hasFailed site c.pos then .failing c
        else .going { c with ip := c.ip + 1, frames := .guard site c.pos :: c.frames }) := by
  have hpass : ∀ s : State, s.core = c → passGuard e site within s =
      (if fresh then next else if m.hasFailed site s.pos then backtrack e
        else push e (.guard site s.pos) >>= fun _ => next) s := by
    intro s hs
    subst hs
    have hm : s.memo = some m := h
    simp only [passGuard, bind_get, hm]
    cases within with
    | none =>
      cases hw
      rfl
    | some check =>
      obtain ⟨start, ⟨F, K, lo, hframes, hF, hlt⟩, rfl⟩ := hw
      obtain ⟨v, hv, -, hframe, -⟩ := s.stack.view?_of_tidy (FrameStack.isRound check) hF
        (FrameStack.isRound_of_plain hlt) hframes rfl (by simp [FrameStack.isRound])
      have hstart : FrameStack.savedPos v.frame = start := by rw [hframe]; rfl
      simp only [hv, ← hstart]
      rfl
  have hstep : ∀ p, Does e (fun s => (if fresh then next
      else if m.hasFailed site s.pos then backtrack e
      else push e (.guard site s.pos) >>= fun _ => next) s) c p →
      Does e (passGuard e site within) c p := by
    intro p hp
    cases p with
    | going d => exact fun s hs => by rw [hpass s hs]; exact hp s hs
    | failing d => exact fun s hs => by rw [hpass s hs]; exact hp s hs
  refine Does.moves (x := passGuard e site within) (hstep _ ?_) hi (fun _ => rfl)
  cases fresh with
  | true =>
    intro s hs
    subst hs
    exact ⟨{ s with ip := s.ip + 1 }, rfl, rfl⟩
  | false =>
    cases hf : m.hasFailed site c.pos with
    | true =>
      intro s hs
      subst hs
      have hf : m.hasFailed site s.pos = true := hf
      exact ⟨s, rfl, by simp [hf]⟩
    | false =>
      intro s hs
      subst hs
      have hf : m.hasFailed site s.pos = false := hf
      refine ⟨{ s with
        ip := s.ip + 1, stack := s.stack.push (.guard site s.pos) }, rfl, ?_⟩
      simp only [Bool.false_eq_true, ↓reduceIte, hf]
      exact bind_push hq _ _ _

/-! ## Runs of any characters -/

/-- The places that any characters from `pos` on lead to, `pos` first. -/
def anyPlaces (t : Subject) (multiline : Bool) (pos : Nat) : List Nat :=
  match _h : t.anyLength? pos multiline with
  | none => [pos]
  | some n => pos :: anyPlaces t multiline (pos + n)
termination_by t.size - pos
decreasing_by
  have := Subject.anyLength?_pos _h
  omega

/-- Frames and position after a run of any characters: alternatives at the places wanted but the
last one. -/
def afterAny (wanted : Nat → Bool) (ip : Addr) (frames : List Frame) : List Nat → List Frame × Nat
  | [] => (frames, 0)
  | [p] => (frames, p)
  | p :: q :: ps =>
    afterAny wanted ip (if wanted p then .alternative ip p :: frames else frames) (q :: ps)

theorem anyPlaces_none {t : Subject} {multiline : Bool} {pos : Nat}
    (h : t.anyLength? pos multiline = none) : anyPlaces t multiline pos = [pos] := by
  rw [anyPlaces]
  split
  · rfl
  · simp_all

theorem anyPlaces_some {t : Subject} {multiline : Bool} {pos n : Nat}
    (h : t.anyLength? pos multiline = some n) :
    anyPlaces t multiline pos = pos :: anyPlaces t multiline (pos + n) := by
  rw [anyPlaces]
  split
  · simp_all
  · simp_all

theorem anyPlaces_ne_nil (t : Subject) (multiline : Bool) (pos : Nat) :
    ∃ ps, anyPlaces t multiline pos = pos :: ps := by
  cases h : t.anyLength? pos multiline with
  | none => exact ⟨[], anyPlaces_none h⟩
  | some n => exact ⟨_, anyPlaces_some h⟩

theorem passAny_none {ip : Addr} {multiline : Bool} {wanted : Nat → Bool} {pos : Nat}
    (h : e.subject.anyLength? pos multiline = none) :
    passAny e ip multiline wanted pos = modify fun s => { s with ip := ip, pos := pos } := by
  rw [passAny]
  split
  · rfl
  · simp_all

theorem passAny_some {ip : Addr} {multiline : Bool} {wanted : Nat → Bool} {pos n : Nat}
    (h : e.subject.anyLength? pos multiline = some n) :
    passAny e ip multiline wanted pos =
      if wanted pos then push e (.alternative ip pos) >>= fun _ =>
        passAny e ip multiline wanted (pos + n)
      else passAny e ip multiline wanted (pos + n) := by
  rw [passAny]
  split
  · simp_all
  · cases h.symm.trans ‹_›
    rfl

theorem passAny_quiet (hq : Quiet e) (ip : Addr) (multiline : Bool) (wanted : Nat → Bool)
    (pos : Nat) (s : State) :
    ∃ s', s'.core = { s.core with
        ip := ip
        frames := (afterAny wanted ip s.core.frames (anyPlaces e.subject multiline pos)).1
        pos := (afterAny wanted ip s.core.frames (anyPlaces e.subject multiline pos)).2 } ∧
      passAny e ip multiline wanted pos s = .ok () s' := by
  cases h : e.subject.anyLength? pos multiline with
  | none =>
    rw [passAny_none h, anyPlaces_none h]
    exact ⟨{ s with ip := ip, pos := pos }, rfl, rfl⟩
  | some n =>
    have := Subject.anyLength?_pos h
    obtain ⟨ps, hps⟩ := anyPlaces_ne_nil e.subject multiline (pos + n)
    rw [passAny_some h, anyPlaces_some h]
    cases hw : wanted pos with
    | true =>
      obtain ⟨s', hs', hr⟩ := passAny_quiet hq ip multiline wanted (pos + n)
        { s with stack := s.stack.push (.alternative ip pos) }
      refine ⟨s', ?_, ?_⟩
      · rw [hs', hps]
        simp only [afterAny, hw]
        rfl
      · simp only [↓reduceIte]
        rw [bind_push hq, hr]
    | false =>
      obtain ⟨s', hs', hr⟩ := passAny_quiet hq ip multiline wanted (pos + n) s
      refine ⟨s', ?_, ?_⟩
      · rw [hs', hps]
        simp only [afterAny, hw]
        rfl
      · simpa using hr
termination_by e.subject.size - pos

theorem moves_takeAny (hq : Quiet e) {i : Instr} {multiline : Bool} {before : Option UInt8}
    (hi : e.program.code[c.ip]? = some i)
    (hx : ∀ r, exec r e i = takeAny e multiline before) :
    let wanted := fun i => before.all fun b => e.subject.bytes[i]? == some b
    let after := afterAny wanted (c.ip + 1) c.frames (anyPlaces e.subject multiline c.pos)
    Moves e (.going c) (.going { c with ip := c.ip + 1, frames := after.1, pos := after.2 }) := by
  refine Does.moves (x := takeAny e multiline before) ?_ hi hx
  intro s hs
  subst hs
  simp only [takeAny, bind_get]
  exact passAny_quiet hq _ _ _ _ _

/-! ## The end of the match -/

/-- Start that is reported if the match ends here. -/
def Core.matchStart (c : Core) : Nat := min (c.regs.keep.getD c.start) c.pos

/-- Region that is reported if the match ends here. -/
def Core.region (c : Core) (e : Setting) : Region :=
  .ofCaptures c.regs.captures ⟨c.matchStart, c.pos⟩ (e.program.has .captureHistory)

/-- Whether a match must not end here, since it would be empty. -/
def Core.isRefused (c : Core) (e : Setting) : Bool :=
  e.options.has .findNotEmpty && c.matchStart == c.pos

/-- The longer one of the longest match so far and the match that ends here. -/
def Core.longest (c : Core) (e : Setting) : Option (Nat × Region) :=
  if c.best.all (·.1 < c.pos - c.start) then some (c.pos - c.start, c.region e) else c.best

/-- What is accepted is a matter of the core. -/
theorem accept_eq (e : Setting) {s t : State} (h : t.core = s.core) :
    (e.options.has .findNotEmpty && t.matchStart == t.pos) = s.core.isRefused e ∧
      t.best = s.core.best ∧ t.region e = s.core.region e ∧ t.pos = s.core.pos ∧
      t.start = s.core.start :=
  ⟨congrArg (·.isRefused e) h, congrArg Core.best h, congrArg (·.region e) h, congrArg Core.pos h,
    congrArg Core.start h⟩

/-- A match is accepted where no other is looked for. -/
theorem ends_accept (hi : e.program.code[c.ip]? = some .accept) (hpass : c.isRefused e = false)
    (hlongest : e.options.has .findLongest = false) : Ends e .accepted c (.going c) := by
  intro s hs
  subst hs
  let t := s.fetched e .accept
  have ht : t.core = s.core := core_fetched s e .accept
  have hrefused := (accept_eq e ht).1.trans hpass
  refine ⟨1, t.emit e (.accept t.matchStart t.pos), (core_emit _ _ _).trans ht, fun n hn => ?_⟩
  obtain ⟨k, rfl⟩ : ∃ k, n = k + 1 := ⟨n - 1, by omega⟩
  rw [run_succ, step_fetched _ _ _ _ hi]
  change finish k e (accept e t) = _
  simp only [accept, bind_get, hrefused, hlongest, Bool.false_eq_true, ↓reduceIte, emit,
    bind_modify]
  rfl

/-- An empty match is passed over where none is wanted. -/
theorem moves_accept_refused (hi : e.program.code[c.ip]? = some .accept)
    (hrefused : c.isRefused e = true) : Moves e (.going c) (.failing c) := by
  refine Does.moves (x := accept e) ?_ hi (fun _ => rfl)
  intro s hs
  subst hs
  have hrefused := (accept_eq e (s := s) rfl).1.trans hrefused
  refine ⟨s, rfl, ?_⟩
  simp only [accept, bind_get, hrefused, ↓reduceIte]

/-- A match is remembered where the longest is wanted, and others are looked for. -/
theorem moves_accept_longest (hi : e.program.code[c.ip]? = some .accept)
    (hpass : c.isRefused e = false) (hlongest : e.options.has .findLongest = true)
    (hstart : c.start ≤ c.pos) :
    Moves e (.going c) (.failing { c with best := c.longest e }) := by
  refine Does.moves (x := accept e) ?_ hi (fun _ => rfl)
  intro s hs
  subst hs
  have hrefused := (accept_eq e (s := s) rfl).1.trans hpass
  have hnot : ¬ s.pos < s.start := Nat.not_lt.mpr hstart
  simp only [accept, bind_get, hrefused, hlongest, hnot, Bool.false_eq_true, ↓reduceIte]
  by_cases hlonger : s.best.all (·.1 < s.pos - s.start) = true
  · let t := s.emit e (.accept s.matchStart s.pos)
    have ht : t.core = s.core := core_emit _ _ _
    obtain ⟨-, -, hregion, -, -⟩ := accept_eq e ht
    refine ⟨{ t with best := some (s.pos - s.start, t.region e) }, ?_, ?_⟩
    · change { t.core with best := some (s.pos - s.start, t.region e) } = _
      have hlongest : s.core.longest e = some (s.pos - s.start, s.core.region e) := if_pos hlonger
      rw [ht, hregion, hlongest]
    · simp only [hlonger, ↓reduceIte, emit, bind_modify]
      rfl
  · refine ⟨s, ?_, ?_⟩
    · have hlongest : s.core.longest e = s.core.best := if_neg hlonger
      rw [hlongest]
    · simp only [hlonger, Bool.false_eq_true, ↓reduceIte]

end RegexMachine.Machine
