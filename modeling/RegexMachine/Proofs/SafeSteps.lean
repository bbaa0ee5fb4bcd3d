import RegexMachine.Proofs.Extents
import RegexMachine.Proofs.Instructions
import RegexMachine.Proofs.Leavings

/-!
What each instruction needs, and what must be safe after it. These are the rules for instructions in
`Instructions`, seen under any limits: there what an instruction does is told of a core, here it is
enough to know the view it leaves.
-/
namespace RegexMachine.Machine

variable {Goal : Setting → View → Prop} {n : Nat} {e : Setting} {c : View} {Q : View → Prop}

/-! ## Texts, conditions and jumps -/

theorem going_consume {i : Instr} {width : Nat → Option Nat} (hi : e.program.code[c.ip]? = some i)
    (ho : i.isOrdinary = true) (hx : ∀ r, exec r e i = fun s => consume e (width s.pos) s)
    (hsome : ∀ k, width c.pos = some k → ∀ m < n,
      Going Goal m e { c with ip := c.ip + 1, pos := c.pos + k })
    (hnone : Failing Goal n e c) : Going Goal n e c := by
  refine .of_exec hi ho hx fun m hm s hs => ?_
  subst hs
  cases hw : width s.pos with
  | none =>
    refine Guarantees.of_eq (y := backtrack e) (u := s) ?_ (hnone.mono (Nat.le_of_lt hm) s rfl)
    simp only [hw, consume]
  | some k =>
    refine Guarantees.of_eq (y := consume e (some k)) (u := s) (by simp only [hw]) ?_
    exact .of_ok rfl (hsome k hw m hm)

theorem brings_check {ok : Bool} (hok : ok = true → Q { c with ip := c.ip + 1 })
    (hfail : Brings (backtrack e) c Q) : Brings (check e ok) c Q := by
  unfold check
  split
  · exact brings_next (hok ‹_›)
  · exact hfail

theorem going_anchor {a : Anchor} (hi : e.program.code[c.ip]? = some (.anchor a))
    (hok : e.subject.holds e.origin c.pos a = true → ∀ m < n,
      Going Goal m e { c with ip := c.ip + 1 })
    (hfail : Failing Goal n e c) : Going Goal n e c := by
  refine .of_exec (x := fun s => check e (e.subject.holds e.origin s.pos a) s) hi rfl
    (fun _ => rfl) fun m hm s hs => ?_
  subst hs
  exact brings_check (c := s.view) (hok · m hm) (hfail.mono (Nat.le_of_lt hm)) s rfl

theorem going_jump {a : Addr} (hi : e.program.code[c.ip]? = some (.jump a))
    (h : ∀ m < n, Going Goal m e { c with ip := a }) : Going Goal n e c :=
  .of_exec (x := goTo a) hi rfl (fun _ => rfl) fun m hm => brings_goTo (h m hm)

theorem going_fail (hi : e.program.code[c.ip]? = some .fail) (h : Failing Goal n e c) :
    Going Goal n e c :=
  .of_exec (x := backtrack e) hi rfl (fun _ => rfl) fun _ hm => h.mono (Nat.le_of_lt hm)

theorem going_fork {a : Addr} (hi : e.program.code[c.ip]? = some (.fork a))
    (h : ∀ m < n, Going Goal m e
      { c with ip := c.ip + 1, frames := .alternative a c.pos :: c.frames }) : Going Goal n e c :=
  .of_exec (x := fork e a >>= fun _ => next) hi rfl (fun _ => rfl) fun m hm =>
    .andThen (brings_fork (brings_next (h m hm)))

/-! ## Groups -/

theorem brings_saveSlot {g : Nat} {slot : Slot} (hs : c.regs.captures.slot? g = some slot)
    (h : Q { c with frames := .capture g slot c.regs.captures.history :: c.frames }) :
    Brings (saveSlot e g) c Q := by
  intro s hc
  subst hc
  refine Guarantees.bind (x := slotOf g) (.of_ok (slotOf_ok hs) ?_)
  exact Guarantees.bind (x := get) (.of_ok rfl (brings_push (c := s.view) h s rfl))

/-- A record of a group is left where one is wanted. -/
theorem brings_saveIf {undo : Bool} {g : Nat} {slot : Slot} {k : Run Unit}
    (hs : c.regs.captures.slot? g = some slot)
    (h : Brings k { c with frames := savedSlot undo g slot c.regs.captures.history c.frames } Q) :
    Brings (if undo = true then saveSlot e g >>= fun _ => k else k) c Q := by
  cases undo with
  | false => exact h
  | true => exact .andThen (brings_saveSlot hs h)

theorem going_groupStart {g : Nat} {undo : Bool} {slot : Slot}
    (hi : e.program.code[c.ip]? = some (.groupStart g undo))
    (hs : c.regs.captures.slot? g = some slot)
    (h : ∀ m < n, Going Goal m e { c with
      ip := c.ip + 1
      frames := savedSlot undo g slot c.regs.captures.history c.frames
      regs := { c.regs with
        captures := c.regs.captures.setSlot g { slot with start := some c.pos } } }) :
    Going Goal n e c := by
  refine .of_exec (x := openGroup e g undo) hi rfl (fun _ => rfl) fun m hm => ?_
  refine brings_saveIf hs fun s hc => ?_
  have hslot : s.regs.captures.slot? g = some slot := by
    rw [show s.regs = c.regs from congrArg View.regs hc]
    exact hs
  refine Guarantees.bind (x := slotOf g) (.of_ok (slotOf_ok hslot) ?_)
  refine Guarantees.bind (x := get) (.of_ok rfl ?_)
  refine Brings.andThen (c := s.view) (brings_modifyRegs (brings_next ?_)) s rfl
  rw [hc, show s.pos = c.pos from congrArg View.pos hc]
  exact h m hm

theorem going_groupEnd {i : Instr} {g start : Nat} {undo : Bool} {slot : Slot}
    (hi : e.program.code[c.ip]? = some i) (hended : i.ended? = some g)
    (hx : ∀ r, exec r e i = closeGroup e g undo)
    (hs : c.regs.captures.slot? g = some slot) (hstart : slot.start = some start)
    (hle : start ≤ c.pos)
    (h : ∀ m < n, Going Goal m e { c with
      ip := c.ip + 1
      frames := savedSlot undo g slot c.regs.captures.history c.frames
      regs := { c.regs with
        captures := c.regs.captures.closed g ⟨start, c.pos⟩
          (undo && e.program.has .captureHistory) } }) :
    Going Goal n e c := by
  have hfair : Fair Goal e c := by
    refine ⟨fun ha => ?_, fun hd => ?_, fun j k start' hj hk hstart' => ?_⟩
    · cases hi.symm.trans ha
      cases hended
    · cases hi.symm.trans hd
      cases hended
    · cases hi.symm.trans hj
      cases hended.symm.trans hk
      rw [Captures.start?, hs, Option.bind_some, hstart] at hstart'
      exact Option.some.inj hstart' ▸ hle
  refine .of_fair hi hfair (fun b hb => ?_) hx fun m hm => ?_
  · rw [hb] at hended
    cases hended
  refine brings_saveIf hs fun s hc => ?_
  have hslot : s.regs.captures.slot? g = some slot := by
    rw [show s.regs = c.regs from congrArg View.regs hc]
    exact hs
  refine Guarantees.bind (x := slotOf g) (.of_ok (slotOf_ok hslot) ?_)
  refine Guarantees.bind (x := get) (.of_ok rfl ?_)
  simp only [hstart]
  refine Brings.andThen (c := s.view) (brings_modifyRegs ?_) s rfl
  have hgoal := h m hm
  have hpos : s.pos = c.pos := congrArg View.pos hc
  cases hlog : undo && e.program.has .captureHistory with
  | false =>
    simp only [hlog, Captures.closed, Bool.false_eq_true, ↓reduceIte] at hgoal ⊢
    refine brings_next ?_
    rw [hc, hpos]
    exact hgoal
  | true =>
    simp only [hlog, Captures.closed, ↓reduceIte] at hgoal ⊢
    refine Brings.andThen (brings_modifyRegs (brings_next ?_))
    rw [hc, hpos]
    exact hgoal

theorem going_keep (hi : e.program.code[c.ip]? = some .keep)
    (h : ∀ m < n, Going Goal m e { c with
      ip := c.ip + 1
      frames := .keep c.regs.keep :: c.frames
      regs := { c.regs with keep := some c.pos } }) : Going Goal n e c := by
  refine .of_exec (x := keepOut e) hi rfl (fun _ => rfl) fun m hm s hs => ?_
  subst hs
  refine Guarantees.bind (x := get) (.of_ok rfl ?_)
  exact Brings.andThen (c := s.view)
    (brings_push (Brings.andThen (brings_modifyRegs (brings_next (h m hm))))) s rfl

theorem onward_of_copy {groups : List Nat} {fold : Bool} {captures : Captures} {k : Nat}
    (h : copyLength? e.subject captures c.pos fold groups = some k) :
    Extent.onward e.subject.size c.pos (c.pos + k) := by
  obtain ⟨g, -, h⟩ := List.exists_of_findSome?_eq_some h
  obtain ⟨span, -, h⟩ := Option.bind_eq_some_iff.mp h
  exact Subject.copyLength?_onward h

/-- A copy of some text, or of the empty one; the position does not go back. -/
theorem going_backref {groups : List Nat} {fold : Bool}
    (hi : e.program.code[c.ip]? = some (.backref groups fold))
    (h : ∀ m < n, ∀ k, Extent.onward e.subject.size c.pos (c.pos + k) →
      Going Goal m e { c with ip := c.ip + 1, pos := c.pos + k })
    (hfail : Failing Goal n e c) : Going Goal n e c := by
  refine .of_exec (x := matchCopy e groups fold) hi rfl (fun _ => rfl) fun m hm s hs => ?_
  subst hs
  refine Guarantees.bind (x := get) (.of_ok rfl ?_)
  split
  · rename_i k hk
    have honward : Extent.onward e.subject.size s.view.pos (s.view.pos + k) := onward_of_copy hk
    exact .of_ok rfl (h m hm k honward)
  · split
    · exact .of_ok rfl (h m hm 0 (Extent.onward_refl _ _))
    · exact hfail.mono (Nat.le_of_lt hm) s rfl

theorem going_ifSet {groups : List Nat} {a : Addr}
    (hi : e.program.code[c.ip]? = some (.ifSet groups a))
    (hyes : ∀ m < n, Going Goal m e { c with ip := c.ip + 1 })
    (hno : ∀ m < n, Going Goal m e { c with ip := a }) : Going Goal n e c := by
  refine .of_exec (x := branchIfSet groups a) hi rfl (fun _ => rfl) fun m hm s hs => ?_
  subst hs
  refine Guarantees.bind (x := get) (.of_ok rfl ?_)
  split
  · exact brings_next (hyes m hm) s rfl
  · exact brings_goTo (hno m hm) s rfl

/-! ## Counted loops -/

/-- A view with the count of a loop changed, and a record of what it was. -/
def View.counting (c : View) (id before rounds : Nat) : View :=
  { c with
    frames := .count id before :: c.frames
    regs := { c.regs with counts := c.regs.counts.setIfInBounds id rounds } }

/-- Views in which a loop goes on: with a round or with the way out, and the other one may be left as
an alternative. -/
structure Rounds (l : CountedLoop) (round out : Bool) (c d : View) : Prop where
  pos : d.pos = c.pos
  start : d.start = c.start
  regs : d.regs = c.regs
  case : (round = true ∧ d.ip = l.body ∧ d.frames = c.frames) ∨
    (out = true ∧ d.ip = l.exit ∧ d.frames = c.frames) ∨
    (round = true ∧ out = true ∧
      ((d.ip = l.body ∧ d.frames = .alternative l.exit c.pos :: c.frames) ∨
        (d.ip = l.exit ∧ d.frames = .alternative l.body c.pos :: c.frames)))

theorem brings_chooseRound {l : CountedLoop} (h : ∀ d, Rounds l true true c d → Q d) :
    Brings (chooseRound e l) c Q := by
  unfold chooseRound
  split
  · exact .andThen (brings_fork (brings_goTo (h _ ⟨rfl, rfl, rfl,
      Or.inr (Or.inr ⟨rfl, rfl, Or.inl ⟨rfl, rfl⟩⟩)⟩)))
  · exact .andThen (brings_fork (brings_goTo (h _ ⟨rfl, rfl, rfl,
      Or.inr (Or.inr ⟨rfl, rfl, Or.inr ⟨rfl, rfl⟩⟩)⟩)))

/-- Rounds of a counted loop are begun from 0, and none is needed where the least number is 0. -/
theorem going_repeatEnter {id k : Nat} {l : CountedLoop}
    (hi : e.program.code[c.ip]? = some (.repeatEnter id))
    (hl : e.program.tables.loops[id]? = some l) (hk : c.regs.counts[id]? = some k)
    (h : ∀ m < n, ∀ d, Rounds l true (decide (l.min = 0)) (c.counting id k 0) d →
      Going Goal m e d) :
    Going Goal n e c := by
  refine .of_exec (x := enterLoop e id) hi rfl (fun _ => rfl) fun m hm s hs => ?_
  subst hs
  refine Guarantees.bind (x := loopState e id) (.of_ok (loopState_ok hl hk) ?_)
  refine Brings.andThen (c := s.view) (brings_push (.andThen (brings_modifyRegs ?_))) s rfl
  have hd := h m hm
  by_cases hmin : l.min = 0
  · simp only [hmin, beq_self_eq_true, ↓reduceIte, decide_true] at hd ⊢
    exact brings_chooseRound hd
  · have hne : (l.min == 0) = false := by simpa using hmin
    simp only [hne, Bool.false_eq_true, ↓reduceIte]
    exact brings_goTo (hd _ ⟨rfl, rfl, rfl, Or.inl ⟨rfl, rfl, rfl⟩⟩)

/-- A loop may go on after a round while it has not had the greatest number of them, and may be left
once it has had the least number or the greatest. -/
theorem going_repeatNext {id k : Nat} {l : CountedLoop}
    (hi : e.program.code[c.ip]? = some (.repeatNext id))
    (hl : e.program.tables.loops[id]? = some l) (hk : c.regs.counts[id]? = some k)
    (h : ∀ m < n, ∀ d,
      Rounds l true (decide (l.min ≤ k + 1) || l.max.any (· ≤ k + 1))
        (c.counting id k (k + 1)) d → Going Goal m e d) :
    Going Goal n e c := by
  refine .of_exec (x := endRound e id) hi rfl (fun _ => rfl) fun m hm s hs => ?_
  subst hs
  refine Guarantees.bind (x := loopState e id) (.of_ok (loopState_ok hl hk) ?_)
  refine Brings.andThen (c := s.view) (brings_push (.andThen (brings_modifyRegs ?_))) s rfl
  have hd := h m hm
  split
  · rename_i hmax
    refine brings_goTo (hd _ ⟨rfl, rfl, rfl, Or.inr (Or.inl ⟨?_, rfl, rfl⟩)⟩)
    rw [hmax, Bool.or_true]
  · split
    · exact brings_goTo (hd _ ⟨rfl, rfl, rfl, Or.inl ⟨rfl, rfl, rfl⟩⟩)
    · rename_i hmin
      have : decide (l.min ≤ k + 1) = true := by simpa using hmin
      rw [this, Bool.true_or] at hd
      exact brings_chooseRound hd

/-! ## Rounds and regions -/

theorem going_roundStart {id : Nat} (hi : e.program.code[c.ip]? = some (.roundStart id))
    (h : ∀ m < n, Going Goal m e
      { c with ip := c.ip + 1, frames := .round id c.pos :: c.frames }) : Going Goal n e c := by
  refine .of_exec (x := fun s => (push e (.round id s.pos) >>= fun _ => next) s) hi rfl
    (fun _ => rfl) fun m hm s hs => ?_
  subst hs
  exact Brings.andThen (c := s.view) (brings_push (brings_next (h m hm))) s rfl

theorem going_lookStart {mark : Nat} (hi : e.program.code[c.ip]? = some (.lookStart mark))
    (h : ∀ m < n, Going Goal m e
      { c with ip := c.ip + 1, frames := .look mark c.pos :: c.frames }) : Going Goal n e c := by
  refine .of_exec (x := fun s => (push e (.look mark s.pos) >>= fun _ => next) s) hi rfl
    (fun _ => rfl) fun m hm s hs => ?_
  subst hs
  exact Brings.andThen (c := s.view) (brings_push (brings_next (h m hm))) s rfl

theorem going_atomicStart {mark : Nat} (hi : e.program.code[c.ip]? = some (.atomicStart mark))
    (h : ∀ m < n, Going Goal m e { c with ip := c.ip + 1, frames := .atomic mark :: c.frames }) :
    Going Goal n e c := by
  refine .of_exec (x := fun s => (push e (.atomic mark) >>= fun _ => next) s) hi rfl
    (fun _ => rfl) fun m hm s hs => ?_
  subst hs
  exact Brings.andThen (c := s.view) (brings_push (brings_next (h m hm))) s rfl

/-- A round goes on to the next instruction, or past it if it has consumed nothing. -/
theorem going_roundEnd {id pos lo : Nat} {captures : Bool} {F K : List Frame}
    (hi : e.program.code[c.ip]? = some (.roundEnd id captures))
    (hf : c.frames = F ++ .round id pos :: K) (hF : Tidy lo F) (hlt : id < lo)
    (hnext : ∀ m < n, Going Goal m e { c with ip := c.ip + 1 })
    (hskip : pos = c.pos → ∀ m < n, Going Goal m e { c with ip := c.ip + 2 }) :
    Going Goal n e c := by
  refine .of_exec (x := checkRound id captures) hi rfl (fun _ => rfl) fun m hm s hs => ?_
  subst hs
  obtain ⟨v, hv, -, hframe, -⟩ := s.stack.view?_of_tidy (FrameStack.isRound id) hF
    (FrameStack.isRound_of_plain hlt) hf rfl (by simp [FrameStack.isRound])
  refine Guarantees.bind (x := get) (.of_ok rfl ?_)
  rw [hv]
  refine Guarantees.bind (x := require _ _) (.of_ok require_some ?_)
  dsimp only
  split
  · rename_i hempty
    have hpos : pos = s.pos := by
      rw [hframe] at hempty
      exact eq_of_beq (Bool.and_eq_true_iff.mp hempty).1
    exact brings_goTo (c := s.view) (hskip hpos m hm) s rfl
  · exact brings_goTo (c := s.view) (hnext m hm) s rfl

theorem going_lookEnd {mark pos lo : Nat} {F K : List Frame}
    (hi : e.program.code[c.ip]? = some (.lookEnd mark))
    (hf : c.frames = F ++ .look mark pos :: K) (hF : Tidy lo F)
    (h : ∀ m < n, Going Goal m e { c with ip := c.ip + 1, pos := pos, frames := sealed F K }) :
    Going Goal n e c := by
  refine .of_exec (x := endLook e mark) hi rfl (fun _ => rfl) fun m hm s hs => ?_
  subst hs
  obtain ⟨v, hv, habove, hframe, hbelow⟩ := s.stack.view?_of_tidy (FrameStack.isLook mark) hF
    (FrameStack.isLook_of_plain mark lo) hf rfl (by simp [FrameStack.isLook])
  refine Guarantees.bind (x := get) (.of_ok rfl ?_)
  simp only [openLook, hv]
  refine Guarantees.bind (x := require _ _) (.of_ok require_some ?_)
  refine Brings.andThen (c := s.view) (brings_modify fun t ht => ?_) s rfl
  refine Brings.andThen (brings_emit (brings_next ?_))
  have hstart : t.start = s.start := congrArg View.start ht
  have hip : t.ip = s.ip := congrArg View.ip ht
  have hregs : t.regs = s.regs := congrArg View.regs ht
  simp only [State.view, FrameStack.commit_frames, habove, hframe, hbelow, List.reverse_reverse,
    hstart, hip, hregs]
  exact h m hm

theorem going_atomicEnd {mark lo : Nat} {F K : List Frame}
    (hi : e.program.code[c.ip]? = some (.atomicEnd mark))
    (hf : c.frames = F ++ .atomic mark :: K) (hF : Tidy lo F)
    (h : ∀ m < n, Going Goal m e { c with ip := c.ip + 1, frames := sealed F K }) :
    Going Goal n e c := by
  refine .of_exec (x := endAtomic e mark) hi rfl (fun _ => rfl) fun m hm s hs => ?_
  subst hs
  obtain ⟨v, hv, habove, -, hbelow⟩ := s.stack.view?_of_tidy (FrameStack.isAtomic mark) hF
    (FrameStack.isAtomic_of_plain mark lo) hf rfl (by simp [FrameStack.isAtomic])
  refine Guarantees.bind (x := get) (.of_ok rfl ?_)
  rw [hv]
  refine Guarantees.bind (x := require _ _) (.of_ok require_some ?_)
  refine Brings.andThen (c := s.view) (brings_modify fun t ht => ?_) s rfl
  refine Brings.andThen (brings_emit (brings_next ?_))
  have hpos : t.pos = s.pos := congrArg View.pos ht
  have hstart : t.start = s.start := congrArg View.start ht
  have hip : t.ip = s.ip := congrArg View.ip ht
  have hregs : t.regs = s.regs := congrArg View.regs ht
  simp only [State.view, FrameStack.commit_frames, habove, hbelow, List.reverse_reverse,
    hpos, hstart, hip, hregs]
  exact h m hm

/-- Everything since the look around began is undone. -/
theorem going_unwind {mark pos lo : Nat} {F K : List Frame}
    (hi : e.program.code[c.ip]? = some (.unwind mark))
    (hf : c.frames = F ++ .look mark pos :: K) (hF : Tidy lo F)
    (h : ∀ m < n, Going Goal m e
      { c with ip := c.ip + 1, frames := K, regs := c.regs.undoAll e.program F }) :
    Going Goal n e c := by
  refine .of_exec (x := unwind e mark) hi rfl (fun _ => rfl) fun m hm s hs => ?_
  subst hs
  have hframes : s.stack.frames = F ++ .look mark pos :: K := hf
  refine Guarantees.of_eq (unwind_eq mark s) (Guarantees.bind ?_)
  rw [hframes]
  have hlist : unwindList e mark 0 (F ++ .look mark pos :: K) { s with stack := .empty } =
      .ok () { s with stack := ⟨K, K.length, rfl⟩, regs := s.regs.undoAll e.program F } := by
    rw [unwindList_tidy mark hF]
    simp [unwindList, unwindFrom, FrameStack.isLook]
    rfl
  refine .of_ok hlist ?_
  exact brings_next (c := (⟨s.ip, s.pos, s.start, K, s.regs.undoAll e.program F⟩ : View))
    (h m hm) _ rfl

theorem going_checkPos {mark pos lo : Nat} {F K : List Frame}
    (hi : e.program.code[c.ip]? = some (.checkPos mark))
    (hf : c.frames = F ++ .look mark pos :: K) (hF : Tidy lo F)
    (hok : c.pos = pos → ∀ m < n, Going Goal m e { c with ip := c.ip + 1 })
    (hfail : Failing Goal n e c) : Going Goal n e c := by
  refine .of_exec (x := checkPos e mark) hi rfl (fun _ => rfl) fun m hm s hs => ?_
  subst hs
  obtain ⟨v, hv, -, hframe, -⟩ := s.stack.view?_of_tidy (FrameStack.isLook mark) hF
    (FrameStack.isLook_of_plain mark lo) hf rfl (by simp [FrameStack.isLook])
  refine Guarantees.bind (x := get) (.of_ok rfl ?_)
  simp only [openLook, hv]
  refine Guarantees.bind (x := require _ _) (.of_ok require_some ?_)
  rw [hframe]
  exact brings_check (c := s.view) (fun h => hok (eq_of_beq h) m hm)
    (hfail.mono (Nat.le_of_lt hm)) s rfl

/-- A step back goes on from some place further back, and may be left as a choice there. -/
theorem going_stepBack {min : Nat} {max : Option Nat}
    (hi : e.program.code[c.ip]? = some (.stepBack min max))
    (hnone : Failing Goal n e c)
    (hsome : ∀ m < n, ∀ p L,
      (L = c.frames ∨ ∃ more, L = .stepBack (c.ip + 1) p more :: c.frames) →
      Going Goal m e { c with ip := c.ip + 1, pos := p, frames := L }) : Going Goal n e c := by
  refine .of_exec (x := stepBack e min max) hi rfl (fun _ => rfl) fun m hm s hs => ?_
  subst hs
  refine Guarantees.bind (x := get) (.of_ok rfl ?_)
  cases hp : back? e.subject s.pos min with
  | none => exact hnone.mono (Nat.le_of_lt hm) s rfl
  | some p =>
    dsimp only
    split
    · exact Brings.andThen (c := s.view) (brings_push (brings_modify fun t ht => by
        have hgo := hsome m hm p _ (Or.inr ⟨max.map (· - min), rfl⟩)
        rw [show State.view { t with ip := t.ip + 1, pos := p } =
          { t.view with ip := t.view.ip + 1, pos := p } from rfl, ht]
        exact hgo)) s rfl
    · exact .of_ok rfl (hsome m hm p _ (Or.inl rfl))

/-! ## Calls -/

theorem callState_ok {sub : Nat} {r : Subroutine} {s : State}
    (hr : e.program.tables.subroutines[sub]? = some r) (hfits : r.Fits e.program.tables)
    (hs : s.regs.Fits e.program) : callState e sub s = .ok (s.regs.saved r) s := by
  have hstarts : s.regs.captures.starts? r.captures =
      some (r.captures.toList.map s.regs.captures.start?) :=
    Captures.starts?_some (by rw [hs.slots]; exact hfits.captures)
  have hfirst : ¬ r.loops.stop < r.loops.first := Nat.not_lt.mpr hfits.loops
  have hstop : ¬ s.regs.counts.size < r.loops.stop := by
    rw [hs.counts]
    exact Nat.not_lt.mpr hfits.size
  simp only [callState, hr, bind_get, hstarts, if_neg hfirst, if_neg hstop]
  rfl

theorem going_call {a : Addr} {sub : Nat} {r : Subroutine}
    (hi : e.program.code[c.ip]? = some (.call a sub))
    (hr : e.program.tables.subroutines[sub]? = some r) (hfits : r.Fits e.program.tables)
    (hregs : c.regs.Fits e.program)
    (h : ∀ m < n, Going Goal m e { c with
      ip := a
      frames := .call (c.ip + 1) sub (c.regs.saved r) :: c.frames
      regs := { c.regs with depth := c.regs.depth + 1 } }) : Going Goal n e c := by
  refine .of_exec (x := enterCall e a sub) hi rfl (fun _ => rfl) fun m hm s hs => ?_
  subst hs
  refine Guarantees.bind (x := get) (.of_ok rfl ?_)
  dsimp only
  split
  · exact .of_error rfl (by simp)
  · refine Guarantees.bind (x := callState e sub) (.of_ok (callState_ok hr hfits hregs) ?_)
    exact Brings.andThen (c := s.view) (brings_push (.andThen (brings_modifyRegs
      (.andThen (brings_emit (brings_goTo (h m hm))))))) s rfl

/-- The call that code runs under stands below the frames it has left. -/
theorem currentCall?_of_tidy {s : FrameStack} {lo : Nat} {F K : List Frame} {back : Addr}
    {sub : Nat} {saved : CallState} (hF : Tidy lo F)
    (hs : s.frames = F ++ .call back sub saved :: K) :
    s.currentCall? = some (back, sub, saved) := by
  have pass : ∀ (lo : Nat) (G : List Frame), Tidy lo G → ∀ level K,
      FrameStack.callFrom level (G ++ K) = FrameStack.callFrom level K := by
    intro lo G hG
    induction hG with
    | nil => exact fun _ _ => rfl
    | @frame lo f F hf _ ih =>
      intro level K
      rw [List.cons_append, ← ih level K]
      cases f with
      | call _ _ _ => cases hf
      | returned _ _ => cases hf
      | _ => rfl
    | call sub undo back sub' saved _ _ ihG ihF =>
      intro level K
      simp only [List.cons_append, List.append_assoc, FrameStack.callFrom, ihG,
        Nat.add_eq_zero_iff, Nat.one_ne_zero, and_false, ↓reduceIte, Nat.add_sub_cancel, ihF]
  rw [FrameStack.currentCall?, hs, pass lo F hF]
  rfl

theorem going_ret {lo : Nat} {F K : List Frame} {back : Addr} {sub : Nat} {saved : CallState}
    {r : Subroutine} (hi : e.program.code[c.ip]? = some .ret)
    (hf : c.frames = F ++ .call back sub saved :: K) (hF : Tidy lo F)
    (hr : e.program.tables.subroutines[sub]? = some r) (hfits : r.Fits e.program.tables)
    (hregs : c.regs.Fits e.program)
    (hdepth : (c.regs.setCallState e.program sub saved).depth ≠ 0)
    (h : ∀ m < n, Going Goal m e { c with
      ip := back
      frames := .returned sub (c.regs.saved r) :: c.frames
      regs := { c.regs.setCallState e.program sub saved with
        depth := (c.regs.setCallState e.program sub saved).depth - 1 } }) : Going Goal n e c := by
  refine .of_exec (x := leaveCall e) hi rfl (fun _ => rfl) fun m hm s hs => ?_
  subst hs
  have hcall : s.stack.currentCall? = some (back, sub, saved) := currentCall?_of_tidy hF hf
  refine Guarantees.bind (x := get) (.of_ok rfl ?_)
  rw [hcall]
  refine Guarantees.bind (x := require _ _) (.of_ok require_some ?_)
  refine Guarantees.bind (x := callState e sub) (.of_ok (callState_ok hr hfits hregs) ?_)
  refine Brings.andThen (c := s.view) (brings_modifyRegs (.andThen (brings_push ?_))) s rfl
  intro t ht
  refine Guarantees.bind (x := get) (.of_ok rfl ?_)
  have ht' : t.regs = s.regs.setCallState e.program sub saved := congrArg View.regs ht
  have hne : (t.regs.depth == 0) = false := by
    rw [ht']
    exact beq_eq_false_iff_ne.mpr hdepth
  simp only [hne, Bool.false_eq_true, ↓reduceIte]
  exact Brings.andThen (brings_modifyRegs (.andThen (brings_emit (brings_goTo (h m hm))))) t ht

/-! ## Guards and runs of any characters -/

/-- A guard lets the machine pass, with or without a record, or makes it fail. -/
theorem going_guard {site : Nat} {within : Option Nat}
    (hi : e.program.code[c.ip]? = some (.guard site within))
    (hw : ∀ check, within = some check → ∃ pos, Sees c.frames check pos)
    (hpass : ∀ m < n, ∀ L, (L = c.frames ∨ L = .guard site c.pos :: c.frames) →
      Going Goal m e { c with ip := c.ip + 1, frames := L })
    (hfail : Failing Goal n e c) : Going Goal n e c := by
  refine .of_exec (x := passGuard e site within) hi rfl (fun _ => rfl) fun m hm s hs => ?_
  subst hs
  have hnext : Guarantees next (fun _ t => Going Goal m e t.view) s :=
    brings_next (c := s.view) (hpass m hm _ (Or.inl rfl)) s rfl
  have htest : ∀ memo : Memo,
      Guarantees (if memo.hasFailed site s.pos then backtrack e else do
        push e (.guard site s.pos)
        next) (fun _ t => Going Goal m e t.view) s := by
    intro memo
    split
    · exact hfail.mono (Nat.le_of_lt hm) s rfl
    · exact Brings.andThen (c := s.view)
        (brings_push (brings_next (hpass m hm _ (Or.inr rfl)))) s rfl
  refine Guarantees.bind (x := get) (.of_ok rfl ?_)
  cases hmemo : s.memo with
  | none => exact hnext
  | some memo =>
    cases within with
    | none => exact htest memo
    | some check =>
      obtain ⟨pos, F, K, lo, hframes, hF, hlt⟩ := hw check rfl
      obtain ⟨v, hv, -, hframe, -⟩ := s.stack.view?_of_tidy (FrameStack.isRound check) hF
        (FrameStack.isRound_of_plain hlt) hframes rfl (by simp [FrameStack.isRound])
      refine Guarantees.bind (x := require _ _) (.of_ok (hv ▸ require_some) ?_)
      refine Guarantees.bind (x := pure _) (.of_ok rfl ?_)
      dsimp only
      split
      · exact hnext
      · exact htest memo

/-- Places that some number of characters lead to from a place. -/
def anyFrom (t : Subject) (multiline : Bool) (pos q : Nat) : Prop :=
  ∃ k, (Extent.text (t.anyLength? · multiline)).times k pos q

/-- Alternatives are left at places that characters lead to, and the machine goes on from one. -/
theorem brings_passAny {ip : Addr} {multiline : Bool} {wanted : Nat → Bool} {pos : Nat} {c : View}
    (h : ∀ q (ps : List Nat), anyFrom e.subject multiline pos q →
      (∀ p ∈ ps, anyFrom e.subject multiline pos p) →
      Q { c with ip := ip, pos := q, frames := ps.map (.alternative ip) ++ c.frames }) :
    Brings (passAny e ip multiline wanted pos) c Q := by
  have hhere : anyFrom e.subject multiline pos pos := ⟨0, rfl⟩
  cases hk : e.subject.anyLength? pos multiline with
  | none =>
    rw [passAny_none hk]
    refine brings_modify fun s hs => ?_
    subst hs
    exact h pos [] hhere (by simp)
  | some k =>
    have := Subject.anyLength?_pos hk
    have hfrom : ∀ q, anyFrom e.subject multiline (pos + k) q →
        anyFrom e.subject multiline pos q := by
      rintro q ⟨j, hj⟩
      exact ⟨j + 1, pos + k, ⟨k, hk, rfl⟩, hj⟩
    rw [passAny_some hk]
    split
    · refine .andThen (brings_push ?_)
      refine brings_passAny fun q ps hq hps => ?_
      have := h q (ps ++ [pos]) (hfrom q hq) fun p hp => by
        rcases List.mem_append.mp hp with hp | hp
        · exact hfrom p (hps p hp)
        · rw [List.mem_singleton.mp hp]
          exact hhere
      simpa using this
    · exact brings_passAny fun q ps hq hps => h q ps (hfrom q hq) fun p hp => hfrom p (hps p hp)
termination_by e.subject.size - pos

theorem going_takeAny {i : Instr} {multiline : Bool} {before : Option UInt8}
    (hi : e.program.code[c.ip]? = some i) (ho : i.isOrdinary = true)
    (hx : ∀ r, exec r e i = takeAny e multiline before)
    (h : ∀ m < n, ∀ q (ps : List Nat), anyFrom e.subject multiline c.pos q →
      (∀ p ∈ ps, anyFrom e.subject multiline c.pos p) →
      Going Goal m e
        { c with
          ip := c.ip + 1, pos := q
          frames := ps.map (.alternative (c.ip + 1)) ++ c.frames }) : Going Goal n e c := by
  refine .of_exec hi ho hx fun m hm s hs => ?_
  subst hs
  refine Guarantees.bind (x := get) (.of_ok rfl ?_)
  exact brings_passAny (c := s.view) (h m hm) s rfl

/-! ## Absent bodies -/

theorem onward_of_boundary {t : Subject} {start i : Nat} {found : Array Nat}
    (hi : Extent.onward t.size start i) (hfound : ∀ q ∈ found, Extent.onward t.size start q) :
    ∀ q ∈ boundariesFrom t i found, Extent.onward t.size start q := by
  rw [boundariesFrom]
  have hpush : ∀ q ∈ found.push i, Extent.onward t.size start q := fun q hq => by
    rcases Array.mem_push.mp hq with hq | rfl
    · exact hfound q hq
    · exact hi
  split
  · rename_i hlt
    have := Subject.lt_next t i
    have hnext : Extent.onward t.size i (t.next i) := by
      rw [Subject.next, if_neg (by simpa using hlt)]
      exact Extent.onward_of_le (Subject.charLenAt_le (Nat.le_of_lt hlt))
    exact onward_of_boundary (Extent.onward_trans hi hnext) hpush
  · exact hpush
termination_by t.size - i
decreasing_by omega

/-- An error in the search for the end of a text comes from one of its runs. -/
theorem lastFree_error {blocked : Nat → Except Halt Bool} {lo hi : Nat} {h : Halt}
    (he : lastFree blocked lo hi = .error h) : ∃ i, blocked i = .error h := by
  rw [lastFree] at he
  split at he
  · dsimp only at he
    split at he
    · rename_i k hk
      cases he
      exact ⟨_, hk⟩
    · exact lastFree_error he
    · exact lastFree_error he
  · cases he
termination_by hi - lo
decreasing_by all_goals omega

theorem blockedFrom_error {r : Runner} {b : Addr} {stop pos : Nat} {s : State} {h : Halt}
    (he : blockedFrom r e b stop pos s = .error h) :
    h ≠ .accepted ∧ ∃ pos' s', (r e b pos' s').1 = h := by
  rw [blockedFrom] at he
  split at he
  · cases he
  · split at he
    · exact blockedFrom_error he
    · cases he
  · rename_i k t hne _ hrun
    cases he
    exact ⟨hne, pos, s, by rw [hrun]⟩
termination_by stop - pos
decreasing_by
  have := Subject.lt_next e.subject pos
  omega

/-- When the longest text free of matches is not found out, this is since a run has stopped for
something else than a match. -/
theorem absentEnd_error {r : Runner} {b : Addr} {begun start : Nat} {h : Halt}
    (he : absentEnd r e b begun start = .error h) :
    h ≠ .accepted ∧ ∃ stop pos s, (r (e.upTo stop begun) b pos s).1 = h := by
  have hblocked : ∀ stop, blocked r e b begun start stop = .error h →
      h ≠ .accepted ∧ ∃ stop pos s, (r (e.upTo stop begun) b pos s).1 = h := by
    intro stop hb
    obtain ⟨hne, pos, s, hrun⟩ := blockedFrom_error hb
    exact ⟨hne, stop, pos, s, hrun⟩
  simp only [absentEnd, bind, Except.bind, pure, Except.pure] at he
  split at he
  · cases he
    exact hblocked _ ‹_›
  · split at he
    · cases he
    · split at he
      · cases he
        obtain ⟨i, hi⟩ := lastFree_error ‹_›
        exact hblocked _ hi
      · cases he

/-- That text does not end before its start. -/
theorem onward_of_absentEnd {r : Runner} {b : Addr} {begun start stop : Nat}
    (he : absentEnd r e b begun start = .ok (some stop)) :
    Extent.onward e.subject.size start stop := by
  simp only [absentEnd, bind, Except.bind, pure, Except.pure] at he
  split at he
  · cases he
  · split at he
    · cases he
    · split at he
      · cases he
      · rename_i i _
        cases he
        rw [Array.getD_eq_getD_getElem?]
        cases hq : (boundariesFrom e.subject start #[])[i]? with
        | none => exact Extent.onward_refl _ _
        | some q =>
          exact onward_of_boundary (Extent.onward_refl _ start) (by simp) q
            (Array.mem_of_getElem? hq)

/-- The absent operator goes on from a place that is not before the present one, and leaves a choice
of shorter texts. Its body must be safe wherever it is run. -/
theorem going_absent {b : Addr} (hi : e.program.code[c.ip]? = some (.absent b))
    (hbody : ∀ m < n, ∀ (e' : Setting) pos (s : State), e'.program = e.program →
      Safe Goal m e' (s.enter e' b pos))
    (h : ∀ m < n, ∀ q L, Extent.onward e.subject.size c.pos q →
      (L = c.frames ∨ L = .absent (c.ip + 1) c.pos q :: c.frames) →
      Going Goal m e { c with ip := c.ip + 1, pos := q, frames := L })
    (hfail : Failing Goal n e c) : Going Goal n e c := by
  intro s hs
  subst hs
  cases n with
  | zero => trivial
  | succ n =>
    have hi' : e.program.code[s.ip]? = some (.absent b) := hi
    refine ⟨⟨fun ha => (by cases hi.symm.trans ha), fun hd => (by cases hi.symm.trans hd),
      fun j g _ hj hg => (by cases hi.symm.trans hj; cases hg)⟩, ?_, ?_⟩
    · intro r hr
      refine Guarantees.of_eq (y := takeAbsent r e b) (u := s.fetched e (.absent b)) ?_ ?_
      · rw [step_fetched _ _ _ _ hi']
        rfl
      have key : ∀ t : State, t.view = s.view →
          Guarantees (takeAbsent r e b) (fun _ t => Safe Goal n e t) t := by
        intro t ht
        refine Guarantees.bind (x := get) (.of_ok rfl ?_)
        have hpos : t.pos = s.pos := congrArg View.pos ht
        split
        · obtain ⟨-, stop, pos, s', hrun⟩ := absentEnd_error ‹_›
          exact .of_error rfl (hrun ▸ hr b hi' (e.upTo stop _) pos s' rfl)
        · exact ((hfail.mono (Nat.le_succ n)) t ht).mono fun _ t ht => ht t rfl
        · rename_i stop hstop
          have hle := onward_of_absentEnd hstop
          rw [hpos] at hle
          have hmove : ∀ L, (L = s.view.frames ∨
              L = .absent (s.view.ip + 1) s.view.pos stop :: s.view.frames) →
              Brings (modify fun u : State => { u with ip := u.ip + 1, pos := stop })
                { s.view with frames := L } (Going Goal n e) := fun L hL =>
            brings_modify fun u hu => by
              rw [show State.view { u with ip := u.ip + 1, pos := stop } =
                { u.view with ip := u.view.ip + 1, pos := stop } from rfl, hu]
              exact h n (Nat.lt_succ_self n) stop L hle hL
          split
          · refine (Brings.andThen (Q := Going Goal n e) (brings_push ?_) t ht).mono
              fun _ u hu => hu u rfl
            rw [hpos, show t.ip = s.ip from congrArg View.ip ht]
            exact hmove _ (Or.inr rfl)
          · exact (hmove _ (Or.inl rfl) t ht).mono fun _ u hu => hu u rfl
      exact key _ (view_fetched s e _)
    · intro b' hb' e' pos s' he
      cases hi.symm.trans hb'
      exact hbody n (Nat.lt_succ_self n) e' pos s' he

/-- The body of an absent operator ends its run. -/
theorem going_absentEnd (hi : e.program.code[c.ip]? = some .absentEnd) : Going Goal n e c :=
  .of_exec (x := halt .accepted) hi rfl (fun _ => rfl) fun _ _ => brings_halt (by simp)

/-! ## The end of the match -/

theorem going_drop {a : Addr} {pos : Nat} {K : List Frame}
    (hi : e.program.code[c.ip]? = some .drop) (hf : c.frames = .alternative a pos :: K)
    (h : ∀ m < n, Going Goal m e { c with ip := c.ip + 1, frames := K }) : Going Goal n e c := by
  intro s hs
  subst hs
  cases n with
  | zero => trivial
  | succ n =>
    have hi' : e.program.code[s.ip]? = some .drop := hi
    refine ⟨⟨fun ha => (by cases hi.symm.trans ha), fun _ => ⟨a, pos, K, hf⟩,
      fun j g _ hj hg => (by cases hi.symm.trans hj; cases hg)⟩, fun r _ => ?_,
      fun b hb => (by cases hi.symm.trans hb)⟩
    refine Guarantees.of_eq (y := dropTop) (u := s.fetched e .drop) ?_ ?_
    · rw [step_fetched _ _ _ _ hi']
      rfl
    have hgo := h n (Nat.lt_succ_self n)
    have hview := view_fetched s e .drop
    generalize s.fetched e .drop = t at hview
    have ht : t.stack.frames = .alternative a pos :: K := (congrArg View.frames hview).trans hf
    obtain ⟨ip, pos', start, ⟨frames, size, hsize⟩, regs, tally, memo, best, events⟩ := t
    cases ht
    refine .of_ok rfl (hgo _ ?_)
    rw [← hview]
    rfl

theorem going_accept (hi : e.program.code[c.ip]? = some .accept) (hgoal : Goal e c)
    (hle : c.start ≤ c.pos) (hfail : Failing Goal n e c) : Going Goal n e c := by
  intro s hs
  subst hs
  cases n with
  | zero => trivial
  | succ n =>
    have hi' : e.program.code[s.ip]? = some .accept := hi
    refine ⟨⟨fun _ => hgoal, fun hd => (by cases hi.symm.trans hd),
      fun j g _ hj hg => (by cases hi.symm.trans hj; cases hg)⟩, fun r _ => ?_,
      fun b hb => (by cases hi.symm.trans hb)⟩
    refine Guarantees.of_eq (y := accept e) (u := s.fetched e .accept) ?_ ?_
    · rw [step_fetched _ _ _ _ hi']
      rfl
    have hback : ∀ t : State, t.view = s.view →
        Guarantees (backtrack e) (fun _ t => Safe Goal n e t) t := fun t ht =>
      ((hfail.mono (Nat.le_succ n)) t ht).mono fun _ t ht => ht t rfl
    have hview := view_fetched s e .accept
    generalize s.fetched e .accept = t at hview
    have hnot : ¬ t.pos < t.start := by
      rw [show t.pos = s.pos from congrArg View.pos hview,
        show t.start = s.start from congrArg View.start hview]
      exact Nat.not_lt.mpr hle
    refine Guarantees.bind (x := get) (.of_ok rfl ?_)
    dsimp only
    split
    · exact hback t hview
    · split
      · split
        · refine Guarantees.bind (x := emit e _) (.of_ok rfl ?_)
          refine Guarantees.bind (x := modify _) (.of_ok rfl (hback _ ?_))
          exact (view_emit _ _ _).trans hview
        · exact hback t hview
      · refine Guarantees.bind (x := emit e _) (.of_ok rfl ?_)
        exact .of_error rfl (by simp)

end RegexMachine.Machine
