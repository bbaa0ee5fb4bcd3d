import RegexMachine.Proofs.Visits

/-!
Backtracking brings back what was there when a frame was left. Between the step that leaves a choice
and the one that resumes it, regions may be closed or unwound, groups called and left, loops counted
and groups set: the frames above the choice undo all of it.
-/
namespace RegexMachine.Machine

/-- A run of steps in which the stack does not get lower than `h` frames. -/
inductive Staying (e : Setting) (h : Nat) (s : State) : State → Prop
  | here : Staying e h s s
  | step {t u : State} (n : Nat) (hs : Staying e h s t) (hstep : Machine.step (inner n) e t = .ok () u)
    (hu : h ≤ u.stack.frames.length) : Staying e h s u

variable {p : Program} {l : Compile.Layout} {root : Node Measured} {e : Setting} {s t u v w : State}
  {c d : View} {K : List Frame} {r : Registers}

theorem Staying.visited {h : Nat} (hs : Visited p e s) (ha : Staying e h s t) : Visited p e t := by
  induction ha with
  | here => exact hs
  | step n _ hstep _ ih => exact ih.step n hstep

theorem Become.split {A B L : List Frame} (h : Become p (A ++ B) L) :
    ∃ A' B', L = A' ++ B' ∧ Become p A A' ∧ Become p B B' := by
  refine ⟨L.take A.length, L.drop A.length, (List.take_append_drop ..).symm, ?_, ?_⟩
  · simpa using List.forall₂_take A.length h
  · simpa using List.forall₂_drop A.length h

theorem Become.trans {A B C : List Frame} (h : Become p A B) (h' : Become p B C) : Become p A C := by
  induction h generalizing C with
  | nil => exact h'
  | cons hf _ ih =>
    obtain _ | ⟨hg, hC⟩ := h'
    exact .cons (hf.trans hg) (ih hC)

/-- Some frames are in their places at the bottom of the stack, and undoing those above them gives
some registers. -/
def Restorable (p : Program) (K : List Frame) (r : Registers) (c : View) : Prop :=
  ∃ F L, c.frames = F ++ L ∧ Become p K L ∧ r.Agrees p (c.regs.undoAll p F)

/-- A step that takes none of the frames off leaves it so. -/
theorem Restorable.step (h : Restorable p K r c) (hd : Passes p c d)
    (hK : K.length ≤ d.frames.length) : Restorable p K r d := by
  obtain ⟨F, L, hc, hL, hr⟩ := h
  cases hd with
  | adds G hd _ _ hG =>
    refine ⟨G ++ F, L, by rw [hd, hc, List.append_assoc], hL, hr.trans ?_⟩
    rw [Registers.undoAll_append]
    exact hG.undoAll F
  | takes A M hM hd hA =>
    -- What is taken off lies above the frames, and what is left of `F` is undone later.
    obtain ⟨G, rfl, rfl⟩ : ∃ G, F = A ++ G ∧ M = G ++ L := by
      have hlen : L.length ≤ M.length := by rw [← hL.length_eq, hd.length_eq]; exact hK
      rcases List.append_eq_append_iff.mp (hc.symm.trans hM) with ⟨G, rfl, rfl⟩ | ⟨G, rfl, rfl⟩
      · rw [List.length_append] at hlen
        obtain rfl : G = [] := List.eq_nil_of_length_eq_zero (by omega)
        exact ⟨[], by simp, rfl⟩
      · exact ⟨G, rfl, rfl⟩
    obtain ⟨G', L', hframes, hG', hL'⟩ := hd.split
    refine ⟨G', L', hframes, hL.trans hL', ?_⟩
    rw [hG'.undoAll]
    rw [Registers.undoAll_append] at hr
    exact hr.trans (hA.undoAll G)

/-- What was restorable stays so as long as the stack does not get lower. -/
theorem Staying.restorable (hp : p.Compiled l root) (hs : Visited p e s)
    (h : Restorable p K r s.view) (ha : Staying e K.length s t) : Restorable p K r t.view := by
  induction ha with
  | here => exact h
  | step n hs' hstep hu ih =>
    have hvisited := hs'.visited hs
    exact ih.step (hvisited.program ▸ hvisited.passes hp (hvisited.fits hp) hstep) hu

/-- Only choices lie above a choice that a step has just left. -/
theorem Recorded.above {F G : List Frame} {g : Frame} {a : Addr} (h : Recorded (F ++ g :: G))
    (hg : g.back? = some a) : ∀ f ∈ F, f.isChoice = true := by
  obtain ⟨C, R, hsplit, hC, hR⟩ := h
  rcases List.append_eq_append_iff.mp hsplit with ⟨H, rfl, -⟩ | ⟨H, rfl, hrest⟩
  · exact fun f hf => hC f (List.mem_append_left _ hf)
  · -- Otherwise the choice itself would be a record.
    cases H with
    | nil => simpa using hC
    | cons f H =>
      have hmem : g ∈ R := by rw [hrest]; simp
      rw [hR g hmem] at hg
      cases hg

/-- Right after a step has left a choice, what is above it undoes nothing. -/
theorem restorable_left {F : List Frame} {g : Frame} {a : Addr} (h : Passes p c d)
    (hd : d.frames = F ++ g :: K) (hnew : c.frames.length ≤ K.length) (hg : g.back? = some a) :
    Restorable p (g :: K) d.regs d := by
  refine ⟨F, g :: K, hd, become_refl p _, .of_eq ?_⟩
  cases h with
  | adds G hG hrecorded =>
    obtain ⟨H, rfl⟩ : ∃ H, G = F ++ g :: H := by
      rcases List.append_eq_append_iff.mp (hd.symm.trans hG) with ⟨H, rfl, hH⟩ | ⟨H, rfl, hH⟩
      · cases H with
        | nil =>
          have := congrArg List.length hH
          simp at this
          omega
        | cons f H =>
          obtain ⟨rfl, -⟩ := List.cons.inj hH
          exact ⟨H, rfl⟩
      · have := congrArg List.length hH
        simp at this
        omega
    exact Registers.undoAll_choices (hrecorded.above hg) d.regs
  | takes A L hc hL =>
    have h1 := hL.length_eq
    have h2 := congrArg List.length hc
    simp only [hd, List.length_append, List.length_cons] at h1 h2
    omega

/-- Lists split in one way only at their first element with a property. -/
theorem first_unique {α : Type} {q : α → Bool} {A B C D : List α} {x y : α}
    (h : A ++ x :: B = C ++ y :: D) (hA : ∀ a ∈ A, q a = false) (hC : ∀ c ∈ C, q c = false)
    (hx : q x = true) (hy : q y = true) : A = C ∧ x = y ∧ B = D := by
  induction A generalizing C with
  | nil =>
    cases C with
    | nil => exact ⟨rfl, List.cons.inj h⟩
    | cons c C =>
      obtain ⟨rfl, -⟩ := List.cons.inj h
      rw [hC x (by simp)] at hx
      cases hx
  | cons a A ih =>
    cases C with
    | nil =>
      obtain ⟨rfl, -⟩ := List.cons.inj h
      rw [hA a (by simp)] at hy
      cases hy
    | cons c C =>
      obtain ⟨rfl, htail⟩ := List.cons.inj h
      obtain ⟨rfl, hrest⟩ := ih htail (fun a ha => hA a (List.mem_cons_of_mem _ ha))
        fun c hc => hC c (List.mem_cons_of_mem _ hc)
      exact ⟨rfl, hrest⟩

/-- What backtracking restores. A step leaves a choice, steps that keep it on the stack lead on, and
then it is the first frame that resumes: the run goes on where the choice says, and the groups whose
instructions leave records, the history of captures, the rounds of all loops, the start that a match
is to report and the depth of calls are as they were when the choice was left. -/
theorem backtrack_restores {setting : Pattern.Setting} {options : Options}
    {properties : PropertyRegistry}
    (hprogram : (Compilation.ofPattern setting options properties).result = .ok p)
    (hs : Visited p e s) {n : Nat} (hstep : Machine.step (inner n) e s = .ok () t)
    {F : List Frame} {g : Frame} {a : Addr} (ht : t.stack.frames = F ++ g :: K)
    (hnew : s.stack.frames.length ≤ K.length) (hg : g.back? = some a)
    (hrun : Staying e (K.length + 1) t u) (hw : w.view = u.view)
    {A K' : List Frame} {g' : Frame} (hframes : u.stack.frames = A ++ g' :: K')
    (hplace : K'.length = K.length) (hA : ∀ f ∈ A, f.resumes e = false)
    (hg' : g'.resumes e = true) (hback : backtrack e w = .ok () v) :
    v.ip = a ∧ t.regs.Agrees p v.regs := by
  obtain ⟨o, tree, -, hparse, htree⟩ := Compilation.ofPattern_ok hprogram
  obtain ⟨_, _, -, hp, -⟩ := Compilation.ofTree_compiled htree (Pattern.parse_groupNumbers hparse)
    (Pattern.parse_separate hparse)
  have hpasses := hs.program ▸ hs.passes hp (hs.fits hp) hstep
  obtain ⟨B, L, hsplit, hL, hregs⟩ :=
    hrun.restorable hp (hs.step n hstep) (restorable_left hpasses ht hnew hg)
  obtain ⟨rfl, rfl⟩ : B = A ∧ L = g' :: K' := by
    refine List.append_inj' (hsplit.symm.trans hframes) ?_
    rw [← hL.length_eq, List.length_cons, List.length_cons, hplace]
  -- It is this frame that backtracking has found.
  obtain ⟨A', f, L, hfound, hA', hf, hip, hregs', -⟩ := backtrack_ok hback
  have hw_frames : w.stack.frames = u.stack.frames := congrArg View.frames hw
  have hw_regs : w.regs = u.regs := congrArg View.regs hw
  obtain ⟨rfl, rfl, rfl⟩ :=
    first_unique (hfound.symm.trans (hw_frames.trans hframes)) hA' hA hf hg'
  obtain _ | ⟨hbecomes, -⟩ := hL
  refine ⟨?_, ?_⟩
  · rcases hbecomes.back with hnone | hsame
    · rw [hnone] at hip
      cases hip
    · exact Option.some.inj (hip.symm.trans (hsame.trans hg))
  · rw [hregs', hw_regs, hs.program]
    exact hregs

/-! ## A run -/

/-- The state in which an action goes on. -/
def State.after? {α : Type} (x : Run α) (s : State) : Option State :=
  match x s with
  | .ok _ t => some t
  | .error _ _ => none

theorem after?_some {x : Run Unit} (h : s.after? x = some t) : x s = .ok () t := by
  unfold State.after? at h
  split at h <;> cases h
  assumption

/-- The state that steps lead to which do not let the stack get lower than `h` frames. -/
def State.stays? (e : Setting) (h : Nat) (s : State) : Nat → Option State
  | 0 => some s
  | n + 1 => (s.stays? e h n).bind fun t =>
    (t.after? (Machine.step (inner 0) e)).filter fun u => decide (h ≤ u.stack.frames.length)

theorem staying_of_stays? {h n : Nat} (ht : s.stays? e h n = some t) : Staying e h s t := by
  induction n generalizing t with
  | zero =>
    cases ht
    exact .here
  | succ n ih =>
    obtain ⟨u, hu, ht⟩ := Option.bind_eq_some_iff.mp ht
    obtain ⟨hstep, hheight⟩ := Option.filter_eq_some_iff.mp ht
    exact (ih hu).step 0 (after?_some hstep) (of_decide_eq_true hheight)

/-- A course that goes on to its end has passed through each of its states. -/
theorem passes_of_bind {α β : Type} {o : Option α} {f : α → Option β}
    (h : (o.bind f).isSome = true) : ∃ ho : o.isSome = true, (f (o.get ho)).isSome = true := by
  cases o with
  | none => cases h
  | some a => exact ⟨rfl, h⟩

/-- The pattern `(?:(a)b|ac)*`, in which the group is set again by each round. -/
def resetting : Pattern.Setting :=
  ⟨#[40, 63, 58, 40, 97, 41, 98, 124, 97, 99, 41, 42], .native, .ascii, .standard⟩

theorem resetting_compiles :
    (Compilation.ofPattern resetting .empty .empty).result.toOption.isSome = true := by
  decide +kernel

/-- Its program. -/
def resettingProgram : Program :=
  (Compilation.ofPattern resetting .empty .empty).result.toOption.get resetting_compiles

/-- A run of it on the text `abac`. -/
def resettingRun : Setting :=
  ⟨resettingProgram, ⟨#[97, 98, 97, 99], .ascii, false, false⟩, ⟨0, 0, 1024, 0, 16384⟩, .empty, 0,
    fun _ => false, false⟩

/-- Where the run begins. -/
def resettingStart : State :=
  (State.initial.enter resettingRun 0 0).emit resettingRun (.start 0)

theorem resetting_course : ((resettingStart.stays? resettingRun 0 9).bind fun choosing =>
    (choosing.after? (step (inner 0) resettingRun)).bind fun chosen =>
      (chosen.stays? resettingRun 6 3).bind fun failing =>
        failing.after? (backtrack resettingRun)).isSome = true := by
  decide +kernel

theorem choosing_isSome : (resettingStart.stays? resettingRun 0 9).isSome = true :=
  (passes_of_bind resetting_course).fst

/-- In the second round, in front of the alternation. -/
def choosing : State := (resettingStart.stays? resettingRun 0 9).get choosing_isSome

theorem chosen_isSome : (choosing.after? (step (inner 0) resettingRun)).isSome = true :=
  (passes_of_bind (passes_of_bind resetting_course).snd).fst

/-- Its second branch has been left for later. -/
def chosen : State := (choosing.after? (step (inner 0) resettingRun)).get chosen_isSome

theorem failing_isSome : (chosen.stays? resettingRun 6 3).isSome = true :=
  (passes_of_bind (passes_of_bind (passes_of_bind resetting_course).snd).snd).fst

/-- The group has been set again, and no `b` follows. -/
def failing : State := (chosen.stays? resettingRun 6 3).get failing_isSome

theorem resumed_isSome : (failing.after? (backtrack resettingRun)).isSome = true :=
  (passes_of_bind (passes_of_bind (passes_of_bind resetting_course).snd).snd).snd

/-- The second branch has been resumed. -/
def resumed : State := (failing.after? (backtrack resettingRun)).get resumed_isSome

/-- The group has again what it was set to in the first round. -/
theorem backtrack_restores_group :
    resumed.ip = 7 ∧ chosen.regs.Agrees resettingProgram resumed.regs := by
  have hp : (Compilation.ofPattern resetting .empty .empty).result = .ok resettingProgram :=
    ok_of_isSome resetting_compiles
  have hrun : resettingRun.program = resettingProgram := by unfold resettingRun; with_reducible rfl
  have hbegins : Visited resettingProgram resettingRun resettingStart := .attempt hrun .initial 0
  have hchoosing : Staying resettingRun 0 resettingStart choosing :=
    staying_of_stays? (Option.some_get choosing_isSome).symm
  have hstep : step (inner 0) resettingRun choosing = .ok () chosen :=
    after?_some (Option.some_get chosen_isSome).symm
  have hchosen : chosen.stack.frames = .alternative 7 2 :: chosen.stack.frames.tail := by
    decide +kernel
  have hfailing : failing.stack.frames =
      failing.stack.frames.take 2 ++ .alternative 7 2 :: failing.stack.frames.drop 3 := by
    decide +kernel
  have hheight : chosen.stack.frames.tail.length = 5 := by decide +kernel
  have hstays : Staying resettingRun (chosen.stack.frames.tail.length + 1) chosen failing := by
    rw [hheight]
    exact staying_of_stays? (Option.some_get failing_isSome).symm
  have hback : backtrack resettingRun failing = .ok () resumed :=
    after?_some (Option.some_get resumed_isSome).symm
  exact backtrack_restores (F := []) hp (hchoosing.visited hbegins) hstep hchosen
    (by decide +kernel) rfl hstays rfl hfailing (by decide +kernel) (by decide +kernel) rfl hback

end RegexMachine.Machine
