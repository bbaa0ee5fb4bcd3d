import RegexMachine.Proofs.Transitions

/-!
What a run comes to does not depend on the clock, if only that is late enough. Runs inside the steps
of an absent operator settle before the run around them does, and two runs whose inner runs stop
alike are told apart by no absent operator.
-/
namespace RegexMachine.Machine

/-- From some clock on the value is always the same, and `P` holds of it. -/
def Stays {α : Type} (f : Nat → α) (P : α → Prop) : Prop :=
  ∃ N v, P v ∧ ∀ n, N ≤ n → f n = v

theorem Stays.mono {α : Type} {f : Nat → α} {P Q : α → Prop} (h : Stays f P)
    (hPQ : ∀ v, P v → Q v) : Stays f Q := by
  obtain ⟨N, v, hv, hf⟩ := h
  exact ⟨N, v, hPQ v hv, hf⟩

/-- What comes after a value that stays. -/
theorem Stays.andThen {α β : Type} {f : Nat → α} {g : Nat → β} {P : α → Prop} {Q : β → Prop}
    (h : Stays f P)
    (hg : ∀ v, P v → ∃ g' : Nat → β, Stays g' Q ∧ ∀ n, f n = v → g n = g' n) : Stays g Q := by
  obtain ⟨N, v, hv, hf⟩ := h
  obtain ⟨g', ⟨M, w, hw, hg'⟩, heq⟩ := hg v hv
  refine ⟨max N M, w, hw, fun n hn => ?_⟩
  rw [heq n (hf n (by omega))]
  exact hg' n (by omega)

theorem Stays.const {α : Type} {v : α} {P : α → Prop} (h : P v) : Stays (fun _ => v) P :=
  ⟨0, v, h, fun _ _ => rfl⟩

/-- Two runs stop for the same reason, where `same` says which faults count as one. -/
def Halt.Like (same : Fault → Fault → Prop) : Halt → Halt → Prop
  | .fault f, h => ∃ f', h = .fault f' ∧ same f f'
  | h, h' => h' = h

/-- The same value, or the same reason for there being none. -/
def Mirrors {α : Type} (same : Fault → Fault → Prop) : Except Halt α → Except Halt α → Prop
  | .ok a, v => v = .ok a
  | .error h, v => ∃ h', v = .error h' ∧ h.Like same h'

theorem Halt.like_eq {h h' : Halt} : h.Like Eq h' ↔ h' = h := by
  cases h with
  | fault f =>
    constructor
    · rintro ⟨f', rfl, rfl⟩
      rfl
    · rintro rfl
      exact ⟨f, rfl, rfl⟩
  | _ => rfl

theorem mirrors_eq {α : Type} {v w : Except Halt α} : Mirrors Eq v w ↔ w = v := by
  cases v with
  | ok a => rfl
  | error h =>
    constructor
    · rintro ⟨h', rfl, hlike⟩
      rw [Halt.like_eq.mp hlike]
    · rintro rfl
      exact ⟨h, rfl, Halt.like_eq.mpr rfl⟩

section
variable {same : Fault → Fault → Prop} {R : State → State → Prop} {r : Runner} {r' : Nat → Runner}
  {e e' : Setting} {body body' : Addr}

/-- From states that are related the second runner comes to stop for the same reason as the first
one does, unless that is late. Where nothing was found it leaves states that are related too. -/
def Keeps (same : Fault → Fault → Prop) (R : State → State → Prop) (r : Runner) (r' : Nat → Runner)
    (e e' : Setting) (body body' : Addr) : Prop :=
  ∀ pos s s', R s s' → (r e body pos s).1 ≠ .late →
    Stays (fun m => r' m e' body' pos s') fun x =>
      (r e body pos s).1.Like same x.1 ∧ ((r e body pos s).1 = .exhausted → R (r e body pos s).2 x.2)

theorem blockedFrom_follows (hsubject : e'.subject = e.subject)
    (hrun : Keeps same R r r' e e' body body') {stop pos : Nat} {s s' : State} (hs : R s s')
    (h : blockedFrom r e body stop pos s ≠ .error .late) :
    Stays (fun m => blockedFrom (r' m) e' body' stop pos s')
      (Mirrors same (blockedFrom r e body stop pos s)) := by
  have hkeeps := hrun pos s s' hs
  rw [blockedFrom] at h ⊢
  cases hx : r e body pos s with
  | mk k t =>
    rw [hx] at hkeeps
    simp only [hx] at h ⊢
    by_cases hlate : k = .late
    · subst hlate
      exact absurd rfl h
    refine (hkeeps hlate).andThen fun y hy => ?_
    obtain ⟨k', t'⟩ := y
    obtain ⟨hlike, hnext⟩ := hy
    cases k with
    | accepted =>
      obtain rfl : k' = .accepted := hlike
      exact ⟨fun _ => .ok true, .const rfl, fun m hm => by rw [blockedFrom, hm]⟩
    | exhausted =>
      obtain rfl : k' = .exhausted := hlike
      dsimp only at h ⊢
      by_cases hlt : pos < stop
      · rw [dif_pos hlt] at h ⊢
        refine ⟨_, blockedFrom_follows hsubject hrun (hnext rfl) h, fun m hm => ?_⟩
        rw [blockedFrom, hm, ← hsubject]
        exact dif_pos hlt
      · rw [dif_neg hlt]
        refine ⟨fun _ => .ok false, .const rfl, fun m hm => ?_⟩
        rw [blockedFrom, hm]
        exact dif_neg hlt
    | fault f =>
      obtain ⟨f', rfl, hf⟩ := hlike
      exact ⟨fun _ => .error (.fault f'), .const ⟨_, rfl, f', rfl, hf⟩,
        fun m hm => by rw [blockedFrom, hm]⟩
    | interrupted =>
      obtain rfl : k' = .interrupted := hlike
      exact ⟨fun _ => .error .interrupted, .const ⟨_, rfl, rfl⟩,
        fun m hm => by rw [blockedFrom, hm]⟩
    | limit x =>
      obtain rfl : k' = .limit x := hlike
      exact ⟨fun _ => .error (.limit x), .const ⟨_, rfl, rfl⟩,
        fun m hm => by rw [blockedFrom, hm]⟩
    | late => exact absurd rfl hlate
termination_by stop - pos
decreasing_by
  have := Subject.lt_next e.subject pos
  omega

theorem lastFree_follows {test : Nat → Except Halt Bool} {test' : Nat → Nat → Except Halt Bool}
    (htest : ∀ i, test i ≠ .error .late → Stays (fun m => test' m i) (Mirrors same (test i)))
    {lo hi : Nat} (h : lastFree test lo hi ≠ .error .late) :
    Stays (fun m => lastFree (test' m) lo hi) (Mirrors same (lastFree test lo hi)) := by
  have hstep (m : Nat) := lastFree.eq_1 (test' m) lo hi
  rw [lastFree] at h ⊢
  by_cases hlt : 1 < hi - lo
  · simp only [dif_pos hlt] at h hstep ⊢
    have hmid := htest (lo + (hi - lo) / 2)
    cases hv : test (lo + (hi - lo) / 2) with
    | error k =>
      rw [hv] at hmid
      simp only [hv] at h ⊢
      refine (hmid (by rintro ⟨⟩; exact h rfl)).andThen fun v hv => ?_
      obtain ⟨k', rfl, hk⟩ := hv
      exact ⟨fun _ => .error k', .const ⟨k', rfl, hk⟩, fun m hm => by rw [hstep, hm]⟩
    | ok blocked =>
      rw [hv] at hmid
      simp only [hv] at h ⊢
      refine (hmid (by rintro ⟨⟩)).andThen fun v hv => ?_
      obtain rfl : v = .ok blocked := hv
      cases blocked with
      | true => exact ⟨_, lastFree_follows htest h, fun m hm => by rw [hstep, hm]⟩
      | false => exact ⟨_, lastFree_follows htest h, fun m hm => by rw [hstep, hm]⟩
  · simp only [dif_neg hlt] at hstep ⊢
    exact ⟨0, .ok lo, rfl, fun m _ => hstep m⟩
termination_by hi - lo
decreasing_by all_goals omega

/-- Runs that stop alike find the same end of an absent operator. -/
theorem absentEnd_follows (hsubject : e'.subject = e.subject) (hinitial : R .initial .initial)
    {begun begun' start : Nat}
    (hrun : ∀ stop, Keeps same R r r' (e.upTo stop begun) (e'.upTo stop begun') body body')
    (h : absentEnd r e body begun start ≠ .error .late) :
    Stays (fun m => absentEnd (r' m) e' body' begun' start)
      (Mirrors same (absentEnd r e body begun start)) := by
  have htest (stop : Nat) (h : blocked r e body begun start stop ≠ .error .late) :
      Stays (fun m => blocked (r' m) e' body' begun' start stop)
        (Mirrors same (blocked r e body begun start stop)) :=
    blockedFrom_follows (congrArg (·.upTo stop) hsubject) (hrun stop) hinitial h
  have hfirst := htest start
  simp only [absentEnd, hsubject, bind, Except.bind, pure, Except.pure] at h ⊢
  cases hv : blocked r e body begun start start with
  | error k =>
    rw [hv] at hfirst
    simp only [hv] at h ⊢
    refine (hfirst (by rintro ⟨⟩; exact h rfl)).andThen fun v hv => ?_
    obtain ⟨k', rfl, hk⟩ := hv
    exact ⟨fun _ => .error k', .const ⟨k', rfl, hk⟩, fun m hm => by rw [hm]⟩
  | ok empty =>
    rw [hv] at hfirst
    simp only [hv] at h ⊢
    refine (hfirst (by rintro ⟨⟩)).andThen fun v hv => ?_
    obtain rfl : v = .ok empty := hv
    cases empty with
    | true => exact ⟨fun _ => .ok none, .const rfl, fun m hm => by rw [hm]; rfl⟩
    | false =>
      rw [if_neg Bool.false_ne_true] at h ⊢
      have hlast := @lastFree_follows same _ _
        (fun i => htest ((boundariesFrom e.subject start #[]).getD i start)) 0
        (boundariesFrom e.subject start #[]).size
      cases hw : lastFree (fun i => blocked r e body begun start
          ((boundariesFrom e.subject start #[]).getD i start)) 0
          (boundariesFrom e.subject start #[]).size with
      | error k =>
        rw [hw] at hlast
        simp only [hw] at h ⊢
        refine ⟨_, (hlast (by rintro ⟨⟩; exact h rfl)).andThen fun w hw => ?_,
          fun m hm => by rw [hm]⟩
        obtain ⟨k', rfl, hk⟩ := hw
        exact ⟨fun _ => .error k', .const ⟨k', rfl, hk⟩, fun m hm => by rw [hm]; rfl⟩
      | ok i =>
        rw [hw] at hlast
        refine ⟨_, (hlast (by rintro ⟨⟩)).andThen fun w hw => ?_,
          fun m hm => by rw [hm]⟩
        obtain rfl : w = .ok i := hw
        exact ⟨fun _ => .ok (some ((boundariesFrom e.subject start #[]).getD i start)), .const rfl,
          fun m hm => by rw [hm]; rfl⟩

end

/-! ## Runs -/

section
variable {e : Setting}

/-- An instruction other than an absent operator does not run anything. -/
theorem exec_inner {i : Instr} (hi : ∀ body, i ≠ .absent body) (r r' : Runner) :
    exec r e i = exec r' e i := by
  cases i with
  | absent body => exact absurd rfl (hi body)
  | _ => rfl

/-- The clock plays a part in a step only through what an absent operator finds. -/
theorem step_stays {n : Nat} {s : State}
    (hkeeps : ∀ (e : Setting) (body : Addr), Keeps Eq Eq (inner n) inner e e body body)
    (h : ∀ t, step (inner n) e s ≠ .error .late t) :
    ∃ N, ∀ m, N ≤ m → step (inner m) e s = step (inner n) e s := by
  cases hi : e.program.code[s.ip]? with
  | none =>
    refine ⟨0, fun m _ => ?_⟩
    simp only [step, bind_get, hi]
  | some i =>
    have hfetch (m : Nat) := step_fetched (inner m) e s i hi
    rw [hfetch] at h
    simp only [hfetch]
    by_cases hbody : ∃ body, i = .absent body
    · obtain ⟨body, rfl⟩ := hbody
      change ∀ t, takeAbsent (inner n) e body (s.fetched e (.absent body)) ≠ _ at h
      change ∃ N, ∀ m, N ≤ m → takeAbsent (inner m) e body (s.fetched e (.absent body)) =
        takeAbsent (inner n) e body (s.fetched e (.absent body))
      generalize s.fetched e (.absent body) = t at h ⊢
      have hlate : absentEnd (inner n) e body t.tally.begun t.pos ≠ .error .late := by
        intro hlate
        refine h t ?_
        simp only [takeAbsent, bind_get, hlate]
        rfl
      obtain ⟨N, v, hv, hN⟩ :=
        absentEnd_follows rfl rfl (fun stop => hkeeps (e.upTo stop t.tally.begun) body) hlate
      refine ⟨N, fun m hm => ?_⟩
      have hfound : absentEnd (inner m) e body t.tally.begun t.pos =
          absentEnd (inner n) e body t.tally.begun t.pos := (hN m hm).trans (mirrors_eq.mp hv)
      simp only [takeAbsent, bind_get, hfound]
    · exact ⟨0, fun m _ => by rw [exec_inner (fun body h => hbody ⟨body, h⟩)]⟩

/-- A run that has stopped before the clock has run out stops there whatever the clock. -/
theorem run_stays (n : Nat) (s : State) (h : (run n e s).1 ≠ .late) :
    ∃ N, ∀ m, N ≤ m → run m e s = run n e s := by
  induction n generalizing e s with
  | zero => exact absurd rfl h
  | succ n ih =>
    have hkeeps (e : Setting) (body : Addr) : Keeps Eq Eq (inner n) inner e e body body := by
      rintro pos s _ rfl hlate
      obtain ⟨N, hN⟩ := ih (s.enter e body pos) hlate
      exact ⟨N, _, ⟨Halt.like_eq.mpr rfl, fun _ => rfl⟩, hN⟩
    have hstep (hlate : ∀ t, step (inner n) e s ≠ .error .late t) :
        ∃ N, ∀ m, N ≤ m → step (inner m) e s = step (inner n) e s := step_stays hkeeps hlate
    rw [run_succ] at h ⊢
    cases hs : step (inner n) e s with
    | error k t =>
      have hk : k ≠ .late := by
        rintro rfl
        exact h (by rw [hs]; rfl)
      obtain ⟨N, hN⟩ := hstep fun u hu => hk (by rw [hs] at hu; cases hu; rfl)
      refine ⟨N + 1, fun m hm => ?_⟩
      obtain ⟨m, rfl⟩ : ∃ k, m = k + 1 := ⟨m - 1, by omega⟩
      rw [run_succ, hN m (by omega), hs]
      rfl
    | ok _ t =>
      rw [hs] at h
      obtain ⟨N, hN⟩ := hstep fun u hu => (by rw [hs] at hu; cases hu)
      obtain ⟨M, hM⟩ := ih t h
      refine ⟨max N M + 1, fun m hm => ?_⟩
      obtain ⟨m, rfl⟩ : ∃ k, m = k + 1 := ⟨m - 1, by omega⟩
      rw [run_succ, hN m (by omega), hs]
      exact hM m (by omega)

/-! ## Runs of cores -/

theorem Ending.at_late {h : Halt} {c : Core} : Ending.at h c = .broken .late ↔ h = .late := by
  cases h <;> simp [Ending.at]

/-- A state with a core, at the beginning of a search. -/
def Core.state (c : Core) : State :=
  ⟨c.ip, c.pos, c.start, ⟨c.frames, c.frames.length, rfl⟩, c.regs, .zero, c.memo, c.best, #[]⟩

/-- The run comes to an ending before some clock has run out. -/
def Core.Ends (e : Setting) (c : Core) (y : Ending) : Prop :=
  y ≠ .broken .late ∧ ∃ N, ∀ n, N ≤ n → c.run n e = y

theorem Core.Ends.eq {c : Core} {y z : Ending} (h : c.Ends e y) (h' : c.Ends e z) : y = z := by
  obtain ⟨-, N, hN⟩ := h
  obtain ⟨-, M, hM⟩ := h'
  rw [← hN (max N M) (by omega), hM (max N M) (by omega)]

/-- A step depends on the clock through what an absent operator finds only. -/
theorem Core.step_congr {n m : Nat} {c : Core}
    (h : ∀ body, e.program.code[c.ip]? = some (.absent body) →
      absentEnd (inner n) e body 0 c.pos = absentEnd (inner m) e body 0 c.pos) :
    c.step n e = c.step m e := by
  unfold Core.step
  cases hi : e.program.code[c.ip]? with
  | none => rfl
  | some i =>
    have hact : c.act e (fun body pos => absentEnd (inner n) e body 0 pos) i =
        c.act e (fun body pos => absentEnd (inner m) e body 0 pos) i := by
      cases i with
      | absent body => simp only [Core.act, h body hi]
      | _ => rfl
    simp only [hact]

/-- A run inside a step comes to what the run of a core ends with. -/
theorem inner_stays (hq : Quiet e) {P : Ending → Prop} {body : Addr} {pos : Nat} {s : State}
    {y : Ending} (hy : (s.enter e body pos).core.Ends e y) (hP : P y) :
    Stays (fun n => inner n e body pos s) fun x => P (Ending.of x) := by
  obtain ⟨hlate, N, hN⟩ := hy
  have hcore : Ending.of (inner N e body pos s) = y :=
    (run_core hq N _).trans (hN N (Nat.le_refl N))
  obtain ⟨M, hM⟩ := run_stays (e := e) N (s.enter e body pos) fun hrun =>
    hlate (hcore.symm.trans (Ending.at_late.mpr hrun))
  rw [← hcore] at hP
  exact ⟨M, _, hP, hM⟩

end

/-! ## Steps that one of two runs takes alone -/

section
variable {e : Setting} {c d : Core} {u v : Except Ending Core} {y : Ending} {n : Nat}

/-- From where a step leads further steps lead on, whatever the clock. -/
inductive Trails (e : Setting) : Except Ending Core → Except Ending Core → Prop
  | refl (v : Except Ending Core) : Trails e v v
  | step {c : Core} {u v : Except Ending Core} (hstep : ∀ n, c.step n e = u) (h : Trails e u v) :
    Trails e (.ok c) v

theorem Trails.trans {z : Except Ending Core} (h : Trails e u v) (h' : Trails e v z) :
    Trails e u z := by
  induction h with
  | refl => exact h'
  | step hstep _ ih => exact .step hstep (ih h')

/-- What is left of a run where a step has led. -/
def after (n : Nat) (e : Setting) : Except Ending Core → Ending
  | .ok c => c.run n e
  | .error y => y

theorem run_after (n : Nat) (e : Setting) (c : Core) :
    c.run (n + 1) e = after n e (c.step n e) := by
  rw [Core.run]
  cases c.step n e <;> rfl

/-- The rest of the run ends before some clock has run out. -/
def EndsAfter (e : Setting) (v : Except Ending Core) (y : Ending) : Prop :=
  y ≠ .broken .late ∧ ∃ N, ∀ n, N ≤ n → after n e v = y

theorem EndsAfter.ends {N : Nat} (hstep : ∀ n, N ≤ n → c.step n e = v) (h : EndsAfter e v y) :
    c.Ends e y := by
  obtain ⟨hlate, M, hM⟩ := h
  refine ⟨hlate, max N M + 1, fun n hn => ?_⟩
  obtain ⟨n, rfl⟩ : ∃ k, n = k + 1 := ⟨n - 1, by omega⟩
  rw [run_after, hstep n (by omega)]
  exact hM n (by omega)

theorem Trails.ends (h : Trails e u v) (hv : EndsAfter e v y) : EndsAfter e u y := by
  induction h with
  | refl => exact hv
  | step hstep _ ih => exact (ih hv).ends (N := 0) fun n _ => hstep n

/-- A run that has come to an end has gone along the trail with steps to spare. -/
theorem Trails.after (h : Trails e u v) (hu : Machine.after n e u ≠ .broken .late) :
    ∃ k, k ≤ n ∧ Machine.after k e v = Machine.after n e u := by
  induction h generalizing n with
  | refl => exact ⟨n, Nat.le_refl n, rfl⟩
  | @step c u v hstep _ ih =>
    cases n with
    | zero => exact absurd rfl hu
    | succ n =>
      have hrun : Machine.after (n + 1) e (.ok c) = Machine.after n e u := by
        rw [← hstep n]
        exact run_after n e c
      rw [hrun] at hu ⊢
      obtain ⟨k, hk, heq⟩ := ih hu
      exact ⟨k, Nat.le_succ_of_le hk, heq⟩

theorem step_eq {i : Instr} (hi : e.program.code[c.ip]? = some i)
    (hact : ∀ spans, c.act e spans i = .ok (.going d)) (n : Nat) : c.step n e = .ok d := by
  simp only [Core.step, hi, hact]

theorem step_failing {i : Instr} (hi : e.program.code[c.ip]? = some i)
    (hact : ∀ spans, c.act e spans i = .ok (.failing d)) (n : Nat) :
    c.step n e = resumeFrom e d.frames d := by
  simp only [Core.step, hi, hact]

theorem endsAfter_error {y : Ending} (hy : y ≠ .broken .late) : EndsAfter e (.error y) y :=
  ⟨hy, 0, fun _ _ => rfl⟩

theorem endsAfter_ok {y : Ending} (h : c.Ends e y) : EndsAfter e (.ok c) y := h

/-- An absent operator that is late makes its step late. -/
theorem step_late {body : Addr} {n : Nat} (hi : e.program.code[c.ip]? = some (.absent body))
    (h : absentEnd (inner n) e body 0 c.pos = .error .late) :
    c.step n e = .error (.broken .late) := by
  simp only [Core.step, hi, Core.act, h, Core.takeAbsent]
  rfl

end
end RegexMachine.Machine
