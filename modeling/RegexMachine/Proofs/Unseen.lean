import RegexMachine.Proofs.Actions

/-!
What a run does not see: the work done so far, the events recorded, and, until it has a match of its
own, the longest match that earlier attempts have collected. Where neither a limit nor an interrupt
looks at the work done, runs from states that differ in nothing else do the same. What has been
collected is changed by nothing but a match.
-/
namespace RegexMachine.Machine

/-- The longer of two matches, the first one if they are equally long. -/
def longer (a : Option (Nat × Region)) : Option (Nat × Region) → Option (Nat × Region)
  | none => a
  | some (n, r) => if a.all (·.1 < n) then some (n, r) else a

theorem longer_assoc (a b c : Option (Nat × Region)) :
    longer a (longer b c) = longer (longer a b) c := by
  cases c with
  | none => rfl
  | some c =>
    cases b with
    | none => rfl
    | some b =>
      cases a with
      | none => grind [longer]
      | some a => grind [longer]

/-- How a state may differ from another one, and whether both may come to a match. -/
structure Guise where
  /-- What has been collected in the state, where this has been collected in the other one. -/
  best : Option (Nat × Region) → Option (Nat × Region)
  matching : Prop

/-- The guise of a state in which `b` has been collected before. -/
def Guise.collected (b : Option (Nat × Region)) : Guise := ⟨longer b, True⟩

/-- A state that a run cannot tell from the first, but that other matches may have been collected.
Both have a memory of guards, or neither has. -/
def Resembles (v : Guise) (m : Bool) (s t : State) : Prop :=
  s.memo.isSome = m ∧ ∃ tally events, t = s.veiled tally (v.best s.best) events

/-- Why runs may stop that no interrupt can stop. -/
def Guise.Allows (v : Guise) (h : Halt) : Prop := h ≠ .interrupted ∧ (h = .accepted → v.matching)

/-- What an action has done to two states that were alike: it has gone on with the same answer, or
stopped for the same reason. -/
def Same {α : Type} (v : Guise) (m : Bool) :
    EStateM.Result Halt State α → EStateM.Result Halt State α → Prop
  | .ok a s, .ok a' t => a' = a ∧ Resembles v m s t
  | .error h s, .error h' t => h' = h ∧ Resembles v m s t ∧ v.Allows h
  | _, _ => False

/-- An action that does the same to states that are alike. -/
def Blind {α : Type} (x : Run α) : Prop :=
  ∀ ⦃v : Guise⦄ ⦃m : Bool⦄ ⦃s t : State⦄, Resembles v m s t → Same v m (x s) (x t)

section
variable {α β : Type} {x : Run α} {v : Guise} {m : Bool} {s t : State} {e : Setting}

/-! ## Rules -/

theorem blind_pure (a : α) : Blind (pure a : Run α) := fun _ _ _ _ h => ⟨rfl, h⟩

theorem blind_halt {h : Halt} (hne : h ≠ .interrupted) (hne' : h ≠ .accepted) :
    Blind (halt h : Run α) :=
  fun _ _ _ _ hs => ⟨rfl, hs, hne, fun ha => absurd ha hne'⟩

theorem Blind.bind {f : α → Run β} (hx : Blind x) (hf : ∀ a, Blind (f a)) : Blind (x >>= f) := by
  intro v m s t h
  have hsame := hx h
  cases hs : x s <;> cases ht : x t <;> rw [hs, ht] at hsame
  case ok.ok a s' a' t' =>
    obtain ⟨rfl, h'⟩ := hsame
    rw [bind_ok hs, bind_ok ht]
    exact hf _ h'
  case error.error k s' k' t' =>
    obtain ⟨rfl, h'⟩ := hsame
    rw [bind_error hs, bind_error ht]
    exact ⟨rfl, h'⟩
  all_goals exact hsame.elim

/-- What is read of the state is the same in states that are alike. -/
theorem blind_get {f : State → Run α}
    (hf : ∀ (s : State) tally best events, f (s.veiled tally best events) = f s)
    (h : ∀ s, Blind (f s)) : Blind (get >>= f) := by
  rintro v m s _ ⟨hm, tally, events, rfl⟩
  rw [bind_get, bind_get, hf]
  exact h s ⟨hm, tally, events, rfl⟩

theorem Plainly.alike {f : State → State} (hf : Plainly f) (h : Resembles v m s t) :
    Resembles v m (f s) (f t) := by
  obtain ⟨hm, tally, events, rfl⟩ := h
  obtain ⟨hbest, hmemo, hveiled⟩ := hf s
  exact ⟨hmemo.trans hm, tally, events, by rw [hveiled, hbest]⟩

theorem blind_modify {f : State → State} (hf : Plainly f) : Blind (modify f) :=
  fun _ _ _ _ h => ⟨rfl, hf.alike h⟩

theorem veiled_of_core (h : t.core = s.core) : ∃ tally events, t = s.veiled tally s.best events := by
  obtain ⟨ip, pos, start, ⟨frames, size, hsize⟩, regs, tally, memo, best, events⟩ := s
  obtain ⟨ip', pos', start', ⟨frames', size', hsize'⟩, regs', tally', memo', best', events'⟩ := t
  cases h
  cases hsize
  cases hsize'
  exact ⟨tally', events', rfl⟩

theorem Resembles.of_core {s' t' : State} (h : Resembles v m s t) (hs : s'.core = s.core)
    (ht : t'.core = t.core) : Resembles v m s' t' := by
  obtain ⟨hm, tally, events, rfl⟩ := h
  obtain ⟨tally', events', rfl⟩ := veiled_of_core hs
  obtain ⟨tally'', events'', rfl⟩ := veiled_of_core ht
  exact ⟨hm, tally'', events'', rfl⟩

theorem blind_emit (ev : Event) : Blind (emit e ev) :=
  fun _ _ _ _ h => ⟨rfl, h.of_core (core_emit _ e ev) (core_emit _ e ev)⟩

end

/-! ## Actions -/

section
variable {e : Setting} (hq : Quiet e)
include hq

theorem blind_push (f : Frame) : Blind (push e f) := by
  intro v m s t h
  rw [push_quiet hq, push_quiet hq]
  exact ⟨rfl, Plainly.alike (f := fun s => { s with stack := s.stack.push f })
    (fun _ => ⟨rfl, rfl, fun _ _ _ => rfl⟩) h⟩

/-- No limit is looked at, and no interrupt comes. -/
theorem blind_countRetry : Blind (countRetry e) := by
  intro v m s t h
  obtain ⟨s', hs', hs⟩ := countRetry_quiet hq s
  obtain ⟨t', ht', ht⟩ := countRetry_quiet hq t
  rw [hs, ht]
  exact ⟨rfl, h.of_core hs' ht'⟩

theorem blind_resume (ip : Addr) (pos : Nat) (stack : FrameStack) :
    Blind (resume e ip pos stack) := by
  refine Blind.bind (blind_modify fun _ => ?_) fun _ => (blind_emit _).bind fun _ =>
    blind_countRetry hq
  exact ⟨rfl, rfl, fun _ _ _ => rfl⟩

/-- The simple actions are blind, and so are those that are made of blind ones. -/
theorem pervades_blind : Pervades e @Blind where
  pure := blind_pure
  bind := .bind
  halt := blind_halt
  get := blind_get
  modify := blind_modify
  emit ev _ := blind_emit ev
  push := blind_push hq
  resume := blind_resume hq
  detach h := by
    rintro v m s _ ⟨hm, tally, events, rfl⟩
    exact h s.stack ⟨hm, tally, events, rfl⟩

theorem blind_backtrack : Blind (backtrack e) := pervades_backtrack (pervades_blind hq)

/-- Runs inside a step do not see how much work has been done. -/
theorem absentEnd_quiet (r : Runner) (body : Addr) (begun begun' start : Nat) :
    absentEnd r e body begun' start = absentEnd r e body begun start := by
  have hupTo : ∀ stop, e.upTo stop begun' = e.upTo stop begun := fun stop => by
    simp only [Setting.upTo, hq.signal]
  have hblocked : blocked r e body begun' start = blocked r e body begun start :=
    funext fun stop => by rw [blocked, hupTo, blocked]
  rw [absentEnd, absentEnd, hblocked]

/-- Runs that no interrupt stops. -/
def Undisturbed (r : Runner) : Prop :=
  ∀ (e : Setting) (a : Addr) (pos : Nat) (s : State), Quiet e → (r e a pos s).1 ≠ .interrupted

theorem blind_takeAbsent {r : Runner} (hr : Undisturbed r) (body : Addr) :
    Blind (takeAbsent r e body) := by
  refine blind_get (fun s tally best events => ?_) fun s => ?_
  · rw [absentEnd_quiet hq r body s.tally.begun]
    rfl
  · have law := pervades_blind hq
    split
    · obtain ⟨hne, stop, pos, s', hrun⟩ := absentEnd_error ‹_›
      have hquiet : Quiet (e.upTo stop s.tally.begun) :=
        ⟨hq.retries, hq.searchRetries, hq.frames, fun _ => hq.signal _⟩
      exact blind_halt (hrun ▸ hr _ body pos s' hquiet) hne
    · exact blind_backtrack hq
    · rename_i stop _
      have hrest : Blind (modify fun t : State => { t with ip := t.ip + 1, pos := stop } : Run Unit) :=
        blind_modify fun _ => ⟨rfl, rfl, fun _ _ _ => rfl⟩
      exact law.ite ((blind_push hq _).bind fun _ => hrest) hrest

section
omit hq
variable {s : State} (hpass : (e.options.has .findNotEmpty && s.matchStart == s.pos) = false)
include hpass

theorem accept_taken (hlongest : e.options.has .findLongest = false) :
    accept e s = .error .accepted (s.emit e (.accept s.matchStart s.pos)) := by
  simp only [accept, bind_get, hpass, hlongest, Bool.false_eq_true, ↓reduceIte]
  rfl

theorem accept_reversed (hlongest : e.options.has .findLongest = true) (h : s.pos < s.start) :
    accept e s = .error (.fault .underflow) s := by
  simp only [accept, bind_get, hpass, hlongest, h, Bool.false_eq_true, ↓reduceIte]
  rfl

/-- A match that ends here is collected where the longest is wanted. -/
theorem accept_collects (hlongest : e.options.has .findLongest = true) (h : ¬ s.pos < s.start) :
    ∃ t, t.core = { s.core with best := longer s.best (some (s.pos - s.start, s.region e)) } ∧
      accept e s = backtrack e t := by
  simp only [accept, bind_get, hpass, hlongest, h, Bool.false_eq_true, ↓reduceIte]
  by_cases hlonger : s.best.all (·.1 < s.pos - s.start) = true
  · let t := s.emit e (.accept s.matchStart s.pos)
    have ht : t.core = s.core := core_emit _ _ _
    have hregion : t.region e = s.region e := (accept_eq e ht).2.2.1
    refine ⟨{ t with best := some (s.pos - s.start, t.region e) }, ?_, ?_⟩
    · rw [longer, if_pos hlonger, ← hregion, ← ht]
      rfl
    · simp only [hlonger, ↓reduceIte, emit, bind_modify]
      rfl
  · refine ⟨s, ?_, ?_⟩
    · rw [longer, if_neg hlonger]
      rfl
    · simp only [hlonger, Bool.false_eq_true, ↓reduceIte]

end

/-- Whether a match is taken, passed over or collected does not depend on what has been collected
before. -/
theorem same_accept {b : Option (Nat × Region)} {m : Bool} {s t : State}
    (h : Resembles (.collected b) m s t) : Same (.collected b) m (accept e s) (accept e t) := by
  have halike := h
  obtain ⟨hm, tally, events, rfl⟩ := h
  let t := s.veiled tally (longer b s.best) events
  change Same (.collected b) m (accept e s) (accept e t)
  cases hpass : e.options.has .findNotEmpty && s.matchStart == s.pos with
  | true =>
    have refused {u : State} (h : (e.options.has .findNotEmpty && u.matchStart == u.pos) = true) :
        accept e u = backtrack e u := by
      simp only [accept, bind_get, h, ↓reduceIte]
    rw [refused hpass, refused (u := t) hpass]
    exact blind_backtrack hq halike
  | false =>
    have hpass' : (e.options.has .findNotEmpty && t.matchStart == t.pos) = false := hpass
    cases hlongest : e.options.has .findLongest with
    | false =>
      rw [accept_taken hpass hlongest, accept_taken hpass' hlongest]
      exact ⟨rfl, halike.of_core (core_emit ..) (core_emit ..), by rintro ⟨⟩, fun _ => trivial⟩
    | true =>
      by_cases hstart : s.pos < s.start
      · rw [accept_reversed hpass hlongest hstart, accept_reversed hpass' hlongest hstart]
        exact ⟨rfl, halike, by rintro ⟨⟩, by rintro ⟨⟩⟩
      · obtain ⟨s', hs', hs⟩ := accept_collects hpass hlongest hstart
        obtain ⟨t', ht', ht⟩ := accept_collects hpass' hlongest hstart
        let last : Option (Nat × Region) := some (s.pos - s.start, s.region e)
        have hcollected : Resembles (.collected b) m { s with best := longer s.best last }
            { t with best := longer t.best last } :=
          ⟨hm, tally, events, by dsimp only [Guise.collected]; rw [longer_assoc]; rfl⟩
        rw [hs, ht]
        exact blind_backtrack hq (hcollected.of_core hs' ht')

/-- Every instruction but those at which matches end does the same to states that are alike. -/
theorem blind_exec {r : Runner} (hr : Undisturbed r) {i : Instr} (hi : i ≠ .accept)
    (hi' : i ≠ .absentEnd) : Blind (exec r e i) :=
  pervades_exec (pervades_blind hq) (blind_takeAbsent hq hr) hi hi'

/-- A step does the same to states that are alike, as long as no match ends where none may. -/
theorem same_step {r : Runner} (hr : Undisturbed r) {v : Guise} {m : Bool} {s t : State}
    (hv : (∃ b, v = .collected b) ∨
      ∀ i, e.program.code[s.ip]? = some i → i ≠ .accept ∧ i ≠ .absentEnd)
    (h : Resembles v m s t) : Same v m (step r e s) (step r e t) := by
  have hip : t.ip = s.ip := by
    obtain ⟨-, tally, events, rfl⟩ := h
    rfl
  cases hi : e.program.code[s.ip]? with
  | none =>
    simp only [step, bind_get, hip, hi]
    exact ⟨rfl, h, by rintro ⟨⟩, by rintro ⟨⟩⟩
  | some i =>
    rw [step_fetched _ _ _ _ hi, step_fetched _ _ _ _ (hip ▸ hi)]
    have hfetched : Resembles v m (s.fetched e i) (t.fetched e i) :=
      h.of_core (core_fetched ..) (core_fetched ..)
    rcases hv with ⟨b, rfl⟩ | hv
    · by_cases hi : i = .accept
      · subst hi
        exact same_accept hq hfetched
      · by_cases hi' : i = .absentEnd
        · subst hi'
          exact ⟨rfl, hfetched, by rintro ⟨⟩, fun _ => trivial⟩
        · exact blind_exec hq hr hi hi' hfetched
    · exact blind_exec hq hr (hv i hi).1 (hv i hi).2 hfetched

omit hq in
theorem none_longer (b : Option (Nat × Region)) : longer none b = b := by
  cases b <;> rfl

omit hq in
/-- No run is interrupted. -/
theorem inner_undisturbed (n : Nat) : Undisturbed (inner n) := by
  have hrun : ∀ (e : Setting) (s : State), Quiet e → (run n e s).1 ≠ .interrupted := by
    induction n with
    | zero => exact fun _ _ _ => nofun
    | succ n ih =>
      intro e s hq
      have hself : Resembles (.collected none) s.memo.isSome s s :=
        ⟨rfl, s.tally, s.events, congrArg (s.veiled s.tally · s.events) (none_longer s.best).symm⟩
      have hinner : Undisturbed (inner n) := fun e a pos s => ih e (s.enter e a pos)
      have hsame := same_step hq hinner (Or.inl ⟨_, rfl⟩) hself
      rw [run_succ]
      cases hs : step (inner n) e s with
      | ok _ t => exact ih e t hq
      | error h t =>
        rw [hs] at hsame
        exact hsame.2.2.1
  exact fun e a pos s => hrun e (s.enter e a pos)

/-- Runs from states that are alike do the same. -/
theorem run_alike (n : Nat) {b : Option (Nat × Region)} {m : Bool} {s t : State}
    (h : Resembles (.collected b) m s t) :
    (run n e t).1 = (run n e s).1 ∧ Resembles (.collected b) m (run n e s).2 (run n e t).2 := by
  induction n generalizing s t with
  | zero => exact ⟨rfl, h⟩
  | succ n ih =>
    have hsame := same_step hq (inner_undisturbed n) (Or.inl ⟨_, rfl⟩) h
    rw [run_succ, run_succ]
    cases hs : step (inner n) e s <;> cases ht : step (inner n) e t <;> rw [hs, ht] at hsame
    case ok.ok => exact ih hsame.2
    case error.error => exact ⟨hsame.1, hsame.2.1⟩
    all_goals exact hsame.elim

/-- A step to no match collects none. -/
theorem step_best {r : Runner} (hr : Undisturbed r) {s : State}
    (hi : ∀ i, e.program.code[s.ip]? = some i → i ≠ .accept ∧ i ≠ .absentEnd) :
    match step r e s with
    | .ok _ t => t.best = s.best
    | .error h t => t.best = s.best ∧ h ≠ .interrupted ∧ h ≠ .accepted := by
  have hself : Resembles ⟨fun _ => s.best, False⟩ s.memo.isSome s s :=
    ⟨rfl, s.tally, s.events, rfl⟩
  have hsame := same_step hq hr (Or.inr hi) hself
  cases hs : step r e s with
  | ok _ t =>
    rw [hs] at hsame
    obtain ⟨-, -, tally, events, ht⟩ := hsame
    exact (congrArg State.best ht).trans rfl
  | error h t =>
    rw [hs] at hsame
    obtain ⟨-, ⟨-, tally, events, ht⟩, hne, hmatching⟩ := hsame
    exact ⟨(congrArg State.best ht).trans rfl, hne, hmatching⟩

end

end RegexMachine.Machine
