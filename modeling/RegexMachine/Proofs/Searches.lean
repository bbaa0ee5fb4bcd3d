import RegexMachine.Matcher
import RegexMachine.Proofs.Programs

/-!
Searches: what an attempt comes to where empty matches are passed over or the longest match is
wanted, and searches whose attempts answer alike.
-/
namespace RegexMachine
open Machine

namespace Trail

/-- Start that is reported for a way of an attempt. -/
def matchStart (t : Trail) (start : Nat) : Nat := min (t.keep.getD start) t.pos

def region (t : Trail) (start : Nat) (history : Bool) : Region :=
  .ofCaptures t.captures ⟨t.matchStart start, t.pos⟩ history

end Trail

/-- The match that an attempt ends with and the longest match so far, when it has tried these ways
in order. -/
def harvest (o : SearchOptions) (history : Bool) (start : Nat) :
    List Trail → Option (Nat × Region) → Option Region × Option (Nat × Region)
  | [], best => (none, best)
  | t :: ts, best =>
    if o.has .findNotEmpty && t.matchStart start == t.pos then harvest o history start ts best
    else if o.has .findLongest then
      harvest o history start ts
        (if best.all (·.1 < t.pos - start) then some (t.pos - start, t.region start history)
          else best)
    else (some (t.region start history), best)

namespace Machine

variable {e : Setting} {Good : Option Memo → Prop} {fate : Fate} {y : Addr} {base : Base}
  {p : Point} {t : Trail} {ts : List Trail} {best : Option (Nat × Region)}

/-- What trying these ways in order comes to. -/
def Setting.harvest (e : Setting) (start : Nat) :
    List Trail → Option (Nat × Region) → Option Region × Option (Nat × Region) :=
  RegexMachine.harvest e.options (e.program.has .captureHistory) start

/-- The run from a point ends with a match, or without one. -/
def Gathers (e : Setting) (Good : Option Memo → Prop) (p : Point)
    (r : Option Region × Option (Nat × Region)) : Prop :=
  ∃ d, p.Ends e (if r.1.isSome then .accepted else .exhausted) d ∧ d.best = r.2 ∧ Good d.memo ∧
    ∀ region, r.1 = some region → d.region e = region

theorem Gathers.move {q : Point} {r : Option Region × Option (Nat × Region)}
    (hr : Point.Reaches e p q) (h : Gathers e Good q r) : Gathers e Good p r := by
  obtain ⟨d, hends, hd⟩ := h
  exact ⟨d, hr.ends hends, hd⟩

/-- At the end of the program a core reports what its way does. -/
theorem Arrives.reports {c : Core} (h : Arrives e Good base .none y t c) :
    c.isRefused e =
        (e.options.has .findNotEmpty && t.matchStart base.core.start == t.pos) ∧
      c.region e = t.region base.core.start (e.program.has .captureHistory) := by
  have hpos := h.follows.pos
  have hstart : c.matchStart = t.matchStart base.core.start := by
    rw [Core.matchStart, Trail.matchStart, h.follows.keep, h.above.start, hpos]
  rw [Core.isRefused, Core.region, Trail.region, hstart, hpos, h.follows.captures.eq]
  exact ⟨rfl, rfl⟩

/-- At the end of the program ways are taken or passed over. All ways are tried, unless the first
one that is tried ends the match. -/
theorem Yields.gathers (h : Yields e Good fate y base .none p ts)
    (hend : e.program.code[y]? = some .accept) (hframes : base.core.frames = [])
    (hfull : ∀ i, ¬ fate.spare i)
    (hlive : (e.options.has .findNotEmpty = false ∧ e.options.has .findLongest = false) ∨
      ∀ i, ¬ fate.live i)
    (hforward : ∀ t ∈ ts, base.core.start ≤ t.pos) (hbest : p.core.best = best) :
    Gathers e Good p (e.harvest base.core.start ts best) := by
  induction h generalizing best with
  | @done c hc =>
    exact ⟨c, Point.ends_exhausted e c (hc.frames.trans hframes), hbest, hc.memo, by rintro _ ⟨⟩⟩
  | move hr hb _ ih => exact (ih hforward (hb.trans hbest)).move hr
  | @result c t ts hc _ ih =>
    have hi : e.program.code[c.ip]? = some .accept := by rw [hc.ip, hend]
    obtain ⟨hrefused, hregion⟩ := hc.reports
    have hstart : base.core.start ≤ t.pos := hforward t (by simp)
    have hlater : ∀ u ∈ ts, base.core.start ≤ u.pos := fun u hu => hforward u (by simp [hu])
    have next {d : Core} (hd : Restored Good .none c d) (hnot : ¬ fate.live t.pos)
        (hmove : Point.Moves e (.going c) (.failing d)) {best : Option (Nat × Region)}
        (hb : d.best = best) :
        Gathers e Good (.going c) (e.harvest base.core.start ts best) :=
      (ih d hd hnot hlater hb).move (.single hmove)
    unfold Setting.harvest harvest
    rw [← hrefused]
    cases hpass : c.isRefused e with
    | true =>
      have hnot : ¬ fate.live t.pos := by
        refine hlive.elim (fun h => ?_) fun h => h _
        rw [Core.isRefused, h.1] at hpass
        cases hpass
      exact next ⟨rfl, .refl _ _, rfl, hc.memo⟩ hnot (moves_accept_refused hi hpass) hbest
    | false =>
      cases hlongest : e.options.has .findLongest with
      | true =>
        have hnot : ¬ fate.live t.pos :=
          hlive.elim (fun h => absurd hlongest (by simp [h.2])) fun h => h _
        refine next (d := { c with best := c.longest e }) ⟨rfl, .refl _ _, rfl, hc.memo⟩ hnot
          (moves_accept_longest hi hpass hlongest ?_) ?_
        · rw [hc.above.start, hc.follows.pos]
          exact hstart
        · change c.longest e = _
          rw [Core.longest, hregion, hc.above.start, hc.follows.pos]
          rw [show c.best = best from hbest]
      | false =>
        exact ⟨c, ends_accept hi hpass hlongest, hbest, hc.memo,
          fun _ h => hregion.trans (Option.some.inj h)⟩
  | drop hspare _ _ => exact absurd hspare (hfull _)

/-! ## Attempts -/

/-- No attempt is made once the signal has been raised. -/
theorem tryAt_signal {clock pos : Nat} {s : State} (h : e.signal s.tally.begun = true) :
    tryAt clock e pos s = .ok (some .interrupted) s := by
  change (ite (e.signal s.tally.begun = true) _ _ : Search (Option SearchOutcome)) s = _
  rw [if_pos h]
  rfl

/-- An attempt answers by the way its run has ended. -/
theorem tryAt_eq {clock pos : Nat} {s : State} (h : e.signal s.tally.begun = false) :
    tryAt clock e pos s =
      match attempt clock e pos s with
      | (.accepted, s) => .ok (some (.found (s.region e))) s
      | (.exhausted, s) => .ok none s
      | (.interrupted, s) => .ok (some .interrupted) s
      | (.limit error, s) => .error (.limit error) s
      | (.fault f, s) => .error (.fault f) s
      | (.late, s) => .error .late s := by
  have hattempt : (modifyGet (attempt clock e pos) : Search Halt) s =
      .ok (attempt clock e pos s).1 (attempt clock e pos s).2 := rfl
  change (ite (e.signal s.tally.begun = true) _ _ : Search (Option SearchOutcome)) s = _
  rw [if_neg (by simp [h])]
  simp only [bind, EStateM.bind, hattempt]
  obtain ⟨halt, s'⟩ := attempt clock e pos s
  cases halt <;> rfl

/-- The answer of an attempt, given time enough. -/
theorem tryAt_gathers (hq : Quiet e) {pos : Nat} {s : State}
    {r : Option Region × Option (Nat × Region)}
    (h : Gathers e Good (.going (s.enter e 0 pos).core) r) :
    ∃ N s', s'.best = r.2 ∧ Good s'.memo ∧
      ∀ clock, N ≤ clock → tryAt clock e pos s = .ok (r.1.map .found) s' := by
  obtain ⟨d, hends, hbest, hmemo, hregion⟩ := h
  obtain ⟨N, s', rfl, hrun⟩ := hends ((s.enter e 0 pos).emit e (.start pos)) (core_emit _ _ _)
  have hsignal := hq.signal s.tally.begun
  obtain ⟨found, best⟩ := r
  cases found with
  | none =>
    have hcore := core_emit s' e (.exhausted pos)
    refine ⟨N, s'.emit e (.exhausted pos), (congrArg Core.best hcore).trans hbest,
      (congrArg (fun c => Good c.memo) hcore).mpr hmemo, fun clock hn => ?_⟩
    rw [tryAt_eq hsignal, attempt, hrun clock hn]
    rfl
  | some region =>
    refine ⟨N, s', hbest, hmemo, fun clock hn => ?_⟩
    rw [tryAt_eq hsignal, attempt, hrun clock hn, ← hregion region rfl]
    rfl

/-! ## Searches that answer alike -/

/-- What a search comes to, whatever it leaves behind. -/
def answer : EStateM.Result SearchError State SearchOutcome → Except SearchError SearchOutcome
  | .ok o _ => .ok o
  | .error x _ => .error x

/-- The same value, or errors that count as one. -/
def Agree {α : Type} (S : SearchError → SearchError → Prop) :
    Except SearchError α → Except SearchError α → Prop
  | .ok a, r => r = .ok a
  | .error x, r => ∃ x', r = .error x' ∧ S x x'

/-- Two settings in which the same starts are tried. From states that are related an attempt answers
the same in both, and leaves related states if the search goes on, or both fail. -/
structure Peers (e e' : Setting) (R : State → State → Prop) (S : SearchError → SearchError → Prop) :
    Prop where
  subject : e'.subject = e.subject
  origin : e'.origin = e.origin
  options : e'.options = e.options
  hints : e'.program.tables.hints = e.program.tables.hints
  best : ∀ {s s'}, R s s' → s'.best = s.best
  tries : ∀ {pos s s'}, pos ≤ e.subject.size → R s s' → ∃ N,
    (∃ o t t', (o = none → R t t') ∧
      ∀ clock, N ≤ clock → tryAt clock e pos s = .ok o t ∧ tryAt clock e' pos s' = .ok o t') ∨
    ∀ clock, N ≤ clock → ∃ x x' t t', S x x' ∧
      tryAt clock e pos s = .error x t ∧ tryAt clock e' pos s' = .error x' t'

/-- The answer of an attempt, or else of what comes after it. -/
def orElse (x : Search (Option SearchOutcome)) (rest : Search SearchOutcome) :
    Search SearchOutcome :=
  x >>= fun
    | some o => pure o
    | none => rest

theorem forwardFrom_eq (clock : Nat) (e : Setting) (last pos : Nat) :
    forwardFrom clock e last pos =
      if last < pos then takeBest
      else
        match candidate? e pos with
        | none => takeBest
        | some c =>
          if last < c then takeBest
          else if c < pos then forwardFrom clock e last (e.subject.next pos)
          else
            orElse (tryAt clock e c)
              (if e.subject.atEnd c then takeBest
              else forwardFrom clock e last (e.subject.next c)) := by
  rw [forwardFrom]
  rfl

theorem backwardFrom_eq (clock : Nat) (e : Setting) (first pos : Nat) :
    backwardFrom clock e first pos =
      if pos < first then takeBest
      else
        orElse (if allowed e pos then tryAt clock e pos else pure none)
          (match e.subject.prev? pos with
          | none => takeBest
          | some p => backwardFrom clock e first p) := by
  rw [backwardFrom]
  split
  · rfl
  · unfold orElse
    by_cases hok : allowed e pos = true
    · simp only [if_pos hok]
      refine bind_congr fun o => ?_
      cases o with
      | some o => rfl
      | none =>
        dsimp only
        split <;> simp_all
    · simp only [if_neg hok, pure_bind]
      split <;> simp_all

theorem lastStart?_le {last l : Nat} (h : lastStart? e last = some l) : l ≤ e.subject.size := by
  unfold lastStart? at h
  dsimp only at h
  split at h
  · cases h
  · split at h
    · cases h
    · cases h
      exact Nat.le_trans (Nat.min_le_right _ _) (Nat.sub_le _ _)

namespace Peers

variable {e' : Setting} {R : State → State → Prop} {S : SearchError → SearchError → Prop}
  {s s' : State} {last first pos : Nat}

theorem takeBest (h : Peers e e' R S) (hs : R s s') :
    Agree S (answer (Machine.takeBest s)) (answer (Machine.takeBest s')) := by
  change Except.ok _ = Except.ok _
  rw [h.best hs]

/-- Attempts that answer alike, and then what does so too. -/
theorem orElse {x x' : Nat → Search (Option SearchOutcome)} {rest rest' : Nat → Search SearchOutcome}
    (hx : ∃ N,
      (∃ o t t', (o = none → R t t') ∧
        ∀ clock, N ≤ clock → x clock s = .ok o t ∧ x' clock s' = .ok o t') ∨
      ∀ clock, N ≤ clock → ∃ y y' t t', S y y' ∧ x clock s = .error y t ∧ x' clock s' = .error y' t')
    (hrest : ∀ t t', R t t' →
      ∃ N, ∀ clock, N ≤ clock → Agree S (answer (rest clock t)) (answer (rest' clock t'))) :
    ∃ N, ∀ clock, N ≤ clock → Agree S (answer (Machine.orElse (x clock) (rest clock) s))
      (answer (Machine.orElse (x' clock) (rest' clock) s')) := by
  obtain ⟨N, ⟨o, t, t', ht, hx⟩ | hx⟩ := hx
  · cases o with
    | some o =>
      refine ⟨N, fun clock hn => ?_⟩
      rw [Machine.orElse, Machine.orElse, bind_ok (hx clock hn).1, bind_ok (hx clock hn).2]
      exact rfl
    | none =>
      obtain ⟨M, hM⟩ := hrest t t' (ht rfl)
      refine ⟨max N M, fun clock hn => ?_⟩
      have hx := hx clock (by omega)
      rw [Machine.orElse, Machine.orElse, bind_ok hx.1, bind_ok hx.2]
      exact hM clock (by omega)
  · refine ⟨N, fun clock hn => ?_⟩
    obtain ⟨y, y', t, t', hy, hx, hx'⟩ := hx clock hn
    rw [Machine.orElse, Machine.orElse]
    simp only [bind, EStateM.bind, hx, hx']
    exact ⟨y', rfl, hy⟩

theorem candidate?_eq (h : Peers e e' R S) (pos : Nat) : candidate? e' pos = candidate? e pos := by
  rw [candidate?, candidate?, h.hints, h.subject]

theorem forwardFrom (h : Peers e e' R S) (hs : R s s') (hlast : last ≤ e.subject.size) :
    ∃ N, ∀ clock, N ≤ clock → Agree S (answer (Machine.forwardFrom clock e last pos s))
      (answer (Machine.forwardFrom clock e' last pos s')) := by
  -- Each start lies further on.
  induction hn : last + 1 - pos using Nat.strongRecOn generalizing pos s s' with
  | _ n ih =>
    have stop {clock : Nat} (hstop : Machine.forwardFrom clock e last pos = Machine.takeBest)
        (hstop' : Machine.forwardFrom clock e' last pos = Machine.takeBest) :
        Agree S (answer (Machine.forwardFrom clock e last pos s))
          (answer (Machine.forwardFrom clock e' last pos s')) := by
      rw [hstop, hstop']
      exact h.takeBest hs
    have hstep clock := Machine.forwardFrom_eq clock e last pos
    have hstep' clock := Machine.forwardFrom_eq clock e' last pos
    simp only [h.candidate?_eq, h.subject] at hstep'
    by_cases hpast : last < pos
    · simp only [if_pos hpast] at hstep hstep'
      exact ⟨0, fun clock _ => stop (hstep clock) (hstep' clock)⟩
    simp only [if_neg hpast] at hstep hstep'
    cases hc : candidate? e pos with
    | none =>
      simp only [hc] at hstep hstep'
      exact ⟨0, fun clock _ => stop (hstep clock) (hstep' clock)⟩
    | some c =>
      simp only [hc] at hstep hstep'
      by_cases hfar : last < c
      · simp only [if_pos hfar] at hstep hstep'
        exact ⟨0, fun clock _ => stop (hstep clock) (hstep' clock)⟩
      simp only [if_neg hfar] at hstep hstep'
      by_cases hback : c < pos
      · simp only [if_pos hback] at hstep hstep'
        have hlt := Subject.lt_next e.subject pos
        obtain ⟨N, hN⟩ := ih (last + 1 - e.subject.next pos) (by omega) hs rfl
        refine ⟨N, fun clock hn => ?_⟩
        rw [hstep, hstep']
        exact hN clock hn
      simp only [if_neg hback] at hstep hstep'
      simp only [hstep, hstep']
      refine orElse (h.tries (Nat.le_trans (Nat.not_lt.mp hfar) hlast) hs) fun t t' ht => ?_
      by_cases hend : e.subject.atEnd c = true
      · simp only [if_pos hend]
        exact ⟨0, fun _ _ => h.takeBest ht⟩
      · simp only [if_neg hend]
        have hlt := Subject.lt_next e.subject c
        exact ih (last + 1 - e.subject.next c) (by omega) ht rfl

theorem forward (h : Peers e e' R S) (hs : R s s') (last : Nat) :
    ∃ N, ∀ clock, N ≤ clock → Agree S (answer (Machine.forward clock e last s))
      (answer (Machine.forward clock e' last s')) := by
  have hlast? : lastStart? e' last = lastStart? e last := by
    rw [lastStart?, lastStart?, h.hints, h.subject, h.origin, h.options]
  simp only [Machine.forward, hlast?, h.subject, h.origin]
  cases hl : lastStart? e last with
  | none => exact ⟨0, fun _ _ => rfl⟩
  | some l => exact h.forwardFrom hs (lastStart?_le hl)

theorem backwardFrom (h : Peers e e' R S) (first : Nat) (hs : R s s')
    (hpos : pos ≤ e.subject.size) :
    ∃ N, ∀ clock, N ≤ clock → Agree S (answer (Machine.backwardFrom clock e first pos s))
      (answer (Machine.backwardFrom clock e' first pos s')) := by
  induction pos using Nat.strongRecOn generalizing s s' with
  | _ pos ih =>
    have hstep clock := Machine.backwardFrom_eq clock e first pos
    have hstep' clock := Machine.backwardFrom_eq clock e' first pos
    have hallowed : allowed e' pos = allowed e pos := by
      rw [allowed, allowed, h.hints, h.subject, h.origin]
    simp only [hallowed, h.subject] at hstep'
    by_cases hpast : pos < first
    · refine ⟨0, fun clock _ => ?_⟩
      rw [hstep, hstep', if_pos hpast, if_pos hpast]
      exact h.takeBest hs
    simp only [hstep, hstep', if_neg hpast]
    refine orElse (R := R) ?_ fun t t' ht => ?_
    · by_cases hok : allowed e pos = true
      · simp only [if_pos hok]
        exact h.tries hpos hs
      · simp only [if_neg hok]
        exact ⟨0, .inl ⟨none, s, s', fun _ => hs, fun _ _ => ⟨rfl, rfl⟩⟩⟩
    · cases hp : e.subject.prev? pos with
      | none => exact ⟨0, fun _ _ => h.takeBest ht⟩
      | some p =>
        have hlt := Subject.prev?_lt hp
        exact ih p hlt ht (Nat.le_trans (Nat.le_of_lt hlt) hpos)

end Peers

/-! ## Searches that answer the same -/

/-- Two settings in which the same starts are tried, with the same answers in states that are
related. -/
structure Twins (e e' : Setting) (R : State → State → Prop) : Prop where
  subject : e'.subject = e.subject
  origin : e'.origin = e.origin
  options : e'.options = e.options
  hints : e'.program.tables.hints = e.program.tables.hints
  best : ∀ {s s'}, R s s' → s'.best = s.best
  tries : ∀ {pos s s'}, pos ≤ e.subject.size → R s s' → ∃ N o t t', R t t' ∧
    ∀ clock, N ≤ clock → tryAt clock e pos s = .ok o t ∧ tryAt clock e' pos s' = .ok o t'

namespace Twins

variable {e' : Setting} {R : State → State → Prop} {s s' : State} {first pos : Nat}

theorem peers (h : Twins e e' R) : Peers e e' R fun _ _ => False where
  subject := h.subject
  origin := h.origin
  options := h.options
  hints := h.hints
  best := h.best
  tries hpos hs := by
    obtain ⟨N, o, t, t', htries⟩ := h.tries hpos hs
    exact ⟨N, .inl ⟨o, t, t', fun _ => htries.1, htries.2⟩⟩

theorem eq_of_agree {α : Type} {r r' : Except SearchError α} (h : Agree (fun _ _ => False) r r') :
    r' = r := by
  cases r with
  | ok a => exact h
  | error x =>
    obtain ⟨_, _, hfalse⟩ := h
    exact hfalse.elim

theorem forward_eq (h : Twins e e' R) (hs : R s s') (last : Nat) :
    ∃ N, ∀ clock, N ≤ clock →
      answer (forward clock e' last s') = answer (forward clock e last s) := by
  obtain ⟨N, hN⟩ := h.peers.forward hs last
  exact ⟨N, fun clock hn => eq_of_agree (hN clock hn)⟩

theorem backwardFrom_eq (h : Twins e e' R) (hs : R s s') (hpos : pos ≤ e.subject.size) :
    ∃ N, ∀ clock, N ≤ clock →
      answer (backwardFrom clock e' first pos s') = answer (backwardFrom clock e first pos s) := by
  obtain ⟨N, hN⟩ := h.peers.backwardFrom first hs hpos
  exact ⟨N, fun clock hn => eq_of_agree (hN clock hn)⟩

end Twins

end Machine

theorem Subject.leftAdjust_le_size (s : Subject) (i : Nat) : s.leftAdjust i ≤ s.size := by
  unfold leftAdjust
  split
  · exact Nat.le_refl _
  · rename_i h
    have hlt : i < s.size := by simpa [atEnd] using h
    exact Nat.le_trans (s.encoding.leftAdjust_le s.bytes i) (Nat.le_of_lt hlt)

/-- A search of a matcher answers what it comes to from its beginning. -/
theorem Matcher.runSearch_result (m : Matcher) (e : Setting) (search : Search SearchOutcome)
    (log : SearchOutcome → State → List LogRecord) :
    (m.runSearch e search log).result = answer (search (Matcher.begin m.state e)) := by
  unfold runSearch
  cases search (begin m.state e) <;> rfl

theorem Matcher.searchWith_result (m : Matcher) {start range : Nat} (o : SearchOptions) (w : Watch)
    (clock : Nat) (h : ¬ (m.subject.size < start || m.subject.size < range) = true) :
    (m.searchWith start range o w clock).result =
      answer ((if start ≤ range then forward clock (m.setting start o w) range
        else backward clock (m.setting start o w) range) (begin m.state (m.setting start o w))) := by
  rw [searchWith, if_neg h]
  exact runSearch_result _ _ _ _

end RegexMachine
