import RegexMachine.Proofs.Searches

/-!
Matchers used again. An attempt begins with a clean state and a search with a clean account of its
own, so what earlier searches have left behind, however they ended, shows in no later one.
-/
namespace RegexMachine

namespace Machine

/-- States alike in what belongs to a search, and not to one of its attempts. -/
structure State.Resumes (s t : State) : Prop where
  tally : t.tally = s.tally
  memo : t.memo = s.memo
  best : t.best = s.best
  events : t.events = s.events

namespace State.Resumes

variable {s t : State}

theorem refl (s : State) : s.Resumes s := ⟨rfl, rfl, rfl, rfl⟩

/-- All else is set anew where an attempt begins. -/
theorem enter_eq (h : s.Resumes t) (e : Setting) (entry : Addr) (pos : Nat) :
    t.enter e entry pos = s.enter e entry pos := by
  rw [enter, enter, h.tally, h.memo, h.best, h.events]

end State.Resumes

/-- The same answer, with states left that are alike in what belongs to the search. -/
inductive Concurs {α : Type} :
    EStateM.Result SearchError State α → EStateM.Result SearchError State α → Prop
  | ok {s t : State} (a : α) (h : s.Resumes t) : Concurs (.ok a s) (.ok a t)
  | error {s t : State} (x : SearchError) (h : s.Resumes t) : Concurs (.error x s) (.error x t)

theorem Concurs.refl {α : Type} (r : EStateM.Result SearchError State α) : Concurs r r := by
  cases r with
  | ok a s => exact .ok a (.refl s)
  | error x s => exact .error x (.refl s)

/-- A part of a search that sees nothing of the state but what belongs to the search. -/
def Unmindful {α : Type} (x : Search α) : Prop := ∀ s t, s.Resumes t → Concurs (x s) (x t)

variable {e : Setting} {clock : Nat}

theorem unmindful_pure {α : Type} (a : α) : Unmindful (pure a : Search α) := fun _ _ h => .ok a h

theorem unmindful_takeBest : Unmindful takeBest := by
  intro s t h
  have hkept : ({ s with best := none } : State).Resumes { t with best := none } :=
    ⟨h.tally, h.memo, rfl, h.events⟩
  change Concurs (.ok ((s.best.map fun b => SearchOutcome.found b.2).getD .notFound) _)
    (.ok ((t.best.map fun b => SearchOutcome.found b.2).getD .notFound) _)
  rw [h.best]
  exact .ok _ hkept

/-- Where no interrupt stops it an attempt sets the state anew, and from there on it is one and the
same run. -/
theorem unmindful_tryAt (pos : Nat) : Unmindful (tryAt clock e pos) := by
  intro s t h
  cases hs : e.signal s.tally.begun with
  | true =>
    have ht : e.signal t.tally.begun = true := by rw [h.tally, hs]
    rw [tryAt_signal hs, tryAt_signal ht]
    exact .ok _ h
  | false =>
    have ht : e.signal t.tally.begun = false := by rw [h.tally, hs]
    have hattempt : attempt clock e pos t = attempt clock e pos s := by
      rw [attempt, attempt, h.enter_eq]
    rw [tryAt_eq hs, tryAt_eq ht, hattempt]
    exact .refl _

theorem Unmindful.orElse {x : Search (Option SearchOutcome)} {rest : Search SearchOutcome}
    (hx : Unmindful x) (hrest : Unmindful rest) : Unmindful (orElse x rest) := by
  intro s t h
  have hxs := hx s t h
  unfold Machine.orElse
  simp only [bind, EStateM.bind]
  generalize x s = r, x t = r' at hxs
  cases hxs with
  | ok a h' =>
    cases a with
    | some o => exact .ok o h'
    | none => exact hrest _ _ h'
  | error y h' => exact .error y h'

/-- Each start lies further on than the one before. -/
theorem unmindful_forwardFrom (last pos : Nat) : Unmindful (forwardFrom clock e last pos) := by
  induction hn : last + 1 - pos using Nat.strongRecOn generalizing pos with
  | _ n ih =>
    have hnext : ∀ c, pos ≤ c → c ≤ last →
        Unmindful (forwardFrom clock e last (e.subject.next c)) := by
      intro c hc hlast
      have := e.subject.lt_next c
      exact ih _ (by omega) _ rfl
    rw [forwardFrom_eq]
    split
    · exact unmindful_takeBest
    · split
      · exact unmindful_takeBest
      · split
        · exact unmindful_takeBest
        · split
          · exact hnext pos (by omega) (by omega)
          · refine (unmindful_tryAt _).orElse ?_
            split
            · exact unmindful_takeBest
            · exact hnext _ (by omega) (by omega)

theorem unmindful_forward (last : Nat) : Unmindful (forward clock e last) := by
  unfold forward
  split
  · exact unmindful_pure _
  · exact unmindful_forwardFrom _ _

theorem unmindful_backwardFrom (first pos : Nat) :
    Unmindful (backwardFrom clock e first pos) := by
  induction pos using Nat.strongRecOn with
  | _ pos ih =>
    rw [backwardFrom_eq]
    split
    · exact unmindful_takeBest
    · refine Unmindful.orElse ?_ ?_
      · split
        · exact unmindful_tryAt pos
        · exact unmindful_pure none
      · split
        · exact unmindful_takeBest
        · rename_i p hp
          exact ih p (Subject.prev?_lt hp)

theorem unmindful_backward (first : Nat) : Unmindful (backward clock e first) :=
  unmindful_backwardFrom _ _

end Machine

open Machine

/-! ## Searches one after another -/

/-- What a matcher can be asked. -/
inductive Query where
  | search (start range : Nat) (o : SearchOptions) (w : Watch) (clock : Nat)
  | matchAt (pos : Nat) (o : SearchOptions) (w : Watch)

/-- All that a report says of its search. The state in which it leaves the matcher is left out. -/
def SearchReport.contents (r : SearchReport) :
    Except SearchError SearchOutcome × List LogRecord × Array Event × Nat :=
  (r.result, r.log, r.events, r.begun)

namespace Matcher

def ask (m : Matcher) : Query → SearchReport
  | .search start range o w clock => m.searchWith start range o w clock
  | .matchAt pos o w => m.matchAt pos o w

/-- A matcher after it has been asked this and that. -/
def asked (m : Matcher) (earlier : List Query) : Matcher :=
  earlier.foldl (fun m q => (m.ask q).matcher) m

/-- Matchers for the same searches, whatever state they are in. -/
structure Equips (m m' : Matcher) : Prop where
  program : m'.program = m.program
  subject : m'.subject = m.subject
  limits : m'.limits = m.limits

variable {m m' : Matcher} {e : Setting} {search : Search SearchOutcome}
  {log : SearchOutcome → State → List LogRecord}

theorem runSearch_equips (m : Matcher) : m.Equips (m.runSearch e search log).matcher := by
  unfold runSearch
  split <;> exact ⟨rfl, rfl, rfl⟩

theorem ask_equips (m : Matcher) (q : Query) : m.Equips (m.ask q).matcher := by
  cases q with
  | search start range o w clock =>
    simp only [ask, searchWith]
    split
    · exact ⟨rfl, rfl, rfl⟩
    · exact m.runSearch_equips
  | matchAt pos o w =>
    simp only [ask, matchAt]
    split
    · exact ⟨rfl, rfl, rfl⟩
    · exact m.runSearch_equips

theorem asked_equips (m : Matcher) (earlier : List Query) : m.Equips (m.asked earlier) := by
  induction earlier generalizing m with
  | nil => exact ⟨rfl, rfl, rfl⟩
  | cons q earlier ih =>
    have hq := m.ask_equips q
    have hrest := ih (m.ask q).matcher
    exact ⟨hrest.program.trans hq.program, hrest.subject.trans hq.subject,
      hrest.limits.trans hq.limits⟩

/-- A search that sees only what belongs to it reports the same wherever it begins. -/
theorem runSearch_contents (hsearch : Unmindful search)
    (hlog : ∀ o s t, s.Resumes t → log o t = log o s) :
    (m'.runSearch e search log).contents = (m.runSearch e search log).contents := by
  have h : Concurs (search (begin m.state e)) (search (begin m'.state e)) :=
    hsearch _ _ ⟨rfl, rfl, rfl, rfl⟩
  unfold runSearch
  generalize search (begin m.state e) = r, search (begin m'.state e) = r' at h
  cases h with
  | ok o h' => simp only [SearchReport.contents, hlog o _ _ h', h'.events, h'.tally]
  | error x h' => simp only [SearchReport.contents, h'.events, h'.tally]

theorem Equips.setting_eq (h : m.Equips m') (origin : Nat) (o : SearchOptions) (w : Watch) :
    m'.setting origin o w = m.setting origin o w := by
  rw [setting, setting, h.program, h.subject, h.limits]

theorem Equips.ask_contents (h : m.Equips m') (q : Query) :
    (m'.ask q).contents = (m.ask q).contents := by
  cases q with
  | search start range o w clock =>
    simp only [ask, searchWith, h.subject, h.setting_eq]
    split
    · rfl
    · refine runSearch_contents ?_ fun o s t hst => by rw [hst.tally]
      split
      · exact unmindful_forward _
      · exact unmindful_backward _
  | matchAt pos o w =>
    simp only [ask, matchAt, h.subject, h.setting_eq]
    split
    · rfl
    · exact runSearch_contents ((unmindful_tryAt pos).orElse unmindful_takeBest) fun _ _ _ _ => rfl

/-- Whatever a matcher has been asked before, it answers as a new one does. -/
theorem asked_contents (p : Program) (subject : Bytes) (limits : MatchLimits)
    (earlier : List Query) (q : Query) :
    (((new p subject limits).asked earlier).ask q).contents =
      ((new p subject limits).ask q).contents :=
  ((new p subject limits).asked_equips earlier).ask_contents q

end Matcher
end RegexMachine
