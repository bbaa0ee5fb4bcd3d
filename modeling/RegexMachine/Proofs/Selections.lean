import Mathlib.Data.List.MinMax
import RegexMachine.Proofs.Generated
import RegexMachine.Proofs.SoundHints

/-!
What a search selects. An attempt for which each acceptance is a failure comes to all its accepting
paths, one after another. The match that a search finds is the first of them, or the longest, once
those are left out that are empty where none may be.
-/
namespace RegexMachine
namespace Machine

/-! ## Accepting paths -/

/-- A path of an attempt at the end of the program. -/
structure Acceptance where
  /-- Where the attempt began. -/
  start : Nat
  stop : Nat
  /-- Start that is reported. -/
  reported : Nat
  region : Region
deriving DecidableEq, Repr

namespace Acceptance

def length (a : Acceptance) : Nat := a.stop - a.start

/-- Whether a search may find it. -/
def counts (o : SearchOptions) (a : Acceptance) : Bool :=
  !(o.has .findNotEmpty && a.reported == a.stop)

end Acceptance

def State.acceptance (s : State) (e : Setting) : Acceptance :=
  ⟨s.start, s.pos, s.matchStart, s.region e⟩

/-- The accepting paths of a run in the order in which backtracking comes to them, if each of them is
taken for a failure, and why that run stops in the end. -/
def acceptances : Nat → Setting → State → List Acceptance × Halt
  | 0, _, _ => ([], .late)
  | n + 1, e, s =>
    if e.program.code[s.ip]? = some .accept then
      match backtrack e s with
      | .ok _ t => (s.acceptance e :: (acceptances n e t).1, (acceptances n e t).2)
      | .error h _ => ([s.acceptance e], h)
    else
      match step (inner n) e s with
      | .ok _ t => acceptances n e t
      | .error h _ => ([], h)

/-- Those of attempts at some starts, in order, up to the first attempt that is not decided. No
attempt remembers anything of another one. -/
def acceptancesAt (clock : Nat) (e : Setting) : List Nat → List Acceptance × Halt
  | [] => ([], .exhausted)
  | p :: ps =>
    let x := acceptances clock e (State.initial.enter e 0 p)
    if x.2 = .exhausted then
      (x.1 ++ (acceptancesAt clock e ps).1, (acceptancesAt clock e ps).2)
    else x

/-- What a search answers that stops without a match. -/
def Halt.verdict : Halt → Except SearchError SearchOutcome
  | accepted | exhausted => .ok .notFound
  | interrupted => .ok .interrupted
  | limit l => .error (.limit l)
  | fault f => .error (.fault f)
  | late => .error .late

/-- The first acceptance that counts or, where the longest match is wanted and all attempts are
decided, the first one of those that are longest. -/
def preferred (o : SearchOptions) (x : List Acceptance × Halt) : Option Acceptance :=
  let counted := x.1.filter (·.counts o)
  if o.has .findLongest then
    if x.2 = .exhausted then counted.argmax Acceptance.length else none
  else counted.head?

def selected (o : SearchOptions) (x : List Acceptance × Halt) : Except SearchError SearchOutcome :=
  match preferred o x with
  | some a => .ok (.found a.region)
  | none => x.2.verdict

/-! ## Taking acceptances one by one -/

/-- The match that ends a search at one of these acceptances, and the longest match when they have
been passed. -/
def reap (o : SearchOptions) : List Acceptance → Option (Nat × Region) →
    Option Region × Option (Nat × Region)
  | [], best => (none, best)
  | a :: as, best =>
    if a.counts o then
      if o.has .findLongest then reap o as (longer best (some (a.length, a.region)))
      else (some a.region, best)
    else reap o as best

variable {o : SearchOptions}

theorem reap_append (as bs : List Acceptance) (best : Option (Nat × Region)) :
    reap o (as ++ bs) best =
      match reap o as best with
      | (some r, b) => (some r, b)
      | (none, b) => reap o bs b := by
  induction as generalizing best with
  | nil => rfl
  | cons a as ih =>
    rw [List.cons_append, reap, reap]
    split
    · split
      · exact ih _
      · rfl
    · exact ih _

/-- Where the longest match is not wanted the first acceptance that counts ends the search. -/
theorem reap_first (h : o.has .findLongest = false) (as : List Acceptance)
    (best : Option (Nat × Region)) :
    reap o as best = (((as.filter (·.counts o)).head?).map Acceptance.region, best) := by
  induction as with
  | nil => rfl
  | cons a as ih =>
    rw [reap, List.filter_cons, h]
    split
    · rfl
    · exact ih

theorem longer_measured (b : Option Acceptance) (a : Acceptance) :
    longer (b.map fun a => (a.length, a.region)) (some (a.length, a.region)) =
      (List.argAux (fun b c : Acceptance => c.length < b.length) b a).map
        fun a => (a.length, a.region) := by
  cases b with
  | none => rfl
  | some c => grind [longer, List.argAux]

/-- Where it is wanted no acceptance does, and the first of the longest ones is kept. -/
theorem reap_longest (h : o.has .findLongest = true) (as : List Acceptance) (b : Option Acceptance) :
    reap o as (b.map fun a => (a.length, a.region)) =
      (none, ((as.filter (·.counts o)).foldl
        (List.argAux fun b c : Acceptance => c.length < b.length) b).map
          fun a => (a.length, a.region)) := by
  induction as generalizing b with
  | nil => rfl
  | cons a as ih =>
    rw [reap, List.filter_cons, h]
    split
    · rw [List.foldl_cons, ← ih, longer_measured]
      rfl
    · exact ih b

/-- What acceptances taken one by one come to is what is selected of all of them. -/
theorem selected_eq (o : SearchOptions) (x : List Acceptance × Halt) :
    selected o x =
      match reap o x.1 none with
      | (some r, _) => .ok (.found r)
      | (none, b) =>
        if x.2 = .exhausted then .ok ((b.map fun b => .found b.2).getD .notFound)
        else x.2.verdict := by
  unfold selected preferred
  cases hlongest : o.has .findLongest with
  | true =>
    have hreap : reap o x.1 none = _ := reap_longest hlongest x.1 none
    rw [hreap, ← List.argmax, if_pos rfl]
    by_cases hh : x.2 = .exhausted
    · simp only [hh, ↓reduceIte]
      cases (x.1.filter (·.counts o)).argmax Acceptance.length <;> rfl
    · simp only [hh, ↓reduceIte]
  | false =>
    rw [reap_first hlongest, if_neg Bool.false_ne_true]
    cases (x.1.filter (·.counts o)).head? with
    | some a => rfl
    | none =>
      by_cases hh : x.2 = .exhausted
      · simp [hh, Halt.verdict]
      · simp [hh]

/-! ## Runs -/

variable {p : Program} {l : Compile.Layout} {root : Node Measured} {scale : Scale} {strict : Prop}
  {e : Setting} {st s t : State} {b : Option (Nat × Region)} {pos clock : Nat}

/-- A state without a memory of guards in which nothing has been collected, and one that differs
from it in what has been, and in the work done. -/
abbrev Bare (b : Option (Nat × Region)) (s t : State) : Prop :=
  Resembles ⟨fun _ => b, False⟩ false s t

theorem Bare.best (h : Bare b s t) : t.best = b := by
  obtain ⟨-, tally, events, rfl⟩ := h
  rfl

theorem Bare.memo (h : Bare b s t) : t.memo = none := by
  obtain ⟨hm, tally, events, rfl⟩ := h
  exact Option.isSome_eq_false_iff.mp hm |> Option.isNone_iff_eq_none.mp

theorem Bare.acceptance_eq (h : Bare b s t) (e : Setting) : t.acceptance e = s.acceptance e := by
  obtain ⟨-, tally, events, rfl⟩ := h
  rfl

/-- A run has ended as it does that takes these acceptances one by one and stops then. -/
structure Reaps (o : SearchOptions) (x : List Acceptance × Halt) (b : Option (Nat × Region))
    (e : Setting) (r : Halt × State) : Prop where
  memo : r.2.memo = none
  best : r.2.best = (reap o x.1 b).2
  halt : r.1 = if (reap o x.1 b).1.isSome then .accepted else x.2
  region : ∀ region, (reap o x.1 b).1 = some region → r.2.region e = region
  undecided : (reap o x.1 b).1 = none → x.2 ≠ .interrupted ∧ x.2 ≠ .accepted

theorem Reaps.of_stop {h : Halt} (hbare : Bare b s t) (hne : h ≠ .interrupted) (hne' : h ≠ .accepted) :
    Reaps o ([], h) b e (h, t) :=
  ⟨hbare.memo, hbare.best, rfl, nofun, fun _ => ⟨hne, hne'⟩⟩

theorem Reaps.of_take {x : List Acceptance × Halt} (hbare : Bare b s t)
    (htakes : reap o x.1 b = (some (t.region e), b)) : Reaps o x b e (.accepted, t) := by
  refine ⟨hbare.memo, ?_, ?_, ?_, ?_⟩
  · rw [htakes, hbare.best]
  · rw [htakes]
    rfl
  · rw [htakes]
    exact fun region hregion => Option.some.inj hregion
  · rw [htakes]
    exact nofun

/-- A run goes on past an acceptance that it does not take as it does when all are failures. -/
theorem Reaps.of_pass {a : Acceptance} {x : List Acceptance × Halt} {b' : Option (Nat × Region)}
    {r : Halt × State} (h : Reaps o x b' e r)
    (hpass : ∀ as, reap o (a :: as) b = reap o as b') : Reaps o (a :: x.1, x.2) b e r := by
  obtain ⟨hmemo, hbest, hhalt, hregion, hundecided⟩ := h
  rw [← hpass] at hbest hhalt hregion hundecided
  exact ⟨hmemo, hbest, hhalt, hregion, hundecided⟩

/-- At the end of the program a run takes the acceptance, or goes on as if it were a failure. -/
theorem Bare.accept_cases (h : Bare b s t) (e : Setting) (hstart : ¬ t.pos < t.start) :
    (accept e t = .error .accepted (t.emit e (.accept t.matchStart t.pos)) ∧
      ∀ as, reap e.options (s.acceptance e :: as) b = (some (t.region e), b)) ∨
    ∃ b' u, Bare b' s u ∧ accept e t = backtrack e u ∧
      ∀ as, reap e.options (s.acceptance e :: as) b = reap e.options as b' := by
  have hcounts : (t.acceptance e).counts e.options =
      !(e.options.has .findNotEmpty && t.matchStart == t.pos) := rfl
  rw [← h.acceptance_eq e]
  cases hpass : e.options.has .findNotEmpty && t.matchStart == t.pos with
  | true =>
    rw [hpass] at hcounts
    refine Or.inr ⟨b, t, h, ?_, fun as => ?_⟩
    · simp only [accept, bind_get, hpass, ↓reduceIte]
    · rw [reap, hcounts]
      rfl
  | false =>
    rw [hpass] at hcounts
    cases hlongest : e.options.has .findLongest with
    | false =>
      refine Or.inl ⟨accept_taken hpass hlongest, fun as => ?_⟩
      rw [reap, hcounts, hlongest]
      rfl
    | true =>
      obtain ⟨u, hu, haccept⟩ := accept_collects hpass hlongest hstart
      refine Or.inr ⟨_, u, ?_, haccept, fun as => by rw [reap, hcounts, hlongest]; rfl⟩
      have hbest := h.best
      obtain ⟨hm, tally, events, rfl⟩ := h
      let last : Option (Nat × Region) := some ((s.acceptance e).length, (s.acceptance e).region)
      have hcollected : Bare (longer b last) s (s.veiled tally (longer b last) events) :=
        ⟨hm, tally, events, rfl⟩
      exact hcollected.of_core rfl hu

/-- A run takes the acceptances one by one to which the run comes for which all are failures. -/
theorem run_reaps (hp : Orderly p l root scale strict) (he : e.program = p) (hq : Quiet e) (n : Nat)
    (h : Bare b s t) (ht : AttemptAt e st pos t) :
    Reaps e.options (acceptances n e s) b e (run n e t) := by
  induction n generalizing s t b with
  | zero => exact .of_stop h nofun nofun
  | succ n ih =>
    have hip : t.ip = s.ip := by
      obtain ⟨-, tally, events, rfl⟩ := h
      rfl
    -- What both come to by an action that is blind to where they differ.
    have after {b' : Option (Nat × Region)} {x : Run Unit} {u : State}
        (hsame : Same ⟨fun _ => b', False⟩ false (x s) (x u)) (hstep : step (inner n) e t = x u) :
        Reaps e.options
          (match x s with
            | .ok _ s' => acceptances n e s'
            | .error k _ => ([], k)) b' e (run (n + 1) e t) := by
      rw [run_succ, hstep]
      cases hs : x s <;> cases hu : x u <;> rw [hs, hu] at hsame
      case ok.ok => exact ih hsame.2 (ht.step n (hstep.trans hu))
      case error.error =>
        obtain ⟨rfl, hbare, hne, hmatching⟩ := hsame
        exact .of_stop hbare hne hmatching
      all_goals exact hsame.elim
    rw [acceptances]
    by_cases hi : e.program.code[s.ip]? = some .accept
    · rw [if_pos hi]
      have hstep : step (inner n) e t = accept e (t.fetched e .accept) :=
        step_fetched _ _ _ _ (hip ▸ hi)
      have hfetched : (t.fetched e .accept).core = t.core := core_fetched ..
      have hstart : ¬ (t.fetched e .accept).pos < (t.fetched e .accept).start := by
        obtain ⟨γ, hcharted⟩ := ht.charted he
        have hend : e.program.code[t.ip]? = some .accept := hip ▸ hi
        have hle : t.start ≤ t.pos :=
          ((hcharted.visited.safe hp.compiled 1).1.goal hend).le
        rw [show (t.fetched e .accept).pos = t.pos from congrArg Core.pos hfetched,
          show (t.fetched e .accept).start = t.start from congrArg Core.start hfetched]
        exact Nat.not_lt.mpr hle
      have hbare : Bare b s (t.fetched e .accept) := h.of_core rfl hfetched
      rcases hbare.accept_cases e hstart with ⟨haccept, htakes⟩ | hpasses
      · rw [run_succ, hstep, haccept]
        have hemit := core_emit (t.fetched e .accept) e
          (.accept (t.fetched e .accept).matchStart (t.fetched e .accept).pos)
        have hbare := hbare.of_core rfl hemit
        have hregion := (accept_eq e hemit).2.2.1
        cases backtrack e s <;> exact .of_take hbare (hregion.symm ▸ htakes _)
      · obtain ⟨b', u, hu, haccept, hpass⟩ := hpasses
        have hreaps := after (blind_backtrack hq hu) (hstep.trans haccept)
        cases hs : backtrack e s with
        | ok _ s' =>
          rw [hs] at hreaps
          exact hreaps.of_pass hpass
        | error k s' =>
          rw [hs] at hreaps
          exact hreaps.of_pass hpass
    · rw [if_neg hi]
      have hnot : ∀ i, e.program.code[s.ip]? = some i → i ≠ .accept ∧ i ≠ .absentEnd :=
        hip ▸ ht.passing hp he (hip ▸ hi)
      exact after (same_step hq (inner_undisturbed n) (Or.inr hnot) h) rfl

/-! ## Attempts and searches -/

/-- An attempt answers with a match if it takes an acceptance, with nothing if all have been passed,
and is not decided otherwise. -/
theorem tryAt_reaps (hp : Orderly p l root scale strict) (he : e.program = p) (hq : Quiet e)
    (hmemo : s.memo = none) {x : List Acceptance × Halt}
    (hx : acceptances clock e (State.initial.enter e 0 pos) = x) :
    (∃ r t, (reap e.options x.1 s.best).1 = some r ∧
      tryAt clock e pos s = .ok (some (.found r)) t) ∨
    (reap e.options x.1 s.best).1 = none ∧
      ((x.2 = .exhausted ∧ ∃ t, t.memo = none ∧ t.best = (reap e.options x.1 s.best).2 ∧
          tryAt clock e pos s = .ok none t) ∨
        x.2 ≠ .exhausted ∧ ∃ k t, x.2.verdict = .error k ∧ tryAt clock e pos s = .error k t) := by
  have hbegin : Bare s.best (State.initial.enter e 0 pos) ((s.enter e 0 pos).emit e (.start pos)) := by
    have henter : Bare s.best (State.initial.enter e 0 pos) (s.enter e 0 pos) := by
      refine ⟨rfl, { s.tally with retries := 0 }, s.events, ?_⟩
      simp only [State.enter, State.veiled, hmemo]
      rfl
    exact henter.of_core rfl (core_emit ..)
  have hreaps := run_reaps hp he hq clock hbegin .begin
  rw [hx] at hreaps
  rw [tryAt_eq (hq.signal _), attempt]
  generalize run clock e ((s.enter e 0 pos).emit e (.start pos)) = r at *
  obtain ⟨h, t⟩ := r
  obtain ⟨htmemo, htbest, hhalt, hregion, hundecided⟩ := hreaps
  cases htaken : (reap e.options x.1 s.best).1 with
  | some region =>
    rw [htaken] at hhalt
    obtain rfl : h = .accepted := hhalt
    exact Or.inl ⟨region, t, rfl, by rw [← hregion region htaken]⟩
  | none =>
    rw [htaken] at hhalt
    obtain rfl : h = x.2 := hhalt
    obtain ⟨hne, hne'⟩ := hundecided htaken
    refine Or.inr ⟨rfl, ?_⟩
    cases hend : x.2 with
    | exhausted =>
      have hcore := core_emit t e (.exhausted pos)
      exact Or.inl ⟨rfl, _, (congrArg Core.memo hcore).trans htmemo,
        (congrArg Core.best hcore).trans htbest, rfl⟩
    | accepted => exact absurd hend hne'
    | interrupted => exact absurd hend hne
    | limit l => exact Or.inr ⟨by simp, _, t, rfl, rfl⟩
    | fault f => exact Or.inr ⟨by simp, _, t, rfl, rfl⟩
    | late => exact Or.inr ⟨by simp, _, t, rfl, rfl⟩

/-- Attempts one after another answer as all their acceptances do that are taken one by one. -/
theorem tryAll_reaps (hp : Orderly p l root scale strict) (he : e.program = p) (hq : Quiet e)
    (hmemo : s.memo = none) (ps : List Nat) :
    answer (tryAll clock e ps s) =
      match reap e.options (acceptancesAt clock e ps).1 s.best with
      | (some r, _) => .ok (.found r)
      | (none, b) =>
        if (acceptancesAt clock e ps).2 = .exhausted then
          .ok ((b.map fun b => .found b.2).getD .notFound)
        else (acceptancesAt clock e ps).2.verdict := by
  induction ps generalizing s with
  | nil => rfl
  | cons q ps ih =>
    rw [tryAll, acceptancesAt]
    generalize hx : acceptances clock e (State.initial.enter e 0 q) = x
    rcases tryAt_reaps hp he hq hmemo hx with ⟨r, t, hr, ht⟩ | ⟨hnone, hrest⟩
    · have htaken : reap e.options x.1 s.best = (some r, (reap e.options x.1 s.best).2) := by
        rw [← hr]
      rw [orElse_some ht]
      by_cases hend : x.2 = .exhausted
      · rw [if_pos hend, reap_append, htaken]
        rfl
      · rw [if_neg hend, htaken]
        rfl
    · have hpassed : reap e.options x.1 s.best = (none, (reap e.options x.1 s.best).2) := by
        rw [← hnone]
      rcases hrest with ⟨hend, t, htmemo, htbest, ht⟩ | ⟨hend, k, t, hk, ht⟩
      · rw [orElse_none ht, ih htmemo, if_pos hend, reap_append, hpassed, htbest]
      · rw [orElse_error ht, if_neg hend, hpassed]
        dsimp only
        rw [if_neg hend, hk]
        rfl

/-- The starts at which a search tries to match from `pos` on, in order. -/
def forwardStarts (e : Setting) (last pos : Nat) : List Nat :=
  if last < pos then []
  else
    match candidate? e pos with
    | none => []
    | some c =>
      if _h : last < c then []
      else if _hc : c < pos then forwardStarts e last (e.subject.next pos)
      else c :: if e.subject.atEnd c then [] else forwardStarts e last (e.subject.next c)
termination_by last + 1 - pos
decreasing_by
  · have := Subject.lt_next e.subject pos
    omega
  · have := Subject.lt_next e.subject c
    omega

/-- The starts at which a search tries to match from `pos` back to `first`. -/
def backwardStarts (e : Setting) (first pos : Nat) : List Nat :=
  if pos < first then []
  else
    (if allowed e pos then [pos] else []) ++
      match _h : e.subject.prev? pos with
      | none => []
      | some p => backwardStarts e first p
termination_by pos
decreasing_by exact Subject.prev?_lt _h

/-- A search forward tries these starts one after another. -/
theorem forwardFrom_tryAll (clock : Nat) (e : Setting) (last pos : Nat) :
    forwardFrom clock e last pos = tryAll clock e (forwardStarts e last pos) := by
  induction hn : last + 1 - pos using Nat.strongRecOn generalizing pos with
  | _ n ih =>
    rw [forwardFrom_eq, forwardStarts]
    split
    · rfl
    · cases candidate? e pos with
      | none => rfl
      | some c =>
        dsimp only
        split
        · rfl
        · split
          · have := Subject.lt_next e.subject pos
            exact ih (last + 1 - e.subject.next pos) (by omega) _ rfl
          · rw [tryAll]
            split
            · rfl
            · have := Subject.lt_next e.subject c
              rw [ih (last + 1 - e.subject.next c) (by omega) _ rfl]

theorem tryAll_here (clock : Nat) (e : Setting) (q : Nat) (ps : List Nat) :
    tryAll clock e ((if allowed e q then [q] else []) ++ ps) =
      orElse (if allowed e q then tryAt clock e q else pure none) (tryAll clock e ps) := by
  split
  · rfl
  · rw [List.nil_append, orElse, pure_bind]

theorem backwardFrom_tryAll (clock : Nat) (e : Setting) (first pos : Nat) :
    backwardFrom clock e first pos = tryAll clock e (backwardStarts e first pos) := by
  induction pos using Nat.strongRecOn with
  | _ pos ih =>
    rw [backwardFrom_eq, backwardStarts]
    split
    · rfl
    · rw [tryAll_here]
      congr 1
      split
      · rename_i q hq
        rw [hq]
        rfl
      · rename_i q hq
        rw [hq]
        exact ih q (Subject.prev?_lt hq)

/-- Where nothing is taken all attempts have been decided, or one has stopped for a reason. -/
theorem acceptancesAt_undecided (hp : Orderly p l root scale strict) (he : e.program = p)
    (hq : Quiet e) (ps : List Nat) {b : Option (Nat × Region)}
    (h : (reap e.options (acceptancesAt clock e ps).1 b).1 = none) :
    (acceptancesAt clock e ps).2 = .exhausted ∨
      ∃ k, (acceptancesAt clock e ps).2.verdict = .error k := by
  induction ps generalizing b with
  | nil => exact Or.inl rfl
  | cons q ps ih =>
    rw [acceptancesAt] at h ⊢
    generalize hx : acceptances clock e (State.initial.enter e 0 q) = x at h ⊢
    have htry := tryAt_reaps hp he hq (s := { State.initial with best := b }) rfl hx
    by_cases hend : x.2 = .exhausted
    · rw [if_pos hend] at h ⊢
      rw [reap_append] at h
      split at h
      · cases h
      · exact ih h
    · rw [if_neg hend] at h ⊢
      obtain ⟨-, hdone | hstopped⟩ := htry.resolve_left fun ⟨r, t, hr, _⟩ =>
        absurd (h.symm.trans hr) nofun
      · exact absurd hdone.1 hend
      · obtain ⟨-, k, t, hk, -⟩ := hstopped
        exact Or.inr ⟨k, hk⟩

/-- Nothing is found if nothing counts and all attempts have been decided. -/
theorem selected_notFound (x : List Acceptance × Halt)
    (hx : (reap o x.1 none).1 = none → x.2 = .exhausted ∨ ∃ k, x.2.verdict = .error k) :
    selected o x = .ok .notFound ↔ x.2 = .exhausted ∧ x.1.filter (·.counts o) = [] := by
  have hverdict (h : (reap o x.1 none).1 = none) :
      x.2.verdict = .ok .notFound ↔ x.2 = .exhausted := by
    rcases hx h with hend | ⟨k, hk⟩
    · simp [hend, Halt.verdict]
    · rw [hk]
      exact ⟨nofun, fun hend => by rw [hend] at hk; cases hk⟩
  unfold selected preferred
  cases hlongest : o.has .findLongest with
  | true =>
    have hpassed : (reap o x.1 none).1 = none := congrArg Prod.fst (reap_longest hlongest x.1 none)
    by_cases hend : x.2 = .exhausted
    · cases hmax : (x.1.filter (·.counts o)).argmax Acceptance.length with
      | none => simpa [hend, hmax, Halt.verdict] using List.argmax_eq_none.mp hmax
      | some a =>
        have hne : x.1.filter (·.counts o) ≠ [] := fun hnil => by
          rw [hnil] at hmax
          cases hmax
        simpa [hend, hmax] using hne
    · simp [hend, hverdict hpassed]
  | false =>
    cases hcounted : x.1.filter (·.counts o) with
    | nil =>
      have hpassed : (reap o x.1 none).1 = none := by rw [reap_first hlongest, hcounted]; rfl
      simp [hverdict hpassed]
    | cons a as => simp

end Machine

namespace Matcher
open Machine

/-- The starts at which a search tries to match, in order. -/
def tries (m : Matcher) (start range : Nat) (o : SearchOptions) (w : Watch) : List Nat :=
  let e := m.setting start o w
  if m.subject.size < start || m.subject.size < range then []
  else if start ≤ range then
    match lastStart? e range with
    | none => []
    | some last => forwardStarts e last (e.subject.rightAdjust start)
  else backwardStarts e range (e.subject.leftAdjust start)

/-- All acceptances of these attempts. -/
def acceptances (m : Matcher) (start range : Nat) (o : SearchOptions) (w : Watch) (clock : Nat) :
    List Acceptance × Halt :=
  acceptancesAt clock (m.setting start o w) (m.tries start range o w)

variable {m : Matcher} {start range : Nat} {o : SearchOptions} {w : Watch} {s : State}

/-- A search is a row of attempts at the starts that it tries. -/
theorem search_tryAll (clock : Nat) (hin : ¬ (m.subject.size < start || m.subject.size < range) = true)
    (hbest : s.best = none) :
    answer ((if start ≤ range then forward clock (m.setting start o w) range
        else backward clock (m.setting start o w) range) s) =
      answer (tryAll clock (m.setting start o w) (m.tries start range o w) s) := by
  unfold tries
  rw [if_neg hin]
  split
  · unfold forward
    cases lastStart? (m.setting start o w) range with
    | none => exact (takeBest_none hbest).symm
    | some last => exact congrArg (fun x => answer (x s)) (forwardFrom_tryAll ..)
  · exact congrArg (fun x => answer (x s)) (backwardFrom_tryAll ..)

/-- The state at the start of a search, but that guards remember nothing. -/
def beginBare (s : State) (e : Setting) : State := { begin s e with memo := none }

/-- Given time enough, guards make no difference to a search with a compiled program. -/
theorem search_bare {setting : Pattern.Setting} {options : Options} {t : PatternTree Span}
    {properties : PropertyRegistry} (hparse : (Pattern.parse setting options properties).1 = .ok t)
    (htree : (Compilation.ofTree setting options t).1 = .ok m.program)
    (hq : Quiet (m.setting start o w)) :
    ∃ N, ∀ clock, N ≤ clock →
      answer ((if start ≤ range then forward clock (m.setting start o w) range
        else backward clock (m.setting start o w) range) (begin m.state (m.setting start o w))) =
      answer ((if start ≤ range then forward clock (m.setting start o w) range
        else backward clock (m.setting start o w) range)
          (beginBare m.state (m.setting start o w))) := by
  let e := m.setting start o w
  obtain ⟨a, ha, -⟩ := Compilation.ofTree_layout htree (Pattern.parse_groupNumbers hparse)
    (Pattern.parse_separate hparse)
  cases hmemo : newMemo e with
  | none =>
    refine ⟨0, fun clock _ => ?_⟩
    have hsame : begin m.state e = beginBare m.state e := by
      simp only [beginBare, begin, hmemo]
    rw [hsame]
  | some memo =>
    have hguards : (!options.has .findLongest && guardsAllowed a.tree.root) = true := by
      by_contra hnot
      have hnone : m.program.tables.guards = 0 :=
        Compilation.ofTree_unguarded hparse ha htree (Bool.not_eq_true _ ▸ hnot)
      have hprogram : e.program = m.program := rfl
      unfold newMemo at hmemo
      split at hmemo
      · rw [hprogram, hnone] at hmemo
        cases hmemo
      · cases hmemo
    have hunderstood := Analyzed.understood_of_guardsAllowed ha (Bool.and_eq_true_iff.mp hguards).2
    have hr : e.program.Renders _ _ :=
      Compilation.ofTree_renders htree ha (Pattern.parse_ordered hparse) hunderstood
    obtain ⟨μ, hnew, hgather⟩ := attempts_gather_begun hq hr rfl
    have halike : Alike e e := ⟨rfl, rfl, rfl, rfl, rfl, rfl, rfl⟩
    have htwins := halike.twins_of_gathers hq hq (· = none) μ.Good
      (attempts_gather_bare hq hr rfl) hgather
    have hbegin : (begin m.state e).best = (beginBare m.state e).best ∧
        (beginBare m.state e).memo = none ∧ μ.Good (begin m.state e).memo := ⟨rfl, rfl, hnew⟩
    split
    · exact htwins.forward_eq hbegin range
    · exact htwins.backwardFrom_eq hbegin (e.subject.leftAdjust_le_size e.origin)

/-- What a search with a compiled program finds where no limit stops it: of all acceptances of its
attempts, in the order in which they would come one after another, those are left out that do not
count; the first one of the others is found or, if the longest is wanted, the first one of those that
are longest. Nothing is found if and only if none is left. -/
theorem searchWith_selects {setting : Pattern.Setting} {options : Options}
    {properties : PropertyRegistry} {p : Program}
    (hprogram : (Compilation.ofPattern setting options properties).result = .ok p) (m : Matcher)
    (hm : m.program = p) (hretries : m.limits.retries = 0)
    (hsearchRetries : m.limits.searchRetries = 0) (hframes : m.limits.frames = 0)
    (start range : Nat) (o : SearchOptions) {w : Watch} (hsignal : ∀ n, w.signal n = false) :
    ∃ N, ∀ clock, N ≤ clock →
      let all := m.acceptances start range o w clock
      let wanted := (m.setting start o w).options
      (m.searchWith start range o w clock).result = selected wanted all ∧
        ((m.searchWith start range o w clock).result = .ok .notFound ↔
          all.2 = .exhausted ∧ all.1.filter (·.counts wanted) = []) := by
  subst hm
  obtain ⟨o₁, t, -, hparse, htree⟩ := Compilation.ofPattern_ok hprogram
  obtain ⟨a, scale, -, horderly, -⟩ := Compilation.ofTree_orderly htree
    (Pattern.parse_groupNumbers hparse) (Pattern.parse_separate hparse) (Pattern.parse_ordered hparse)
  let e := m.setting start o w
  have hq : Quiet e := ⟨hretries, hsearchRetries, hframes, hsignal⟩
  have hundecided (clock : Nat) (h : (reap e.options
        (m.acceptances start range o w clock).1 none).1 = none) :
      (m.acceptances start range o w clock).2 = .exhausted ∨
        ∃ k, (m.acceptances start range o w clock).2.verdict = .error k :=
    acceptancesAt_undecided horderly rfl hq _ h
  suffices hsearch : ∃ N, ∀ clock, N ≤ clock → (m.searchWith start range o w clock).result =
      selected e.options (m.acceptances start range o w clock) by
    obtain ⟨N, hN⟩ := hsearch
    refine ⟨N, fun clock hclock => ⟨hN clock hclock, ?_⟩⟩
    rw [hN clock hclock]
    exact selected_notFound _ (hundecided clock)
  by_cases hin : (m.subject.size < start || m.subject.size < range) = true
  · refine ⟨0, fun clock _ => ?_⟩
    have htries : m.tries start range o w = [] := if_pos hin
    rw [searchWith, if_pos hin, acceptances, htries, selected_eq]
    rfl
  · obtain ⟨N, hN⟩ := search_bare hparse htree hq
    refine ⟨N, fun clock hclock => ?_⟩
    rw [searchWith_result m o w clock hin, hN clock hclock, search_tryAll clock hin rfl,
      tryAll_reaps horderly rfl hq rfl, selected_eq]
    rfl

end Matcher

open Machine

/-- The pattern `ab\K|a|b`. -/
def keeping : Pattern.Setting := ⟨#[97, 98, 92, 75, 124, 97, 124, 98], .native, .ascii, .standard⟩

theorem keeping_compiles :
    (Compilation.ofPattern keeping .empty .empty).result.toOption.isSome = true := by
  decide +kernel

/-- Its program, to be run on the text `ab`. -/
def keepingMatcher : Matcher :=
  .new ((Compilation.ofPattern keeping .empty .empty).result.toOption.get keeping_compiles)
    #[97, 98] ⟨0, 0, 1024, 0, 16384⟩

/-- The longest match that is not empty. -/
def longestNotEmpty : SearchOptions := FlagSet.ofList [.findLongest, .findNotEmpty]

/-- The longest path of attempts at `a` and at `b` reports an empty match. Of the two others, which
are equally long, the first one is selected. -/
theorem searchWith_keeping :
    (∃ N, ∀ clock, N ≤ clock →
      let all := keepingMatcher.acceptances 0 2 longestNotEmpty .none clock
      let wanted := (keepingMatcher.setting 0 longestNotEmpty .none).options
      (keepingMatcher.searchWith 0 2 longestNotEmpty .none clock).result = selected wanted all ∧
        ((keepingMatcher.searchWith 0 2 longestNotEmpty .none clock).result = .ok .notFound ↔
          all.2 = .exhausted ∧ all.1.filter (·.counts wanted) = [])) ∧
    (acceptancesAt 12 (keepingMatcher.setting 0 longestNotEmpty .none) [0, 1]).1.map
      (fun a => (a.start, a.stop, a.reported)) = [(0, 2, 2), (0, 1, 0), (1, 2, 1)] ∧
    selected longestNotEmpty
        (acceptancesAt 12 (keepingMatcher.setting 0 longestNotEmpty .none) [0, 1]) =
      .ok (.found ⟨#[some ⟨0, 1⟩], none⟩) := by
  have hprogram : (Compilation.ofPattern keeping .empty .empty).result =
      .ok keepingMatcher.program := ok_of_isSome keeping_compiles
  exact ⟨Matcher.searchWith_selects hprogram keepingMatcher rfl rfl rfl rfl 0 2 longestNotEmpty
    fun _ => rfl, by decide +kernel, by decide +kernel⟩

end RegexMachine
