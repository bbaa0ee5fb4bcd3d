import RegexMachine.Proofs.Starts
import RegexMachine.Proofs.Unseen

/-!
Searches and exhaustive scans. A search that passes over the starts that its hints rule out finds
what attempts at all places where a character begins would find, if the hints are sound and if what
guards remember of one attempt changes no later one.
-/
namespace RegexMachine
namespace Machine

/-! ## Attempts by themselves -/

/-- What an attempt comes to: its answer, if it ends the search, and the longest match that has been
collected. -/
abbrev Tried := Except SearchError (Option SearchOutcome × Option (Nat × Region))

def tried (clock : Nat) (e : Setting) (s : State) (p : Nat) : Tried :=
  match tryAt clock e p s with
  | .ok o t => .ok (o, t.best)
  | .error x _ => .error x

/-- What attempts at all of some starts come to, in order and each by itself: the first match, or
the longest of the matches collected, the first of those that are equally long. -/
def scan (attempts : Nat → Tried) : List Nat → Option (Nat × Region) →
    Except SearchError SearchOutcome
  | [], best => .ok ((best.map fun b => .found b.2).getD .notFound)
  | p :: ps, best =>
    match attempts p with
    | .error x => .error x
    | .ok (some o, _) => .ok o
    | .ok (none, b) => scan attempts ps (longer best b)

section
variable {e : Setting} {s t s₀ : State} {b : Option (Nat × Region)} {clock p : Nat}

/-- An attempt sees nothing of what is there before but the memory of guards. -/
theorem attempt_alike (hq : Quiet e) (hmemo : t.memo = s.memo) (hbest : t.best = longer b s.best)
    (clock p : Nat) :
    (attempt clock e p t).1 = (attempt clock e p s).1 ∧
      Resembles (.collected b) s.memo.isSome (attempt clock e p s).2 (attempt clock e p t).2 := by
  have henter : Resembles (.collected b) s.memo.isSome (s.enter e 0 p) (t.enter e 0 p) := by
    refine ⟨rfl, { t.tally with retries := 0 }, t.events, ?_⟩
    simp only [State.enter, State.veiled, Guise.collected, hmemo, hbest]
  have hbegin := henter.of_core (core_emit _ e (.start p)) (core_emit _ e (.start p))
  obtain ⟨hhalt, hend⟩ := run_alike hq clock hbegin
  unfold attempt
  generalize run clock e ((s.enter e 0 p).emit e (.start p)) = x at *
  generalize run clock e ((t.enter e 0 p).emit e (.start p)) = y at *
  obtain ⟨h, s'⟩ := x
  obtain ⟨h', t'⟩ := y
  obtain rfl : h' = h := hhalt
  cases h' with
  | exhausted => exact ⟨rfl, hend.of_core (core_emit ..) (core_emit ..)⟩
  | _ => exact ⟨rfl, hend⟩

theorem tried_alike (hq : Quiet e) (hmemo : t.memo = s.memo) (hbest : s.best = none) :
    tried clock e t p = (tried clock e s p).map fun r => (r.1, longer t.best r.2) := by
  have hb : t.best = longer t.best s.best := by rw [hbest]; rfl
  obtain ⟨hhalt, -, tally, events, hend⟩ := attempt_alike hq hmemo hb clock p
  rw [tried, tried, tryAt_eq (hq.signal _), tryAt_eq (hq.signal _)]
  generalize attempt clock e p s = x at *
  generalize attempt clock e p t = y at *
  obtain ⟨h, s'⟩ := x
  obtain ⟨h', t'⟩ := y
  obtain rfl : h' = h := hhalt
  obtain rfl : t' = _ := hend
  cases h' <;> rfl

theorem tried_ok {o : Option SearchOutcome} (h : tried clock e s p = .ok (o, b)) :
    ∃ t, tryAt clock e p s = .ok o t ∧ t.best = b := by
  unfold tried at h
  split at h <;> cases h
  exact ⟨_, ‹_›, rfl⟩

theorem tried_error {x : SearchError} (h : tried clock e s p = .error x) :
    ∃ t, tryAt clock e p s = .error x t := by
  unfold tried at h
  split at h <;> cases h
  exact ⟨_, ‹_›⟩

section
variable {x : Search (Option SearchOutcome)} {rest : Search SearchOutcome}

theorem orElse_some {o : SearchOutcome} (h : x s = .ok (some o) t) :
    orElse x rest s = .ok o t := by
  simp only [orElse, bind, EStateM.bind, h]
  rfl

theorem orElse_none (h : x s = .ok none t) : orElse x rest s = rest t := by
  simp only [orElse, bind, EStateM.bind, h]

theorem orElse_error {k : SearchError} (h : x s = .error k t) :
    orElse x rest s = .error k t := by
  simp only [orElse, bind, EStateM.bind, h]

end

/-! ## What guards remember -/

/-- States between the attempts of a search that has not ended. -/
inductive Between (clock : Nat) (e : Setting) (s₀ : State) : State → Prop
  | start : Between clock e s₀ s₀
  | next {s t : State} (p : Nat) (hs : Between clock e s₀ s)
    (ht : tryAt clock e p s = .ok none t) : Between clock e s₀ t

/-- What guards remember of earlier attempts changes no later one. -/
def Steady (clock : Nat) (e : Setting) (s₀ : State) : Prop :=
  ∀ s, Between clock e s₀ s → ∀ p, p ≤ e.subject.size → e.subject.isBoundary p = true →
    tried clock e s p = tried clock e { s with memo := s₀.memo } p

/-- No start that a hint rules out leads to a match. -/
def Conservative (clock : Nat) (e : Setting) (s₀ : State) : Prop :=
  ∀ p, p ≤ e.subject.size → e.subject.isBoundary p = true → allowed e p = false →
    ∀ o b, tried clock e s₀ p = .ok (o, b) → o = none ∧ b = none

/-- Where there is no memory, nothing is remembered. -/
theorem steady_of_none (hq : Quiet e) (hmemo : s₀.memo = none) : Steady clock e s₀ := by
  intro s hs p _ _
  have hnone : s.memo = none := by
    induction hs with
    | start => exact hmemo
    | @next s t p hs ht ih =>
      have halike := (attempt_alike hq (t := s) rfl (none_longer s.best).symm clock p).2
      have hstate : (attempt clock e p s).2 = t := by
        rw [tryAt_eq (hq.signal _)] at ht
        split at ht <;> cases ht
        rw [‹attempt clock e p s = _›]
      rw [hstate] at halike
      have hkept := halike.1
      rw [ih] at hkept
      simpa using hkept
  rw [hmemo, ← hnone]

theorem Steady.tried_eq (h : Steady clock e s₀) (hq : Quiet e) (hbest : s₀.best = none)
    (hs : Between clock e s₀ s) (hp : p ≤ e.subject.size) (hb : e.subject.isBoundary p = true) :
    tried clock e s p = (tried clock e s₀ p).map fun r => (r.1, longer s.best r.2) :=
  (h s hs p hp hb).trans (tried_alike (t := { s with memo := s₀.memo }) hq rfl hbest)

/-- Attempts one after another come to what they come to by themselves. -/
theorem tryAll_scan (hsteady : Steady clock e s₀) (hq : Quiet e) (hbest : s₀.best = none)
    {ps : List Nat} (hps : ∀ p ∈ ps, p ≤ e.subject.size ∧ e.subject.isBoundary p = true)
    (hs : Between clock e s₀ s) :
    answer (tryAll clock e ps s) = scan (tried clock e s₀) ps s.best := by
  induction ps generalizing s with
  | nil => rfl
  | cons p ps ih =>
    obtain ⟨hp, hb⟩ := hps p (by simp)
    have htried := hsteady.tried_eq hq hbest hs hp hb
    have hrest := fun q hq => hps q (List.mem_cons_of_mem _ hq)
    rw [tryAll, scan]
    cases halone : tried clock e s₀ p with
    | error x =>
      rw [halone] at htried
      obtain ⟨t, ht⟩ := tried_error htried
      rw [orElse_error ht]
      rfl
    | ok r =>
      obtain ⟨found, b⟩ := r
      rw [halone] at htried
      obtain ⟨t, ht, hlonger⟩ := tried_ok htried
      cases found with
      | some out =>
        rw [orElse_some ht]
        rfl
      | none =>
        rw [orElse_none ht, ih hrest (hs.next p ht), hlonger]

/-- Attempts that find nothing may be left out. -/
theorem scan_picks {attempts : Nat → Tried} {ps qs : List Nat} (h : Picks e ps qs)
    (hnone : ∀ p ∈ ps, allowed e p = false → ∀ o b, attempts p = .ok (o, b) → o = none ∧ b = none)
    {best : Option (Nat × Region)} {r : SearchOutcome} (hr : scan attempts ps best = .ok r) :
    scan attempts qs best = .ok r := by
  induction h generalizing best with
  | nil => exact hr
  | @tried p ps qs _ ih =>
    rw [scan] at hr ⊢
    split at hr
    · cases hr
    · exact hr
    · exact ih (fun q hq => hnone q (by simp [hq])) hr
  | @passed p ps qs hp _ ih =>
    rw [scan] at hr
    have hp := hnone p (by simp) hp
    split at hr
    · cases hr
    · rename_i h
      cases (hp _ _ h).1
    · rename_i h
      obtain ⟨-, rfl⟩ := hp _ _ h
      exact ih (fun q hq => hnone q (by simp [hq])) hr

end

end Machine

namespace Matcher
open Machine

/-- The starts that a search is to try, in order. -/
def starts (m : Matcher) (start range : Nat) (o : SearchOptions) (w : Watch) : List Nat :=
  let t := (m.setting start o w).subject
  if start ≤ range then t.between start range else (t.between range start).reverse

/-- What attempts at all these starts come to, each of them as if it were the only one. -/
def exhaustive (m : Matcher) (start range : Nat) (o : SearchOptions) (w : Watch) (clock : Nat) :
    Except SearchError SearchOutcome :=
  let e := m.setting start o w
  scan (tried clock e (begin m.state e)) (m.starts start range o w) none

theorem runSearch_congr (m : Matcher) (e : Setting) {x y : Search SearchOutcome}
    {log : SearchOutcome → State → List LogRecord} (h : x (begin m.state e) = y (begin m.state e)) :
    m.runSearch e x log = m.runSearch e y log := by
  unfold runSearch
  rw [h]

end Matcher

open Machine

def byteTables : Tables where
  loops := #[]
  subroutines := #[]
  names := .empty
  captures := 0
  marks := 0
  roundChecks := 0
  guards := 0
  options := .empty
  features := .empty
  hints := { Hints.unknown with firstBytes := some (ByteSet.ofList [98]) }

/-- The pattern `b` with its hint, searched for in the text `aba`. -/
def byteMatcher : Matcher :=
  .new ⟨#[.byte 98, .accept], byteTables, .ascii⟩ #[97, 98, 97] ⟨0, 0, 1024, 0, 16384⟩

namespace Machine

def rememberingCode : Array Instr :=
  #[.fork 4, .guard 0 none, .byte 98, .accept,
    .charClass (CharClass.ofRanges [⟨97, 97⟩, ⟨100, 100⟩] false), .guard 0 none, .fail]

def rememberingTables : Tables where
  loops := #[]
  subroutines := #[]
  names := .empty
  captures := 0
  marks := 0
  roundChecks := 0
  guards := 1
  options := .empty
  features := FlagSet.ofList [.hasGuards]
  hints := { Hints.unknown with firstBytes := some (ByteSet.ofList [97, 98]) }

/-- A program whose guards are of no use: after one of `a` and `d` nothing matches, and it is
remembered that nothing does, though a `b` would match there. -/
def remembering : Program := ⟨rememberingCode, rememberingTables, .ascii⟩

/-- The program with the text `abdb`. -/
def rememberingMatcher : Matcher := .new remembering #[97, 98, 100, 98] ⟨0, 0, 1024, 0, 16384⟩

def rememberingRun : Setting := rememberingMatcher.setting 0 .empty .none

theorem rememberingRun_quiet : Quiet rememberingRun := ⟨rfl, rfl, rfl, fun _ => rfl⟩

/-- An attempt that begins at a place with some memory. -/
def beginning (p : Nat) (m : Memo) : Core := ⟨0, p, p, [], .clear 0 0, some m, none⟩

/-- The same attempt in front of the second branch. -/
def secondBranch (p : Nat) (m : Memo) : Core := { beginning p m with ip := 4 }

open Point

theorem reaches_guard {p : Nat} {m : Memo} :
    Reaches rememberingRun (.going (beginning p m))
      (if m.hasFailed 0 p then .failing { beginning p m with ip := 1, frames := [.alternative 4 p] }
        else .going { beginning p m with
          ip := 2, frames := [.guard 0 p, .alternative 4 p] }) := by
  have hfork := moves_fork (c := beginning p m) rememberingRun_quiet (a := 4) rfl
  have hguard := @moves_guard rememberingRun
    { beginning p m with ip := 1, frames := [.alternative 4 p] } rememberingRun_quiet 0 none m
    false rfl rfl rfl
  exact (Relation.ReflTransGen.single hfork).tail hguard

/-- What has failed before fails again. -/
theorem reaches_killed {p : Nat} {m : Memo} (h : m.hasFailed 0 p = true) :
    Reaches rememberingRun (.going (beginning p m)) (.going (secondBranch p m)) := by
  have hguard := reaches_guard (p := p) (m := m)
  rw [h] at hguard
  exact hguard.tail (moves_alternative rememberingRun_quiet _ rfl)

/-- Where there is no `b`, this is remembered. -/
theorem reaches_missed {p : Nat} {m : Memo} (h : m.hasFailed 0 p = false)
    (hp : rememberingRun.subject.byteLength? p 98 = none) :
    Reaches rememberingRun (.going (beginning p m))
      (.going (secondBranch p (m.markFailed 0 p))) := by
  have hguard := reaches_guard (p := p) (m := m)
  rw [h] at hguard
  have hmiss : Moves rememberingRun
      (.going { beginning p m with ip := 2, frames := [.guard 0 p, .alternative 4 p] })
      (.failing { beginning p m with ip := 2, frames := [.guard 0 p, .alternative 4 p] }) :=
    @moves_consume_none _ _ (.byte 98) (rememberingRun.subject.byteLength? · 98) rfl
      (fun _ => rfl) hp
  exact ((hguard.tail hmiss).tail (Point.moves_guard _ rfl)).tail
    (moves_alternative rememberingRun_quiet _ rfl)

/-- An attempt fails, and leaves a memory. -/
def Fails (p : Nat) (m m' : Memo) : Prop :=
  Gathers rememberingRun (· = some m') (.going (beginning p m)) (none, none)

theorem fails_of_reaches {p : Nat} {m m' : Memo} {c : Core} (hm : c.memo = some m')
    (hb : c.best = none) (hf : c.frames = [])
    (h : Reaches rememberingRun (.going (beginning p m)) (.failing c)) : Fails p m m' :=
  ⟨c, Reaches.ends h (ends_exhausted _ c hf), hb, hm, nofun⟩

/-- Only after `a` and `d` there is something to remember in the second branch. -/
theorem fails_second {p : Nat} {m m' : Memo}
    (h : Reaches rememberingRun (.going (beginning p m)) (.going (secondBranch p m')))
    (hp : rememberingRun.subject.classLength? p
      (CharClass.ofRanges [⟨97, 97⟩, ⟨100, 100⟩] false) = none) : Fails p m m' := by
  have hmiss : Moves rememberingRun (.going (secondBranch p m')) (.failing (secondBranch p m')) :=
    @moves_consume_none _ _ (.charClass _) (rememberingRun.subject.classLength? · _) rfl
      (fun _ => rfl) hp
  exact fails_of_reaches rfl rfl rfl (h.tail hmiss)

/-- What is remembered of a failure at a place and the one after it. -/
def Memo.spoiled (m : Memo) (p : Nat) : Memo := (m.markFailed 0 p).markFailed 0 (p + 1)

/-- After `a` and `d` it is remembered that nothing matches there. -/
theorem fails_spoiling {p : Nat} {m : Memo}
    (hp : rememberingRun.subject.byteLength? p 98 = none)
    (hclass : rememberingRun.subject.classLength? p
      (CharClass.ofRanges [⟨97, 97⟩, ⟨100, 100⟩] false) = some 1)
    (h : m.hasFailed 0 p = false) (h' : (m.markFailed 0 p).hasFailed 0 (p + 1) = false) :
    Fails p m (Memo.spoiled m p) := by
  let m' := m.markFailed 0 p
  have hclass : Moves rememberingRun (.going (secondBranch p m'))
      (.going { secondBranch p m' with ip := 5, pos := p + 1 }) :=
    @moves_consume _ _ (.charClass _) (rememberingRun.subject.classLength? · _) 1 rfl
      (fun _ => rfl) hclass
  have hguard := @moves_guard rememberingRun
    { secondBranch p m' with ip := 5, pos := p + 1 } rememberingRun_quiet 0 none m'
    false rfl rfl rfl
  have h'' : m'.hasFailed 0 (p + 1) = false := h'
  rw [h''] at hguard
  let c : Core := { secondBranch p m' with ip := 6, pos := p + 1, frames := [.guard 0 (p + 1)] }
  have hfail : Moves rememberingRun (.going c) (.failing c) := moves_fail rfl
  have hundo := Point.moves_guard (e := rememberingRun) c (K := []) rfl
  exact fails_of_reaches rfl rfl rfl
    ((((reaches_missed h hp).tail hclass).tail hguard).tail hfail |>.tail hundo)

/-- A `b` matches, unless it is remembered that nothing does. -/
theorem gathers_taken {p : Nat} {m : Memo} (h : m.hasFailed 0 p = false)
    (hp : rememberingRun.subject.byteLength? p 98 = some 1) :
    ∃ m', Gathers rememberingRun (· = some m') (.going (beginning p m))
      (some ⟨#[some ⟨p, p + 1⟩], none⟩, none) := by
  have hguard := reaches_guard (p := p) (m := m)
  rw [h] at hguard
  let c : Core := { beginning p m with
    ip := 3, pos := p + 1, frames := [.guard 0 p, .alternative 4 p] }
  have hbyte : Moves rememberingRun
      (.going { beginning p m with ip := 2, frames := [.guard 0 p, .alternative 4 p] })
      (.going c) :=
    @moves_consume _ _ (.byte 98) (rememberingRun.subject.byteLength? · 98) 1 rfl
      (fun _ => rfl) hp
  refine ⟨m, c, Reaches.ends (hguard.tail hbyte) (ends_accept rfl rfl rfl), rfl, rfl, ?_⟩
  have hstart : c.matchStart = p := Nat.min_eq_left (Nat.le_succ p)
  rintro _ ⟨⟩
  have hhistory : rememberingRun.program.has .captureHistory = false := by decide +kernel
  rw [Core.region, hstart, hhistory]
  simp [Region.ofCaptures, c, beginning, Registers.clear, Captures.none,
    Array.setIfInBounds]

theorem core_beginning {s : State} {m : Memo} (hm : s.memo = some m) (hb : s.best = none)
    (p : Nat) :
    (s.enter rememberingRun 0 p).core = beginning p m := by
  simp only [State.core, State.enter, hm, hb]
  rfl

theorem tryAt_fails {s : State} {p : Nat} {m m' : Memo} (h : Fails p m m') (hm : s.memo = some m)
    (hb : s.best = none) :
    ∃ N t, t.best = none ∧ t.memo = some m' ∧
      ∀ clock, N ≤ clock → tryAt clock rememberingRun p s = .ok none t := by
  unfold Fails at h
  rw [← core_beginning hm hb] at h
  exact tryAt_gathers rememberingRun_quiet h

theorem tryAt_taken {s : State} {p : Nat} {m : Memo} (hm : s.memo = some m) (hb : s.best = none)
    (h : m.hasFailed 0 p = false) (hp : rememberingRun.subject.byteLength? p 98 = some 1) :
    ∃ N t, t.best = none ∧ ∀ clock, N ≤ clock →
      tryAt clock rememberingRun p s = .ok (some (.found ⟨#[some ⟨p, p + 1⟩], none⟩)) t := by
  obtain ⟨m', hgathers⟩ := gathers_taken h hp
  rw [← core_beginning hm hb] at hgathers
  obtain ⟨N, t, hbest, -, htry⟩ := tryAt_gathers rememberingRun_quiet hgathers
  exact ⟨N, t, hbest, htry⟩

theorem hasFailed_empty (p : Nat) : (⟨∅⟩ : Memo).hasFailed 0 p = false := by
  simp [Memo.hasFailed]

theorem hasFailed_markFailed (m : Memo) (p q : Nat) :
    (m.markFailed 0 p).hasFailed 0 q = (p == q || m.hasFailed 0 q) := by
  rw [Bool.eq_iff_iff, Memo.hasFailed_markFailed]
  simp

/-- Given time enough, attempts at some starts answer this, when they begin with some memory. -/
def Answers (m : Memo) (ps : List Nat) (o : SearchOutcome) : Prop :=
  ∀ s : State, s.memo = some m → s.best = none →
    ∃ N, ∀ clock, N ≤ clock → answer (tryAll clock rememberingRun ps s) = .ok o

theorem answers_nil (m : Memo) : Answers m [] .notFound := by
  intro s _ hb
  exact ⟨0, fun clock _ => congrArg Except.ok (by rw [hb]; rfl)⟩

theorem Fails.answers {p : Nat} {m m' : Memo} {ps : List Nat} {o : SearchOutcome}
    (h : Fails p m m') (hrest : Answers m' ps o) : Answers m (p :: ps) o := by
  intro s hm hb
  obtain ⟨N, t, htb, htm, htry⟩ := tryAt_fails h hm hb
  obtain ⟨N', hanswer⟩ := hrest t htm htb
  refine ⟨max N N', fun clock hclock => ?_⟩
  rw [tryAll, orElse_none (htry clock (by omega))]
  exact hanswer clock (by omega)

theorem answers_taken {p : Nat} {m : Memo} (h : m.hasFailed 0 p = false)
    (hp : rememberingRun.subject.byteLength? p 98 = some 1) (ps : List Nat) :
    Answers m (p :: ps) (.found ⟨#[some ⟨p, p + 1⟩], none⟩) := by
  intro s hm hb
  obtain ⟨N, t, -, htry⟩ := tryAt_taken hm hb h hp
  refine ⟨N, fun clock hclock => ?_⟩
  rw [tryAll, orElse_some (htry clock hclock)]
  rfl

/-- The search passes over the third start. -/
theorem forward_remembering (clock : Nat) :
    forward clock rememberingRun 4 = tryAll clock rememberingRun [0, 1, 3] := by
  have h0 : candidate? rememberingRun 0 = some 0 := by decide +kernel
  have h1 : candidate? rememberingRun 1 = some 1 := by decide +kernel
  have h2 : candidate? rememberingRun 2 = some 3 := by decide +kernel
  have h4 : candidate? rememberingRun 4 = none := by decide +kernel
  have hlast : lastStart? rememberingRun 4 = some 4 := by decide +kernel
  have hfirst : rememberingRun.subject.rightAdjust rememberingRun.origin = 0 := by decide +kernel
  have hnext : rememberingRun.subject.next 0 = 1 ∧ rememberingRun.subject.next 1 = 2 ∧
      rememberingRun.subject.next 3 = 4 := by decide +kernel
  have hend : rememberingRun.subject.atEnd 0 = false ∧ rememberingRun.subject.atEnd 1 = false ∧
      rememberingRun.subject.atEnd 3 = false := by decide +kernel
  have hfrom4 : forwardFrom clock rememberingRun 4 4 = takeBest := by
    rw [forwardFrom_eq]
    simp [h4]
  have hfrom2 : forwardFrom clock rememberingRun 4 2 = tryAll clock rememberingRun [3] := by
    rw [forwardFrom_eq]
    simp [h2, hnext, hend, hfrom4, tryAll]
  have hfrom1 : forwardFrom clock rememberingRun 4 1 = tryAll clock rememberingRun [1, 3] := by
    rw [forwardFrom_eq]
    simp [h1, hnext, hend, hfrom2, tryAll]
  simp only [forward, hlast, hfirst]
  rw [forwardFrom_eq]
  simp [h0, hnext, hend, hfrom1, tryAll]

/-- What an attempt comes to when nothing is remembered of others. -/
theorem tried_fails {p : Nat} {m : Memo} (h : Fails p ⟨∅⟩ m) :
    ∃ N, ∀ clock, N ≤ clock → tried clock rememberingRun
      (Matcher.begin .initial rememberingRun) p = .ok (none, none) := by
  obtain ⟨N, t, hb, -, htry⟩ := @tryAt_fails (Matcher.begin .initial rememberingRun) _ _ _ h rfl rfl
  exact ⟨N, fun clock hclock => by rw [tried, htry clock hclock, ← hb]⟩

end Machine

end RegexMachine
