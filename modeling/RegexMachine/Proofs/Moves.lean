import Mathlib.Logic.Relation
import RegexMachine.Machine.Step
import RegexMachine.Proofs.Stack

/-!
Moves of the machine, seen without the work it counts and the events it records. Between two
instructions it is going; it is failing when the next thing it does is to backtrack.
-/
namespace RegexMachine.Machine

/-- The part of a state on which the outcome depends. -/
structure Core where
  ip : Addr
  pos : Nat
  start : Nat
  frames : List Frame
  regs : Registers
  memo : Option Memo
  best : Option (Nat × Region)

def State.core (s : State) : Core :=
  ⟨s.ip, s.pos, s.start, s.stack.frames, s.regs, s.memo, s.best⟩

/-- No limit but that on calls, and no interrupt. -/
structure Quiet (e : Setting) : Prop where
  retries : e.limits.retries = 0
  searchRetries : e.limits.searchRetries = 0
  frames : e.limits.frames = 0
  signal : ∀ n, e.signal n = false

/-- Runs inside a step that has `n` steps left. -/
def inner (n : Nat) : Runner := fun e entry pos s => run n e (s.enter e entry pos)

/-- What a run comes to that has made a step. -/
def finish (n : Nat) (e : Setting) : EStateM.Result Halt State Unit → Halt × State
  | .ok _ s => run n e s
  | .error h s => (h, s)

theorem run_succ (n : Nat) (e : Setting) (s : State) :
    run (n + 1) e s = finish n e (step (inner n) e s) := by
  rw [run]
  unfold finish inner
  cases step _ e s <;> rfl

inductive Point where
  | going (c : Core)
  | failing (c : Core)

namespace Point

def core : Point → Core
  | going c => c
  | failing c => c

/-- One step, or one frame popped. -/
def Moves (e : Setting) : Point → Point → Prop
  | going c, going d =>
    ∀ s : State, s.core = c →
      ∃ N s', s'.core = d ∧ ∀ n, N ≤ n → step (inner n) e s = .ok () s'
  | going c, failing d =>
    ∀ s : State, s.core = c →
      ∃ N s', s'.core = d ∧ ∀ n, N ≤ n → step (inner n) e s = backtrack e s'
  | failing c, failing d =>
    ∀ s : State, s.core = c → ∃ s', s'.core = d ∧ backtrack e s = backtrack e s'
  | failing c, going d =>
    ∀ s : State, s.core = c → ∃ s', s'.core = d ∧ backtrack e s = .ok () s'

/-- Any number of moves. -/
abbrev Reaches (e : Setting) : Point → Point → Prop := Relation.ReflTransGen (Moves e)

/-- The run from here stops with the answer and the core given. -/
def Ends (e : Setting) (h : Halt) (d : Core) : Point → Prop
  | going c =>
    ∀ s : State, s.core = c → ∃ N s', s'.core = d ∧ ∀ n, N ≤ n → run n e s = (h, s')
  | failing c =>
    ∀ s : State, s.core = c →
      ∃ N s', s'.core = d ∧ ∀ n, N ≤ n → finish n e (backtrack e s) = (h, s')

theorem Moves.ends {e : Setting} {p q : Point} {h : Halt} {d : Core} (hm : Moves e p q)
    (hq : q.Ends e h d) : p.Ends e h d := by
  cases p with
  | going c =>
    intro s hs
    cases q with
    | going c' =>
      obtain ⟨N, s', hc, hstep⟩ := hm s hs
      obtain ⟨M, t, ht, hrun⟩ := hq s' hc
      refine ⟨max N M + 1, t, ht, fun n hn => ?_⟩
      obtain ⟨k, rfl⟩ : ∃ k, n = k + 1 := ⟨n - 1, by omega⟩
      rw [run_succ, hstep k (by omega)]
      exact hrun k (by omega)
    | failing c' =>
      obtain ⟨N, s', hc, hstep⟩ := hm s hs
      obtain ⟨M, t, ht, hrun⟩ := hq s' hc
      refine ⟨max N M + 1, t, ht, fun n hn => ?_⟩
      obtain ⟨k, rfl⟩ : ∃ k, n = k + 1 := ⟨n - 1, by omega⟩
      rw [run_succ, hstep k (by omega)]
      exact hrun k (by omega)
  | failing c =>
    intro s hs
    cases q with
    | going c' =>
      obtain ⟨s', hc, hback⟩ := hm s hs
      rw [hback]
      exact hq s' hc
    | failing c' =>
      obtain ⟨s', hc, hback⟩ := hm s hs
      rw [hback]
      exact hq s' hc

theorem Reaches.ends {e : Setting} {p q : Point} {h : Halt} {d : Core} (hm : Reaches e p q)
    (hq : q.Ends e h d) : p.Ends e h d := by
  induction hm using Relation.ReflTransGen.head_induction_on with
  | refl => exact hq
  | head hm _ ih => exact hm.ends ih

end Point

/-- An action takes a core to a point: it goes on, or backtracks from there. -/
def Does (e : Setting) (x : Run Unit) (c : Core) : Point → Prop
  | .going d => ∀ s : State, s.core = c → ∃ s', s'.core = d ∧ x s = .ok () s'
  | .failing d => ∀ s : State, s.core = c → ∃ s', s'.core = d ∧ x s = backtrack e s'

theorem bind_ok {ε σ α β : Type} {x : EStateM ε σ α} {f : α → EStateM ε σ β} {s s' : σ} {a : α}
    (h : x s = .ok a s') : (x >>= f) s = f a s' := by
  simp only [bind, EStateM.bind, h]

theorem bind_error {α β : Type} {x : Run α} {f : α → Run β} {s s' : State} {h' : Halt}
    (h : x s = .error h' s') : (x >>= f) s = .error h' s' := by
  simp only [bind, EStateM.bind, h]

@[simp] theorem bind_get {β : Type} (f : State → Run β) (s : State) :
    ((get : Run State) >>= f) s = f s s := rfl

theorem bind_modifyGet {α β : Type} (g : State → α × State) (f : α → Run β) (s : State) :
    (modifyGet g >>= f) s = f (g s).1 (g s).2 := rfl

@[simp] theorem bind_modify {β : Type} (g : State → State) (f : Unit → Run β) (s : State) :
    ((modify g : Run Unit) >>= f) s = f () (g s) := rfl

@[simp] theorem core_emit (s : State) (e : Setting) (ev : Event) : (s.emit e ev).core = s.core := by
  unfold State.emit
  split <;> rfl

/-- The state on which an instruction that was fetched is executed. -/
def State.fetched (s : State) (e : Setting) (i : Instr) : State :=
  ({ s with tally := { s.tally with begun := s.tally.begun + 1 } } : State).emit e
    (.instruction s.ip i s.pos)

@[simp] theorem core_fetched (s : State) (e : Setting) (i : Instr) :
    (s.fetched e i).core = s.core := by
  rw [State.fetched, core_emit]
  rfl

theorem step_fetched (r : Runner) (e : Setting) (s : State) (i : Instr)
    (h : e.program.code[s.ip]? = some i) : step r e s = exec r e i (s.fetched e i) := by
  simp only [step, bind_get, h, bind_modify, emit, State.fetched]

/-- An instruction that needs no runs inside makes the move that its action makes. -/
theorem Does.moves {e : Setting} {c : Core} {p : Point} {i : Instr} {x : Run Unit}
    (h : Does e x c p) (hi : e.program.code[c.ip]? = some i) (hx : ∀ r, exec r e i = x) :
    Point.Moves e (.going c) p := by
  have fetch : ∀ s : State, s.core = c → ∀ n, step (inner n) e s = x (s.fetched e i) := by
    intro s hs n
    subst hs
    rw [step_fetched _ _ _ _ hi, hx]
  cases p with
  | going d =>
    intro s hs
    obtain ⟨s', hc, hrun⟩ := h (s.fetched e i) (by rw [core_fetched, hs])
    exact ⟨0, s', hc, fun n _ => by rw [fetch s hs, hrun]⟩
  | failing d =>
    intro s hs
    obtain ⟨s', hc, hrun⟩ := h (s.fetched e i) (by rw [core_fetched, hs])
    exact ⟨0, s', hc, fun n _ => by rw [fetch s hs, hrun]⟩

/-! ## Popping frames -/

theorem backtrack_eq (e : Setting) (s : State) :
    backtrack e s =
      backtrackFrom e s.stack.frames s.stack.size s.stack.size_eq { s with stack := .empty } :=
  rfl

/-- Backtracking depends on the frames, not on how their number is kept. -/
theorem backtrack_frames (e : Setting) (s : State) {F : List Frame} (h : s.stack.frames = F) :
    backtrack e s = backtrackFrom e F F.length rfl { s with stack := .empty } := by
  obtain ⟨ip, pos, start, ⟨frames, size, hsize⟩, regs, tally, memo, best, events⟩ := s
  cases h
  cases hsize
  rfl

theorem countRetry_quiet {e : Setting} (hq : Quiet e) (s : State) :
    ∃ s', s'.core = s.core ∧ countRetry e s = .ok () s' := by
  rw [countRetry, bind_modifyGet]
  simp only [hq.retries, hq.searchRetries, hq.signal, bne_self_eq_false, Bool.false_and,
    Bool.false_eq_true, ↓reduceIte]
  split
  · refine ⟨_, ?_, rfl⟩
    rfl
  · refine ⟨_, ?_, rfl⟩
    rfl

/-- Resuming goes on, as no limit stops it. -/
theorem resume_quiet {e : Setting} (hq : Quiet e) (ip : Addr) (pos : Nat) (stack : FrameStack)
    (s : State) :
    ∃ s', s'.core = { s.core with ip := ip, pos := pos, frames := stack.frames } ∧
      resume e ip pos stack s = .ok () s' := by
  obtain ⟨s', hc, hr⟩ := countRetry_quiet hq
    (({ s with ip := ip, pos := pos, stack := stack } : State).emit e (.backtrack ip pos))
  refine ⟨s', by rw [hc, core_emit]; rfl, ?_⟩
  simp only [resume, bind_modify, emit]
  exact hr

namespace Point

/-- Nothing is left to resume. -/
theorem ends_exhausted (e : Setting) (c : Core) (h : c.frames = []) :
    Ends e .exhausted c (.failing c) := by
  intro s hs
  subst hs
  refine ⟨0, { s with stack := .empty }, ?_, fun n _ => ?_⟩
  · have : s.stack.frames = [] := h
    simp [State.core, this]
  · rw [backtrack_frames e s h]
    rfl

variable {e : Setting}

theorem moves_alternative (hq : Quiet e) (c : Core) {ip : Addr} {pos : Nat} {K : List Frame}
    (h : c.frames = .alternative ip pos :: K) :
    Moves e (.failing c) (.going { c with ip := ip, pos := pos, frames := K }) := by
  intro s hs
  subst hs
  rw [backtrack_frames e s h]
  obtain ⟨s', hc, hr⟩ := resume_quiet hq ip pos ⟨K, K.length, rfl⟩ { s with stack := .empty }
  exact ⟨s', hc, hr⟩

/-- A frame that is no choice is undone. -/
theorem moves_undo (c : Core) {f : Frame} {K : List Frame} (h : c.frames = f :: K)
    (hf : f.isChoice = false) :
    Moves e (.failing c)
      (.failing { c with frames := K, regs := c.regs.undo e.program f }) := by
  intro s hs
  subst hs
  refine ⟨{ s with stack := ⟨K, K.length, rfl⟩, regs := s.regs.undo e.program f }, rfl, ?_⟩
  rw [backtrack_frames e s h, backtrack_eq]
  cases f <;> first | cases hf; done | rfl

theorem moves_guard (c : Core) {site pos : Nat} {K : List Frame}
    (h : c.frames = .guard site pos :: K) :
    Moves e (.failing c)
      (.failing { c with frames := K, memo := c.memo.map (·.markFailed site pos) }) := by
  intro s hs
  subst hs
  refine ⟨{ s with stack := ⟨K, K.length, rfl⟩, memo := s.memo.map (·.markFailed site pos) },
    rfl, ?_⟩
  rw [backtrack_frames e s h, backtrack_eq]
  rfl

theorem moves_stepBack_none (c : Core) {ip : Addr} {pos : Nat} {more : Option Nat}
    {K : List Frame} (h : c.frames = .stepBack ip pos more :: K) (hp : e.subject.prev? pos = none) :
    Moves e (.failing c) (.failing { c with frames := K }) := by
  intro s hs
  subst hs
  refine ⟨{ s with stack := ⟨K, K.length, rfl⟩ }, rfl, ?_⟩
  rw [backtrack_frames e s h, backtrack_eq]
  simp only [backtrackFrom, hp]
  rfl

theorem moves_stepBack (hq : Quiet e) (c : Core) {ip : Addr} {pos p : Nat} {more : Option Nat}
    {K : List Frame} (h : c.frames = .stepBack ip pos more :: K)
    (hp : e.subject.prev? pos = some p) :
    Moves e (.failing c) (.going { c with
      ip := ip, pos := p
      frames := if more.all (1 < ·) && 0 < p then .stepBack ip p (more.map (· - 1)) :: K
        else K }) := by
  intro s hs
  subst hs
  rw [backtrack_frames e s h]
  simp only [backtrackFrom, hp]
  obtain ⟨s', hc, hr⟩ := resume_quiet hq ip p
    (if more.all (1 < ·) && 0 < p then
      (⟨K, K.length, rfl⟩ : FrameStack).push (.stepBack ip p (more.map (· - 1)))
    else ⟨K, K.length, rfl⟩) { s with stack := .empty }
  refine ⟨s', ?_, hr⟩
  rw [hc]
  split <;> rfl

/-- Void frames may be put back while the machine is failing. -/
theorem moves_void (c : Core) :
    Moves e (.failing c) (.failing { c with frames := .void :: c.frames }) := by
  intro s hs
  subst hs
  refine ⟨{ s with stack := s.stack.push .void }, rfl, ?_⟩
  rw [backtrack_frames e s rfl,
    backtrack_frames e { s with stack := s.stack.push .void } (F := .void :: s.stack.frames) rfl]
  rfl

/-- Frames without choices are undone one after another. -/
theorem reaches_undoAll (F : List Frame) (hF : ∀ f ∈ F, f.isChoice = false) (c : Core)
    {K : List Frame} (h : c.frames = F ++ K) :
    Reaches e (.failing c)
      (.failing { c with frames := K, regs := c.regs.undoAll e.program F }) := by
  induction F generalizing c with
  | nil =>
    cases c
    cases h
    exact .refl
  | cons f F ih =>
    have hm := moves_undo (e := e) c (f := f) (K := F ++ K) h (hF f (by simp))
    exact .head hm (ih (fun g hg => hF g (by simp [hg])) _ rfl)

theorem reaches_settled (c : Core) {K K' : List Frame} (h : Settled K K')
    (hc : c.frames = K') :
    Reaches e (.failing c) (.failing { c with frames := K }) := by
  obtain ⟨vs, hv, rfl⟩ := h
  induction vs with
  | nil =>
    cases c
    cases hc
    exact .refl
  | cons v vs ih =>
    cases hv v (by simp)
    exact .tail (ih fun f hf => hv f (by simp [hf])) (moves_void _)

end Point
end RegexMachine.Machine
