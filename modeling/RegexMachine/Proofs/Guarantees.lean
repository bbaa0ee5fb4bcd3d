import RegexMachine.Proofs.Moves

/-!
What can be told of a machine under any limits, from any state of its guards and with any runs
inside its steps: that it does not fault, and where it is when it goes on.

A state is safe for a number of steps if neither it nor any state that so many steps lead to lacks
anything, and if every match that ends there is one that was meant. Code is safe by induction on that
number, since a loop comes back to where it was with a step less.
-/
namespace RegexMachine

/-- The group that an instruction ends. -/
def Instr.ended? : Instr → Option Nat
  | .groupEnd g _ => some g
  | .groupEndRecursive g => some g
  | _ => none

/-- Whether nothing has to be said of the state in which an instruction is met, and no runs are
made inside its step. -/
def Instr.isOrdinary : Instr → Bool
  | .accept => false
  | .drop => false
  | .absent _ => false
  | .groupEnd _ _ => false
  | .groupEndRecursive _ => false
  | _ => true

theorem Instr.ended?_of_isOrdinary {i : Instr} (h : i.isOrdinary = true) : i.ended? = none := by
  cases i <;> first | rfl | cases h

/-- Where a group was entered last. -/
def Captures.start? (c : Captures) (g : Nat) : Option Nat := (c.slot? g).bind Slot.start

namespace Machine

/-- The part of a state that decides whether code finds what it needs. -/
structure View where
  ip : Addr
  pos : Nat
  start : Nat
  frames : List Frame
  regs : Registers

def State.view (s : State) : View := ⟨s.ip, s.pos, s.start, s.stack.frames, s.regs⟩

@[simp] theorem view_emit (s : State) (e : Setting) (ev : Event) : (s.emit e ev).view = s.view := by
  unfold State.emit
  split <;> rfl

@[simp] theorem view_fetched (s : State) (e : Setting) (i : Instr) :
    (s.fetched e i).view = s.view := by
  rw [State.fetched, view_emit]
  rfl

/-- An action does not fault, and where it goes on its answer and the state are as wanted. -/
def Guarantees {α : Type} (x : Run α) (Q : α → State → Prop) (s : State) : Prop :=
  match x s with
  | .ok a t => Q a t
  | .error h _ => ∀ f, h ≠ .fault f

section
variable {α β : Type} {x : Run α} {Q Q' : α → State → Prop} {s t : State}

theorem Guarantees.of_ok {a : α} (h : x s = .ok a t) (hq : Q a t) : Guarantees x Q s := by
  unfold Guarantees
  rw [h]
  exact hq

theorem Guarantees.of_error {h : Halt} (hx : x s = .error h t) (hh : ∀ f, h ≠ .fault f) :
    Guarantees x Q s := by
  unfold Guarantees
  rw [hx]
  exact hh

/-- What an action does is what another one does elsewhere. -/
theorem Guarantees.of_eq {y : Run α} {u : State} (h : x s = y u) (hy : Guarantees y Q u) :
    Guarantees x Q s := by
  unfold Guarantees at *
  rwa [h]

theorem Guarantees.ok (h : Guarantees x Q s) {a : α} (hx : x s = .ok a t) : Q a t := by
  unfold Guarantees at h
  rwa [hx] at h

theorem Guarantees.ne_fault (h : Guarantees x Q s) {f : Fault} : x s ≠ .error (.fault f) t := by
  intro hx
  unfold Guarantees at h
  rw [hx] at h
  exact h f rfl

theorem Guarantees.mono (h : Guarantees x Q s) (hq : ∀ a t, Q a t → Q' a t) :
    Guarantees x Q' s := by
  unfold Guarantees at *
  cases hx : x s with
  | ok a t =>
    rw [hx] at h
    exact hq a t h
  | error k t =>
    rw [hx] at h
    exact h

theorem Guarantees.bind {f : α → Run β} {R : β → State → Prop}
    (h : Guarantees x (fun a t => Guarantees (f a) R t) s) : Guarantees (x >>= f) R s := by
  unfold Guarantees at h
  cases hx : x s with
  | ok a t =>
    rw [hx] at h
    unfold Guarantees
    rwa [bind_ok hx]
  | error k t =>
    rw [hx] at h
    exact .of_error (bind_error hx) h

end

/-- An action on the states of a view does not fault, and where it goes on the view is as wanted. -/
def Brings (x : Run Unit) (c : View) (Q : View → Prop) : Prop :=
  ∀ s : State, s.view = c → Guarantees x (fun _ t => Q t.view) s

section
variable {e : Setting} {c : View} {Q Q' : View → Prop} {x y : Run Unit}

theorem Brings.mono (h : Brings x c Q) (hq : ∀ d, Q d → Q' d) : Brings x c Q' :=
  fun s hs => (h s hs).mono fun _ t => hq t.view

theorem Brings.andThen (h : Brings x c fun d => Brings y d Q) : Brings (x >>= fun _ => y) c Q :=
  fun s hs => ((h s hs).mono fun _ t ht => ht t rfl).bind

theorem brings_modify {f : State → State} (h : ∀ s, s.view = c → Q (f s).view) :
    Brings (modify f) c Q := fun s hs => .of_ok rfl (h s hs)

theorem brings_emit {ev : Event} (h : Q c) : Brings (emit e ev) c Q :=
  brings_modify fun s hs => by rwa [view_emit, hs]

theorem brings_next (h : Q { c with ip := c.ip + 1 }) : Brings next c Q :=
  brings_modify fun s hs => by
    subst hs
    exact h

theorem brings_goTo {a : Addr} (h : Q { c with ip := a }) : Brings (goTo a) c Q :=
  brings_modify fun s hs => by
    subst hs
    exact h

theorem brings_modifyRegs {f : Registers → Registers} (h : Q { c with regs := f c.regs }) :
    Brings (modifyRegs f) c Q :=
  brings_modify fun s hs => by
    subst hs
    exact h

theorem brings_halt {h : Halt} (hh : ∀ f, h ≠ .fault f) : Brings (halt h) c Q :=
  fun _ _ => .of_error rfl hh

/-- A limit on frames may stop the machine, but that is no fault. -/
theorem guarantees_push {f : Frame} {s : State} {Q : Unit → State → Prop}
    (h : Q () { s with stack := s.stack.push f }) : Guarantees (push e f) Q s := by
  by_cases hl : e.limits.frames != 0 && e.limits.frames ≤ s.stack.size
  · refine .of_error (h := .limit (.frames e.limits.frames)) (t := s) ?_ (by simp)
    simp only [push, bind_get, hl, ↓reduceIte]
    rfl
  · refine .of_ok (t := { s with stack := s.stack.push f }) (a := ()) ?_ h
    simp only [push, bind_get, hl]
    rfl

theorem brings_push {f : Frame} (h : Q { c with frames := f :: c.frames }) :
    Brings (push e f) c Q := fun s hs => guarantees_push <| by
  subst hs
  exact h

theorem brings_fork {a : Addr} (h : Q { c with frames := .alternative a c.pos :: c.frames }) :
    Brings (fork e a) c Q := fun s hs => by
  subst hs
  refine Guarantees.bind (x := get) (.of_ok rfl ?_)
  refine Brings.andThen (c := s.view) (brings_emit (brings_push h)) s rfl

/-! ## Backtracking -/

theorem brings_countRetry (h : Q c) : Brings (countRetry e) c Q := fun s hs => by
  unfold countRetry
  refine Guarantees.bind (x := modifyGet _) (.of_ok rfl ?_)
  dsimp only
  have hview : ∀ t : Tally, ({ s with tally := t } : State).view = c := fun _ => hs
  split
  · exact .of_error rfl (by simp)
  · split
    · exact .of_error rfl (by simp)
    · split
      · refine Guarantees.bind (x := modify _) (.of_ok rfl ?_)
        split
        · exact .of_error rfl (by simp)
        · exact .of_ok rfl (by rwa [hview])
      · exact .of_ok rfl (by rwa [hview])

theorem brings_resume {ip : Addr} {pos : Nat} (stack : FrameStack)
    (h : Q { c with ip := ip, pos := pos, frames := stack.frames }) :
    Brings (resume e ip pos stack) c Q := by
  refine Brings.andThen (brings_modify fun s hs => ?_)
  subst hs
  exact Brings.andThen (brings_emit (brings_countRetry h))

theorem brings_backtrack_nil (h : c.frames = []) : Brings (backtrack e) c Q := fun s hs => by
  subst hs
  refine Guarantees.of_eq (backtrack_frames e s h) ?_
  exact .of_error rfl (by simp)

theorem brings_backtrack_alternative {ip : Addr} {pos : Nat} {K : List Frame}
    (h : c.frames = .alternative ip pos :: K) (hq : Q { c with ip := ip, pos := pos, frames := K }) :
    Brings (backtrack e) c Q := fun s hs => by
  subst hs
  refine Guarantees.of_eq (backtrack_frames e s h) ?_
  let t : State := { s with stack := .empty }
  exact brings_resume (c := t.view) ⟨K, K.length, rfl⟩ hq t rfl

/-- A frame that is no choice is undone. -/
theorem brings_backtrack_undo {f : Frame} {K : List Frame} (h : c.frames = f :: K)
    (hf : f.isChoice = false)
    (hb : Brings (backtrack e) { c with frames := K, regs := c.regs.undo e.program f } Q) :
    Brings (backtrack e) c Q := fun s hs => by
  subst hs
  let t : State := { s with stack := ⟨K, K.length, rfl⟩, regs := s.regs.undo e.program f }
  refine Guarantees.of_eq (y := backtrack e) (u := t) ?_ (hb t rfl)
  rw [backtrack_frames e s h, backtrack_eq]
  cases f <;> first | cases hf; done | rfl

theorem brings_backtrack_guard {site pos : Nat} {K : List Frame}
    (h : c.frames = .guard site pos :: K) (hb : Brings (backtrack e) { c with frames := K } Q) :
    Brings (backtrack e) c Q := fun s hs => by
  subst hs
  let t : State :=
    { s with stack := ⟨K, K.length, rfl⟩, memo := s.memo.map (·.markFailed site pos) }
  refine Guarantees.of_eq (y := backtrack e) (u := t) ?_ (hb t rfl)
  rw [backtrack_frames e s h, backtrack_eq]
  rfl

/-- A step back resumes one character further back, or is spent. -/
theorem brings_backtrack_stepBack {ip : Addr} {pos : Nat} {more : Option Nat} {K : List Frame}
    (h : c.frames = .stepBack ip pos more :: K)
    (hnone : Brings (backtrack e) { c with frames := K } Q)
    (hsome : ∀ p L, e.subject.prev? pos = some p →
      (L = K ∨ ∃ more', L = .stepBack ip p more' :: K) →
      Q { c with ip := ip, pos := p, frames := L }) :
    Brings (backtrack e) c Q := fun s hs => by
  subst hs
  refine Guarantees.of_eq (backtrack_frames e s h) ?_
  cases hp : e.subject.prev? pos with
  | none =>
    let t : State := { s with stack := ⟨K, K.length, rfl⟩ }
    refine Guarantees.of_eq (y := backtrack e) (u := t) ?_ (hnone t rfl)
    rw [backtrack_eq]
    simp only [backtrackFrom, hp]
    rfl
  | some p =>
    let t : State := { s with stack := .empty }
    let L : FrameStack := if more.all (1 < ·) && 0 < p then
        (⟨K, K.length, rfl⟩ : FrameStack).push (.stepBack ip p (more.map (· - 1)))
      else ⟨K, K.length, rfl⟩
    refine Guarantees.of_eq (y := resume e ip p L) (u := t) ?_ ?_
    · simp only [backtrackFrom, hp]
      rfl
    refine brings_resume (c := t.view) _ (hsome p L.frames hp ?_) t rfl
    dsimp only [L]
    split
    · exact Or.inr ⟨_, rfl⟩
    · exact Or.inl rfl

/-- The absent operator resumes at a shorter text, or is spent. -/
theorem brings_backtrack_absent {ip : Addr} {start stop : Nat} {K : List Frame}
    (h : c.frames = .absent ip start stop :: K)
    (hnone : Brings (backtrack e) { c with frames := K } Q)
    (hsome : ∀ p L, p < stop → start ≤ p → (L = K ∨ L = .absent ip start p :: K) →
      Q { c with ip := ip, pos := p, frames := L }) :
    Brings (backtrack e) c Q := fun s hs => by
  subst hs
  refine Guarantees.of_eq (backtrack_frames e s h) ?_
  cases hp : (e.subject.prev? stop).filter (start ≤ ·) with
  | none =>
    let t : State := { s with stack := ⟨K, K.length, rfl⟩ }
    refine Guarantees.of_eq (y := backtrack e) (u := t) ?_ (hnone t rfl)
    rw [backtrack_eq]
    simp only [backtrackFrom, hp]
    rfl
  | some p =>
    let t : State := { s with stack := .empty }
    let L : FrameStack := if start < p then
        (⟨K, K.length, rfl⟩ : FrameStack).push (.absent ip start p)
      else ⟨K, K.length, rfl⟩
    refine Guarantees.of_eq (y := resume e ip p L) (u := t) ?_ ?_
    · simp only [backtrackFrom, hp]
      rfl
    obtain ⟨hprev, hle⟩ := Option.filter_eq_some_iff.mp hp
    refine brings_resume (c := t.view) _
      (hsome p L.frames (Subject.prev?_lt hprev) (by simpa using hle) ?_) t rfl
    dsimp only [L]
    split
    · exact Or.inr rfl
    · exact Or.inl rfl

end

/-! ## Safe states -/

variable (Goal : Setting → View → Prop)

/-- What is said of a state before the next step: a match that ends there is one that was meant, what
is dropped is an alternative, and a group that ends does not end before it was entered. -/
structure Fair (e : Setting) (c : View) : Prop where
  goal : e.program.code[c.ip]? = some .accept → Goal e c
  top : e.program.code[c.ip]? = some .drop → ∃ a p K, c.frames = .alternative a p :: K
  close : ∀ i g start, e.program.code[c.ip]? = some i → i.ended? = some g →
    c.regs.captures.start? g = some start → start ≤ c.pos

/-- Runs inside the next step of a state do not fault. -/
def Trusted (r : Runner) (e : Setting) (s : State) : Prop :=
  ∀ b, e.program.code[s.ip]? = some (.absent b) → ∀ (e' : Setting) pos s', e'.program = e.program →
    ∀ f, (r e' b pos s').1 ≠ .fault f

/-- For so many steps nothing is missing, here and in runs inside steps. -/
def Safe : Nat → Setting → State → Prop
  | 0, _, _ => True
  | n + 1, e, s =>
    Fair Goal e s.view ∧
    (∀ r, Trusted r e s → Guarantees (step r e) (fun _ t => Safe n e t) s) ∧
    ∀ b, e.program.code[s.ip]? = some (.absent b) → ∀ (e' : Setting) pos (s' : State),
      e'.program = e.program → Safe n e' (s'.enter e' b pos)

theorem Safe.mono {Goal : Setting → View → Prop} {m n : Nat} {e : Setting} {s : State}
    (h : Safe Goal n e s) (hm : m ≤ n) : Safe Goal m e s := by
  induction n generalizing m e s with
  | zero =>
    obtain rfl : m = 0 := Nat.le_zero.mp hm
    exact h
  | succ n ih =>
    cases m with
    | zero => trivial
    | succ m =>
      obtain ⟨hfair, hstep, hinner⟩ := h
      have hm : m ≤ n := Nat.le_of_succ_le_succ hm
      refine ⟨hfair, fun r hr => (hstep r hr).mono fun _ t ht => ih ht hm, ?_⟩
      intro b hb e' pos s' he
      exact ih (hinner b hb e' pos s' he) hm

/-- The states of a view are safe for so many steps. -/
def Going (n : Nat) (e : Setting) (c : View) : Prop := ∀ s : State, s.view = c → Safe Goal n e s

/-- So are those that backtracking leads to. -/
abbrev Failing (n : Nat) (e : Setting) (c : View) : Prop := Brings (backtrack e) c (Going Goal n e)

variable {Goal} {m n : Nat} {e : Setting} {c : View}

theorem Going.mono (h : Going Goal n e c) (hm : m ≤ n) : Going Goal m e c :=
  fun s hs => (h s hs).mono hm

theorem Failing.mono (h : Failing Goal n e c) (hm : m ≤ n) : Failing Goal m e c :=
  Brings.mono h fun _ => (·.mono hm)

/-- Code is safe up to an instruction if it is met in a state as wanted, and what it brings is safe
for a step less. -/
theorem Going.of_fair {i : Instr} {x : Run Unit} (hi : e.program.code[c.ip]? = some i)
    (hfair : Fair Goal e c) (hno : ∀ b, i ≠ .absent b) (hx : ∀ r, exec r e i = x)
    (h : ∀ m < n, Brings x c (Going Goal m e)) : Going Goal n e c := by
  intro s hs
  subst hs
  cases n with
  | zero => trivial
  | succ n =>
    have hi' : e.program.code[s.ip]? = some i := hi
    refine ⟨hfair, fun r _ => ?_, fun b hb => absurd (Option.some.inj (hi.symm.trans hb)) (hno b)⟩
    refine Guarantees.of_eq (y := x) (u := s.fetched e i) ?_ ?_
    · rw [step_fetched _ _ _ _ hi', hx]
    · exact (h n (Nat.lt_succ_self n) _ (view_fetched s e i)).mono fun _ t ht => ht t rfl

/-- Most instructions may be met in any state. -/
theorem Going.of_exec {i : Instr} {x : Run Unit} (hi : e.program.code[c.ip]? = some i)
    (ho : i.isOrdinary = true) (hx : ∀ r, exec r e i = x)
    (h : ∀ m < n, Brings x c (Going Goal m e)) : Going Goal n e c := by
  refine .of_fair hi ⟨fun ha => ?_, fun hd => ?_, fun j g start hj hg => ?_⟩ (fun b hb => ?_) hx h
  · cases hi.symm.trans ha
    cases ho
  · cases hi.symm.trans hd
    cases ho
  · cases hi.symm.trans hj
    rw [Instr.ended?_of_isOrdinary ho] at hg
    cases hg
  · rw [hb] at ho
    cases ho

end Machine
end RegexMachine
