import RegexMachine.Proofs.Effects
import RegexMachine.Proofs.GuardedSearches
import RegexMachine.Proofs.SafePrograms
import RegexMachine.Proofs.Separation

/-!
The states that runs of a program come to, those inside the steps of other runs included. A program
that was compiled from a pattern finds in each of them whatever it needs.
-/
namespace RegexMachine.Machine

/-- States that the runs of a program come to: where an attempt begins, where a step leads to, and
where the body of an absent operator begins to run on a part of the subject. -/
inductive Visited (p : Program) : Setting → State → Prop
  | attempt {e : Setting} (he : e.program = p) (st : State) (pos : Nat) :
    Visited p e ((st.enter e 0 pos).emit e (.start pos))
  | step {e : Setting} {s t : State} (n : Nat) (h : Visited p e s)
    (hstep : Machine.step (inner n) e s = .ok () t) : Visited p e t
  | inside {e : Setting} {s : State} {b : Addr} (h : Visited p e s)
    (hb : e.program.code[s.ip]? = some (.absent b)) (stop begun pos : Nat) (st : State) :
    Visited p (e.upTo stop begun) (st.enter (e.upTo stop begun) b pos)

variable {p : Program} {l : Compile.Layout} {root : Node Measured} {e : Setting} {s t : State}
  {Goal : Setting → View → Prop}

theorem Visited.program (h : Visited p e s) : e.program = p := by
  induction h with
  | attempt he => exact he
  | step _ _ _ ih => exact ih
  | inside _ _ _ _ _ _ ih => exact ih

/-- The run of a safe state does not fault. -/
theorem Safe.run_ne_fault {n : Nat} (h : Safe Goal n e s) : ∀ f, (run n e s).1 ≠ .fault f := by
  induction n generalizing e s with
  | zero => exact fun f => by simp [run]
  | succ n ih =>
    obtain ⟨-, hstep, hinner⟩ := h
    have hguaranteed := hstep (inner n) fun b hb e' pos s' he => ih (hinner b hb e' pos s' he)
    intro f
    rw [run_succ]
    unfold finish
    cases hs : Machine.step (inner n) e s with
    | ok a t => exact ih (hguaranteed.ok hs) f
    | error k t =>
      rintro rfl
      exact hguaranteed.ne_fault hs

/-- Runs inside the steps of a state do not fault that is safe for any number of steps. -/
theorem trusted_inner (h : ∀ n, Safe Goal n e s) (n : Nat) : Trusted (inner n) e s :=
  fun b hb e' pos s' he => ((h (n + 1)).2.2 b hb e' pos s' he).run_ne_fault

/-! ## States of compiled programs -/

theorem compiled_fits (hp : p.Compiled l root) (he : e.program = p) :
    ∀ r ∈ e.program.tables.subroutines, r.Fits e.program.tables := by
  subst he
  intro r hr
  have hreturns : Returns (fun _ _ => True) 0 e _ r _ := subroutine_returns hp 0 r hr e rfl
  exact hreturns.fits

/-- An attempt is safe from its beginning. -/
theorem attempt_safe (hp : p.Compiled l root) (he : e.program = p) (st : State) (pos n : Nat) :
    Safe (Matches l root) n e ((st.enter e 0 pos).emit e (.start pos)) := by
  obtain ⟨φ, y, u, L, hend, hsure⟩ : ∃ φ y u L, e.program.code[y]? = some .accept ∧
      Sure (Matches l root) n e u L φ ⟨none, 0, 0⟩ 0 y (matchExtent l root e) := main_sure hp he
  let c : View := (st.enter e 0 pos).view
  have hc : Entered e φ ⟨none, 0, 0⟩ 0 c := ⟨rfl, Registers.fits_clear e.program, by simp⟩
  refine hsure n (Nat.le_refl n) c hc (grounded_nil rfl) (fun m _ d hip hf hl hg => ?_) _ ?_
  · have hmatch : Matches l root e d := by
      rw [Matches, hl.1]
      exact hf
    exact going_accept (hip ▸ hend) hmatch hmatch.le hg.failing
  · rw [view_emit]

/-- All states that runs come to are safe. -/
theorem Visited.safe (hp : p.Compiled l root) (h : Visited p e s) (n : Nat) :
    Safe (Matches l root) n e s := by
  induction h generalizing n with
  | attempt he st pos => exact attempt_safe hp he st pos n
  | step k _ hstep ih => exact ((ih (n + 1)).2.1 (inner k) (trusted_inner ih k)).ok hstep
  | inside _ hb stop begun pos st ih => exact (ih (n + 1)).2.2 _ hb _ pos st rfl

/-- What is dropped is an alternative. -/
theorem Visited.top (hp : p.Compiled l root) (h : Visited p e s)
    (hd : e.program.code[s.ip]? = some .drop) :
    ∃ f K, s.stack.frames = f :: K ∧ f.isChoice = true := by
  obtain ⟨a, pos, K, hK⟩ := (h.safe hp 1).1.top hd
  exact ⟨_, K, hK, rfl⟩

/-- A step has an instruction, and does what it does. -/
theorem Visited.effect (hp : p.Compiled l root) (h : Visited p e s) {r : Runner}
    (hfits : s.view.Fits e.program) (hstep : Machine.step r e s = .ok () t) :
    ∃ i, e.program.code[s.ip]? = some i ∧ Effect e i s.view t.view :=
  step_effect r hstep (h.program ▸ hp.verified) (compiled_fits hp h.program) (h.top hp) hfits

theorem Visited.passes (hp : p.Compiled l root) (h : Visited p e s) {r : Runner}
    (hfits : s.view.Fits e.program) (hstep : Machine.step r e s = .ok () t) :
    Passes e.program s.view t.view := by
  obtain ⟨i, -, heffect⟩ := h.effect hp hfits hstep
  exact heffect.passes (compiled_fits hp h.program) hfits

/-- Whatever the registers and frames of a state refer to exists. -/
theorem Visited.fits (hp : p.Compiled l root) (h : Visited p e s) : s.view.Fits e.program := by
  induction h with
  | attempt he st pos =>
    rw [view_emit]
    exact ⟨Registers.fits_clear _, nofun⟩
  | step k h hstep ih => exact (h.passes hp ih hstep).fits ih
  | inside _ _ stop begun pos st => exact ⟨Registers.fits_clear _, nofun⟩

/-- A state in which the machine lacks nothing: there is an instruction all of whose numbers and
targets exist, as do the groups, loops and subroutines that registers and frames refer to; a match
that ends here does not end before its start; and neither the next step nor the run from here faults,
that is, they find the frames they look for, groups that end have been entered, and nothing falls
outside its table or below zero. -/
structure InOrder (e : Setting) (s : State) : Prop where
  instr : ∃ i, e.program.code[s.ip]? = some i ∧
    i.error? e.program.tables e.program.code.size s.ip = none
  fits : s.view.Fits e.program
  accept : e.program.code[s.ip]? = some .accept → s.start ≤ s.pos
  step : ∀ n f t, Machine.step (inner n) e s ≠ .error (.fault f) t
  run : ∀ n f, (run n e s).1 ≠ .fault f

/-- In every state that a run of a compiled program comes to everything is in order, whatever the
subject, the options, the limits and the start. -/
theorem visited_inOrder {setting : Pattern.Setting} {options : Options}
    {properties : PropertyRegistry}
    (hprogram : (Compilation.ofPattern setting options properties).result = .ok p)
    (h : Visited p e s) : InOrder e s := by
  obtain ⟨o, t, -, hparse, htree⟩ := Compilation.ofPattern_ok hprogram
  obtain ⟨a, l, -, hp, -⟩ := Compilation.ofTree_compiled htree (Pattern.parse_groupNumbers hparse)
    (Pattern.parse_separate hparse)
  have hsafe := h.safe hp
  have hstep : ∀ n f t, Machine.step (inner n) e s ≠ .error (.fault f) t := fun n f t =>
    ((hsafe 1).2.1 (inner n) (trusted_inner hsafe n)).ne_fault
  refine ⟨?_, h.fits hp, fun ha => ((hsafe 1).1.goal ha).le, hstep, fun n => (hsafe n).run_ne_fault⟩
  cases hi : e.program.code[s.ip]? with
  | none =>
    refine absurd ?_ (hstep 0 (.outside e.program.size s.ip) s)
    simp only [Machine.step, bind_get, hi]
    rfl
  | some i => exact ⟨i, rfl, verified_instr (h.program ▸ hp.verified) hi⟩

/-- The pattern `(a)(?!b)\g<1>`, whose group is called and which has a region that is unwound. -/
def calling : Pattern.Setting :=
  ⟨#[40, 97, 41, 40, 63, 33, 98, 41, 92, 103, 60, 49, 62], .native, .ascii, .standard⟩

theorem calling_compiles :
    (Compilation.ofPattern calling .empty .empty).result.toOption.isSome = true := by
  decide +kernel

/-- Its program. -/
def callingProgram : Program :=
  (Compilation.ofPattern calling .empty .empty).result.toOption.get calling_compiles

/-- A run of it on the text `aa`. -/
def callingRun : Setting :=
  ⟨callingProgram, ⟨#[97, 97], .ascii, false, false⟩, ⟨0, 0, 1024, 0, 16384⟩, .empty, 0,
    fun _ => false, false⟩

/-- Everything is in order where a match is attempted. -/
theorem visited_calling :
    InOrder callingRun ((State.initial.enter callingRun 0 0).emit callingRun (.start 0)) := by
  have hp : (Compilation.ofPattern calling .empty .empty).result = .ok callingProgram :=
    ok_of_isSome calling_compiles
  have hrun : callingRun.program = callingProgram := by unfold callingRun; with_reducible rfl
  exact visited_inOrder hp (.attempt hrun .initial 0)

end RegexMachine.Machine
