import RegexMachine.Proofs.CallSites
import RegexMachine.Proofs.Flow
import RegexMachine.Proofs.SafeCode

/-!
What code can come to. A set of places is closed under the flow of the code, up to places where it is
left; in such a set lies whatever the code comes to. The sets for the code of a tree are put together
from those for its parts, and say where its calls are made, which groups and loops it changes, and
that it gets on if the tree has a least length.
-/
namespace RegexMachine
open Machine

/-- What code is to obey: the setting it runs in, what calls of the code at an address can lead
from and to, and the instructions that are allowed at a position. -/
structure Rules where
  setting : Setting
  calls : Addr → Nat → Nat → Prop
  allows : Instr → Nat → Prop

namespace Rules

/-- At a place the instruction is allowed, and whatever it leads to is in a set. -/
structure Keeps (R : Rules) (S : Addr → Nat → Prop) (a q : Nat) : Prop where
  allowed : ∀ i, R.setting.program.code[a]? = some i → R.allows i q
  leads : ∀ i b y, R.setting.program.code[a]? = some i → Leads R.setting i a q b y → S b y
  call : ∀ t sub y, R.setting.program.code[a]? = some (.call t sub) → R.calls t q y → S (a + 1) y

/-- From a place on code obeys, until it leaves at one of some places. -/
def Confines (R : Rules) (exits : Addr → Nat → Prop) (a q : Nat) : Prop :=
  ∃ S : Addr → Nat → Prop, S a q ∧ ∀ b y, S b y → exits b y ∨ R.Keeps S b y

variable {R : Rules} {S T exits exits' : Addr → Nat → Prop} {a q : Nat} {i : Instr}

theorem Keeps.mono (h : R.Keeps S a q) (hS : ∀ b y, S b y → T b y) : R.Keeps T a q :=
  ⟨h.allowed, fun i b y hi hto => hS _ _ (h.leads i b y hi hto),
    fun t sub y hi hc => hS _ _ (h.call t sub y hi hc)⟩

namespace Confines

theorem cases (h : R.Confines exits a q) : exits a q ∨ R.Keeps (R.Confines exits) a q := by
  obtain ⟨S, hS, hclosed⟩ := h
  exact (hclosed a q hS).imp_right fun hkeeps => hkeeps.mono fun b y hb => ⟨S, hb, hclosed⟩

theorem exit (h : exits a q) : R.Confines exits a q :=
  ⟨fun b y => b = a ∧ y = q, ⟨rfl, rfl⟩, by
    rintro b y ⟨rfl, rfl⟩
    exact Or.inl h⟩

/-- Where code goes in circles it obeys if it does on every way round. -/
theorem loop (heads : Addr → Nat → Prop)
    (h : ∀ b y, heads b y → R.Keeps (R.Confines fun b y => exits b y ∨ heads b y) b y)
    (ha : R.Confines (fun b y => exits b y ∨ heads b y) a q) : R.Confines exits a q := by
  refine ⟨R.Confines fun b y => exits b y ∨ heads b y, ha, fun b y hb => ?_⟩
  rcases hb.cases with (hexit | hhead) | hkeeps
  · exact Or.inl hexit
  · exact Or.inr (h b y hhead)
  · exact Or.inr hkeeps

/-- After a piece of code that obeys comes another one. -/
theorem andThen (h : R.Confines exits a q) (h' : ∀ b y, exits b y → R.Confines exits' b y) :
    R.Confines exits' a q := by
  refine ⟨fun b y => R.Confines exits b y ∨ R.Confines exits' b y, Or.inl h, fun b y hb => ?_⟩
  have hnext : ∀ b y, R.Confines exits' b y →
      exits' b y ∨ R.Keeps (fun b y => R.Confines exits b y ∨ R.Confines exits' b y) b y :=
    fun b y hb => hb.cases.imp_right fun hkeeps => hkeeps.mono fun _ _ => Or.inr
  rcases hb with hb | hb
  · rcases hb.cases with hexit | hkeeps
    · exact hnext b y (h' b y hexit)
    · exact Or.inr (hkeeps.mono fun _ _ => Or.inl)
  · exact hnext b y hb

theorem go (h : R.Keeps (R.Confines exits) a q) : R.Confines exits a q :=
  .loop (fun b y => b = a ∧ y = q) (by
    rintro b y ⟨rfl, rfl⟩
    exact h.mono fun b y hb => hb.andThen fun _ _ hexit => .exit (Or.inl hexit))
    (.exit (Or.inr ⟨rfl, rfl⟩))

theorem exits_mono (h : R.Confines exits a q) (hexits : ∀ b y, exits b y → exits' b y) :
    R.Confines exits' a q := h.andThen fun b y hb => .exit (hexits b y hb)

/-- What is allowed may be more. -/
theorem rules_mono (h : R.Confines exits a q) (R' : Rules) (hsetting : R'.setting = R.setting)
    (hcalls : R'.calls = R.calls) (hallows : ∀ i y, R.allows i y → R'.allows i y) :
    R'.Confines exits a q := by
  obtain ⟨S, hS, hclosed⟩ := h
  refine ⟨S, hS, fun b y hb => (hclosed b y hb).imp_right fun hkeeps => ?_⟩
  exact ⟨fun i hi => hallows i y (hkeeps.allowed i (hsetting ▸ hi)),
    fun i b' y' hi hto => hkeeps.leads i b' y' (hsetting ▸ hi) (hsetting ▸ hto),
    fun t sub y' hi hc => hkeeps.call t sub y' (hsetting ▸ hi) (hcalls ▸ hc)⟩

end Confines

/-- An instruction that makes no call. -/
theorem Keeps.instr (hi : R.setting.program.code[a]? = some i) (hallows : R.allows i q)
    (hcall : ∀ t sub, i ≠ .call t sub) (hto : ∀ b y, Leads R.setting i a q b y → S b y) :
    R.Keeps S a q where
  allowed _ hj := Option.some.inj (hi.symm.trans hj) ▸ hallows
  leads _ b y hj hb := hto b y (Option.some.inj (hi.symm.trans hj) ▸ hb)
  call t sub _ hj _ := absurd (Option.some.inj (hi.symm.trans hj)) (hcall t sub)

/-- A call goes on after it, as far as it may lead. -/
theorem Keeps.call_instr {t sub : Nat} (hi : R.setting.program.code[a]? = some (.call t sub))
    (hallows : R.allows (.call t sub) q) (hto : ∀ y, R.calls t q y → S (a + 1) y) :
    R.Keeps S a q where
  allowed _ hj := Option.some.inj (hi.symm.trans hj) ▸ hallows
  leads _ b y hj hb := by
    cases hi.symm.trans hj
    exact hb.elim
  call t' sub' y hj hc := by
    cases hi.symm.trans hj
    exact hto y hc

end Rules

/-! ## Procedures -/

/-- Code that is entered at an address, with what it is to obey and where it is left. -/
structure Procedure where
  entry : Addr
  rules : Nat → Rules
  exits : Nat → Addr → Nat → Prop

/-- Procedures that obey their rules as long as those that they call come to their ends as expected. -/
structure Procedure.Confined (e : Setting) (procs : Procedure → Prop) : Prop where
  setting : ∀ P, procs P → ∀ q, (P.rules q).setting = e
  confines : ∀ P, procs P → ∀ q, (P.rules q).Confines (P.exits q) P.entry q
  /-- What is left at an end goes nowhere else. -/
  ends : ∀ P, procs P → ∀ q b y i, P.exits q b y → e.program.code[b]? = some i →
    (∀ c z, ¬ Leads e i b y c z) ∧ ∀ t sub, i ≠ .call t sub
  returns : ∀ P, procs P → ∀ q y, ¬ (P.rules q).allows .ret y
  calls : ∀ P, procs P → ∀ q t x y, (∀ Q, procs Q → Q.entry = t → ∃ b, Q.exits x b y) →
    (P.rules q).calls t x y

/-- Whatever a procedure comes to lies in its confines. -/
theorem Procedure.Confined.reach {e : Setting} {procs : Procedure → Prop}
    (h : Procedure.Confined e procs) {c : Addr} {p a q : Nat} (hreach : Reach e c p a q) :
    ∀ P, procs P → P.entry = c → (P.rules p).Confines (P.exits p) a q := by
  induction hreach with
  | entry a x =>
    rintro P hP rfl
    exact h.confines P hP x
  | step _ hi hto ih =>
    intro P hP hentry
    have hsetting := h.setting P hP
    rcases (ih P hP hentry).cases with hexit | hkeeps
    · exact absurd hto ((h.ends P hP _ _ _ _ hexit hi).1 _ _)
    · exact hkeeps.leads _ _ _ ((hsetting _).symm ▸ hi) ((hsetting _).symm ▸ hto)
  | call _ hcall _ hret ih ih' =>
    intro P hP hentry
    have hsetting := h.setting P hP
    rcases (ih P hP hentry).cases with hexit | hkeeps
    · exact absurd rfl ((h.ends P hP _ _ _ _ hexit hcall).2 _ _)
    · refine hkeeps.call _ _ _ ((hsetting _).symm ▸ hcall) (h.calls P hP _ _ _ _ fun Q hQ hq => ?_)
      -- A procedure that has come to a return has come to its end.
      rcases (ih' Q hQ hq).cases with hexit | hkeeps'
      · exact ⟨_, hexit⟩
      · exact absurd (hkeeps'.allowed _ ((h.setting Q hQ _).symm ▸ hret)) (h.returns Q hQ _ _)

/-- Wherever a procedure comes to, it is at an end or obeys its rules. -/
theorem Procedure.Confined.allows {e : Setting} {procs : Procedure → Prop}
    (h : Procedure.Confined e procs) {P : Procedure} (hP : procs P) {p a q : Nat} {i : Instr}
    (hreach : Reach e P.entry p a q) (hi : e.program.code[a]? = some i) :
    P.exits p a q ∨ (P.rules p).allows i q :=
  (h.reach hreach P hP rfl).cases.imp_right fun hkeeps =>
    hkeeps.allowed i ((h.setting P hP p).symm ▸ hi)

end RegexMachine
