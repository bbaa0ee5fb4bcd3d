import Mathlib.Algebra.GroupWithZero.Nat
import RegexMachine.Proofs.Closings
import RegexMachine.Proofs.Confinement
import RegexMachine.Proofs.SafeTrees

/-!
The course of the code of a tree. From its beginning it comes to places of its own only, and to its end
no earlier in the subject than it began, and later if the tree has a least length. On the way it
changes groups and loops of its own, and makes the calls that the tree has.
-/
namespace RegexMachine
open Compile Machine

/-- Whether what a node looks for further back makes no calls, if it is a lookbehind. -/
def Node.behindMute {α : Type} : Node α → Bool
  | .look _ k body => !k.behind || body.callees.isEmpty
  | _ => true

/-- Code of trees, run in a setting. -/
structure Course where
  built : Built
  setting : Setting
  scale : Scale
  /-- Least lengths of the groups that are called. -/
  weight : Nat → Nat
  /-- Lengths are right. -/
  strict : Prop

namespace Node

theorem weighedAll_mem {s : Scale} {ns : List (Node Measured)} (h : WeighedAll s ns) {c : Node Measured}
    (hc : c ∈ ns) : c.Weighed s := by
  induction ns with
  | nil => cases hc
  | cons n ns ih =>
    rcases List.mem_cons.mp hc with rfl | hc
    · exact h.1
    · exact ih h.2 hc

theorem Weighed.child {s : Scale} {n c : Node Measured} (h : n.Weighed s) (hc : c ∈ n.children) :
    c.Weighed s := by
  cases n with
  | atom note a => cases hc
  | group note kind body =>
    obtain rfl := List.mem_singleton.mp hc
    cases kind <;> exact h.2
  | conditional note t gs yes no =>
    rcases List.mem_cons.mp hc with rfl | hc
    · exact h.2.1
    · cases no with
      | none => cases hc
      | some no => exact List.mem_singleton.mp hc ▸ h.2.2
  | sequence note items => exact weighedAll_mem h.2 hc
  | alternation note branches => exact weighedAll_mem h.2 hc
  | _ => exact List.mem_singleton.mp hc ▸ h.2

theorem Weighed.subtree {s : Scale} {n m : Node Measured} (h : n.Weighed s) (hm : m ∈ n.subtrees) :
    m.Weighed s := by
  induction n using Node.induction with
  | step n ih =>
    rcases mem_subtrees.mp hm with rfl | ⟨c, hc, hm⟩
    · exact h
    · exact ih c hc (h.child hc) hm

end Node

namespace Course

/-- How far code of some least length gets. -/
def Past (C : Course) (w p q : Nat) : Prop := p ≤ q ∧ (C.strict → 0 < w → p < q)

/-- Where code of some least length ends that began at a position. -/
def ends (C : Course) (y : Addr) (w p : Nat) : Addr → Nat → Prop := fun b q => b = y ∧ C.Past w p q

/-- What calls of the code at an address can lead from and to. -/
def returns (C : Course) (t q y : Nat) : Prop :=
  ∀ g sub, (C.built.layout.subroutines[g]?).join = some sub →
    (C.built.subs[sub]?).elim 0 (·.entry) = t → C.Past (C.weight g) q y

/-- The code at an address is that of the body of an absent operator in a tree, and has no guards. -/
def Absents (C : Course) (n : Node Measured) (lo : Nat) (b : Addr) : Prop :=
  ∃ note body, Node.group note .absent body ∈ n.subtrees ∧ ∃ later z w, lo ≤ z.loops ∧
    C.built.NodeAt none body none later z b w ∧ C.built.code[w]? = some .absentEnd

/-- What instructions the code of a tree may meet. -/
def allows (C : Course) (n : Node Measured) (lo p : Nat) : Instr → Nat → Prop
  | .accept, _ => False
  | .ret, _ => False
  | .absentEnd, _ => False
  | .groupEndRecursive _, _ => False
  | .repeatEnter id, _ => lo ≤ id ∧ id < C.built.loops.size
  | .repeatNext id, _ => lo ≤ id ∧ id < C.built.loops.size
  | .groupStart g _, _ => g ∈ n.groupNumbers
  | .groupEnd g _, _ => g ∈ n.groupNumbers
  | .absent b, _ => C.Absents n lo b
  | .call _ sub, q => ∃ g, (C.built.layout.subroutines[g]?).join = some sub ∧ (C.strict → n.Meets p g q)
  | _, _ => True

/-- What the code of a tree is to obey that was entered at a position. -/
def rules (C : Course) (n : Node Measured) (lo p : Nat) : Rules := ⟨C.setting, C.returns, C.allows n lo p⟩

/-- What the code of trees needs to keep its course. -/
structure Sound (C : Course) : Prop where
  serves : Serves C.setting.program C.built
  marks : ∀ (a b : Addr) i j mark, C.built.code[a]? = some i → C.built.code[b]? = some j →
    i.closed? = some mark → j.closed? = some mark → a = b

/-- From where code of a shape is entered, it keeps to its course. -/
def Flows (C : Course) (n : Node Measured) (lo p₀ w : Nat) (part : Part) : Prop :=
  ∀ φ later z x y, part φ later z x y → lo ≤ z.loops → ∀ p, p₀ ≤ p →
    (C.rules n lo p₀).Confines (C.ends y w p) x p

variable {C : Course} {n : Node Measured} {lo p₀ p q r w w' : Nat} {part part' : Part} {x y a b : Addr}
  {i : Instr} {exits : Addr → Nat → Prop} {z : Zone} {φ : Promise} {later : Nat → Prop}

/-! ## Positions -/

theorem Past.refl (C : Course) (p : Nat) : C.Past 0 p p :=
  ⟨Nat.le_refl p, fun _ h => absurd h (Nat.lt_irrefl 0)⟩

theorem Past.of_le (h : p ≤ q) : C.Past 0 p q := ⟨h, fun _ h => absurd h (Nat.lt_irrefl 0)⟩

theorem Past.weaken (h : C.Past w p q) (hw : 0 < w' → 0 < w) : C.Past w' p q :=
  ⟨h.1, fun hs hpos => h.2 hs (hw hpos)⟩

theorem Past.none (h : C.Past w p q) : C.Past 0 p q := .of_le h.1

/-- One piece after another gets on if one of them does. -/
theorem Past.trans (h : C.Past w p q) (h' : C.Past w' q r) {v : Nat} (hv : 0 < v → 0 < w ∨ 0 < w') :
    C.Past v p r := by
  refine ⟨Nat.le_trans h.1 h'.1, fun hs hpos => ?_⟩
  rcases hv hpos with hw | hw
  · exact Nat.lt_of_lt_of_le (h.2 hs hw) h'.1
  · exact Nat.lt_of_le_of_lt h.1 (h'.2 hs hw)

theorem Flows.weaken (h : C.Flows n lo p₀ w part) (hw : 0 < w' → 0 < w) : C.Flows n lo p₀ w' part :=
  fun φ later z x y hpart hz p hp =>
    (h φ later z x y hpart hz p hp).exits_mono fun _ _ hq => ⟨hq.1, hq.2.weaken hw⟩

/-! ## Instructions -/

section
variable (hC : C.Sound)
include hC

theorem Sound.code (hi : C.built.code[a]? = some i) : C.setting.program.code[a]? = some i :=
  hC.serves.code ▸ hi

theorem Sound.keeps {S : Addr → Nat → Prop} (hi : C.built.code[a]? = some i)
    (hallows : C.allows n lo p₀ i q) (hcall : ∀ t sub, i ≠ .call t sub)
    (hto : ∀ b y, Leads C.setting i a q b y → S b y) : (C.rules n lo p₀).Keeps S a q :=
  .instr (hC.code hi) hallows hcall hto

theorem Sound.instr (hi : C.built.code[a]? = some i) (hallows : C.allows n lo p₀ i q)
    (hcall : ∀ t sub, i ≠ .call t sub)
    (hto : ∀ b y, Leads C.setting i a q b y → (C.rules n lo p₀).Confines exits b y) :
    (C.rules n lo p₀).Confines exits a q :=
  .go (hC.keeps hi hallows hcall hto)

/-- An instruction that only goes on. -/
theorem Sound.next (hi : C.built.code[a]? = some i) (hallows : C.allows n lo p₀ i q)
    (hcall : ∀ t sub, i ≠ .call t sub) (hnext : ∀ b y, Leads C.setting i a q b y → b = a + 1 ∧ y = q)
    (h : (C.rules n lo p₀).Confines exits (a + 1) q) : (C.rules n lo p₀).Confines exits a q :=
  hC.instr hi hallows hcall fun b y hb => by
    obtain ⟨rfl, rfl⟩ := hnext b y hb
    exact h

theorem Sound.jump {t : Addr} (hi : C.built.code[a]? = some (.jump t))
    (h : (C.rules n lo p₀).Confines exits t q) : (C.rules n lo p₀).Confines exits a q :=
  hC.instr hi trivial nofun fun b y hb => by
    obtain ⟨rfl, rfl⟩ := hb
    exact h

theorem Sound.fork {t : Addr} (hi : C.built.code[a]? = some (.fork t))
    (h : (C.rules n lo p₀).Confines exits (a + 1) q)
    (h' : (C.rules n lo p₀).Confines exits t q) : (C.rules n lo p₀).Confines exits a q :=
  hC.instr hi trivial nofun fun b y hb => by
    obtain ⟨rfl | rfl, rfl⟩ := hb
    · exact h
    · exact h'

theorem Sound.guard (h : C.built.GuardAt φ later z x y)
    (hy : (C.rules n lo p₀).Confines exits y q) : (C.rules n lo p₀).Confines exits x q := by
  rcases h with rfl | ⟨ψ, id, -, -, hi, rfl⟩
  · exact hy
  · exact hC.next hi trivial nofun (fun _ _ h => h) hy

theorem Sound.offer {greedy : Bool} {exit : Addr} (h : C.built.OfferAt greedy exit x y)
    (hy : (C.rules n lo p₀).Confines exits y q)
    (hexit : (C.rules n lo p₀).Confines exits exit q) : (C.rules n lo p₀).Confines exits x q := by
  unfold Built.OfferAt at h
  split at h
  · obtain ⟨hi, rfl⟩ := h
    exact hC.fork hi hy hexit
  · obtain ⟨hi, hj, rfl⟩ := h
    exact hC.fork hi (hC.jump hj hexit) hy

/-! ## Loops -/

/-- A round ends before the instruction that leads back, or after it where nothing was consumed. -/
theorem Sound.round {info : Info} (hbody : C.Flows n lo p₀ info.minChars part)
    (h : C.built.RoundAt info part φ later z x y) (hz : lo ≤ z.loops) (hp : p₀ ≤ p) :
    (C.rules n lo p₀).Confines
      (fun b q => (b = y ∨ info.minChars = 0 ∧ b = y + 1) ∧ C.Past info.minChars p q) x p := by
  unfold Built.RoundAt at h
  split at h
  · exact (hbody _ _ _ _ _ h hz p hp).exits_mono fun b q hq => ⟨Or.inl hq.1, hq.2⟩
  · obtain ⟨id, w, -, hstart, hround, hend, rfl⟩ := h
    have hmin : info.minChars = 0 := by omega
    refine hC.next hstart trivial nofun (fun _ _ h => h) ?_
    refine (hbody _ _ _ _ _ hround hz p hp).andThen ?_
    rintro _ q ⟨rfl, hq⟩
    refine hC.instr hend trivial nofun fun b y hb => ?_
    obtain ⟨hb, rfl⟩ := hb
    refine .exit ⟨?_, hq⟩
    rcases hb with rfl | rfl
    · exact Or.inl rfl
    · exact Or.inr ⟨hmin, rfl⟩

/-- From the head of a loop, code comes to the end of a round or leaves. -/
theorem Sound.star {greedy : Bool} {info : Info} {f : Way}
    (hbody : C.Flows n lo p₀ info.minChars part) :
    C.Flows n lo p₀ 0 (C.built.StarAt greedy info f part) := by
  rintro φ later z x _ ⟨g, o, w, hguard, hoffer, hround, hback, rfl⟩ hz p hp
  -- Every round begins at the head again, no earlier in the subject.
  have hhead : ∀ q, p ≤ q → (C.rules n lo p₀).Confines
      (fun b y => C.ends (w + 1) 0 p b y ∨ b = w ∧ p ≤ y) x q := fun q hq => by
    refine hC.guard hguard (hC.offer hoffer ?_ (.exit (Or.inl ⟨rfl, .of_le hq⟩)))
    refine (hC.round hbody hround hz (Nat.le_trans hp hq)).exits_mono ?_
    rintro b y ⟨hb, hy⟩
    have hle := Nat.le_trans hq hy.1
    rcases hb with rfl | ⟨-, rfl⟩
    · exact Or.inr ⟨rfl, hle⟩
    · exact Or.inl ⟨rfl, .of_le hle⟩
  refine .loop (fun b y => b = w ∧ p ≤ y) ?_ (hhead p (Nat.le_refl p))
  rintro _ q ⟨rfl, hq⟩
  refine hC.keeps hback trivial nofun fun b y hb => ?_
  obtain ⟨rfl, rfl⟩ := hb
  exact hhead _ hq

theorem Sound.greedyPlus {info : Info} {f : Way} (hbody : C.Flows n lo p₀ info.minChars part) :
    C.Flows n lo p₀ info.minChars (C.built.GreedyPlusAt info f part) := by
  rintro φ later z x _ ⟨g, w, hstart, hguard, hfork, hround, hback, rfl⟩ hz p hp
  have hrounds : ∀ q, p ≤ q → (C.rules n lo p₀).Confines
      (fun b y => C.ends (w + 1) info.minChars p b y ∨ b = w ∧ C.Past info.minChars p y) (g + 1) q := by
    intro q hq
    refine (hC.round hbody hround hz (Nat.le_trans hp hq)).exits_mono ?_
    rintro b y ⟨hb, hy⟩
    have hpast : C.Past info.minChars p y := (Past.of_le hq).trans hy Or.inr
    rcases hb with rfl | ⟨-, rfl⟩
    · exact Or.inr ⟨rfl, hpast⟩
    · exact Or.inl ⟨rfl, hpast⟩
  refine .loop (fun b y => b = w ∧ C.Past info.minChars p y) ?_
    (hC.jump hstart (hrounds p (Nat.le_refl p)))
  rintro _ q ⟨rfl, hq⟩
  refine hC.keeps hback trivial nofun fun b y hb => ?_
  obtain ⟨rfl, rfl⟩ := hb
  exact hC.guard hguard (hC.fork hfork (hrounds _ hq.1) (.exit (Or.inl ⟨rfl, hq⟩)))

theorem Sound.lazyPlus {info : Info} {f : Way} (hbody : C.Flows n lo p₀ info.minChars part) :
    C.Flows n lo p₀ info.minChars (C.built.LazyPlusAt info f part) := by
  rintro φ later z x _ ⟨g, w, hguard, hround, hback, rfl⟩ hz p hp
  have hrounds : ∀ q, p ≤ q → (C.rules n lo p₀).Confines
      (fun b y => C.ends (w + 1) info.minChars p b y ∨ b = w ∧ C.Past info.minChars p y) x q := by
    intro q hq
    refine hC.guard hguard ((hC.round hbody hround hz (Nat.le_trans hp hq)).exits_mono ?_)
    rintro b y ⟨hb, hy⟩
    have hpast : C.Past info.minChars p y := (Past.of_le hq).trans hy Or.inr
    rcases hb with rfl | ⟨-, rfl⟩
    · exact Or.inr ⟨rfl, hpast⟩
    · exact Or.inl ⟨rfl, hpast⟩
  refine .loop (fun b y => b = w ∧ C.Past info.minChars p y) ?_ (hrounds p (Nat.le_refl p))
  rintro _ q ⟨rfl, hq⟩
  refine hC.keeps hback trivial nofun fun b y hb => ?_
  obtain ⟨rfl | rfl, rfl⟩ := hb
  · exact .exit (Or.inl ⟨rfl, hq⟩)
  · exact hrounds _ hq.1

theorem Sound.plus {greedy : Bool} {info : Info} {f : Way}
    (hbody : C.Flows n lo p₀ info.minChars part) :
    C.Flows n lo p₀ info.minChars (C.built.PlusAt greedy info f part) := by
  unfold Built.PlusAt
  split
  · exact hC.greedyPlus hbody
  · exact hC.lazyPlus hbody

omit hC in
theorem Flows.times {f : Way} (hbody : C.Flows n lo p₀ w part) (k : Nat) :
    C.Flows n lo p₀ (w * k) (Built.TimesAt f part k) := by
  induction k with
  | zero =>
    rintro φ later z x _ rfl hz p hp
    exact .exit ⟨rfl, .refl C p⟩
  | succ k ih =>
    rintro φ later z x y ⟨v, hfirst, hrest⟩ hz p hp
    refine (hbody _ _ _ _ _ hfirst hz p hp).andThen ?_
    rintro _ q ⟨rfl, hq⟩
    refine (ih _ _ _ _ _ hrest hz q (Nat.le_trans hp hq.1)).exits_mono ?_
    rintro b r ⟨hb, hr⟩
    exact ⟨hb, hq.trans hr fun h => Or.inl (Nat.pos_of_mul_pos_right h)⟩

theorem Sound.upTo {greedy : Bool} {f : Way} (hbody : C.Flows n lo p₀ w part) (k : Nat) :
    C.Flows n lo p₀ 0 (C.built.UpToAt greedy f part k) := by
  induction k with
  | zero =>
    rintro φ later z x _ rfl hz p hp
    exact .exit ⟨rfl, .refl C p⟩
  | succ k ih =>
    rintro φ later z x y ⟨o, v, hoffer, hfirst, hrest⟩ hz p hp
    refine hC.offer hoffer ?_ (.exit ⟨rfl, .refl C p⟩)
    refine (hbody _ _ _ _ _ hfirst hz p hp).andThen ?_
    rintro _ q ⟨rfl, hq⟩
    refine (ih _ _ _ _ _ hrest hz q (Nat.le_trans hp hq.1)).exits_mono ?_
    rintro b r ⟨hb, hr⟩
    exact ⟨hb, .of_le (Nat.le_trans hq.1 hr.1)⟩

theorem Sound.unrolled {b : Bounds} {greedy : Bool} {info : Info} {f : Way}
    (hbody : C.Flows n lo p₀ info.minChars part) :
    C.Flows n lo p₀ (info.minChars * b.min) (C.built.UnrolledAt b greedy info f part) := by
  intro φ later z x y h hz p hp
  unfold Built.UnrolledAt at h
  split at h
  · obtain ⟨v, hfront, hplus⟩ := h
    refine ((hbody.times _) _ _ _ _ _ hfront hz p hp).andThen ?_
    rintro _ q ⟨rfl, hq⟩
    refine ((hC.plus hbody) _ _ _ _ _ hplus hz q (Nat.le_trans hp hq.1)).exits_mono ?_
    rintro b r ⟨hb, hr⟩
    exact ⟨hb, hq.trans hr fun h => Or.inr (Nat.pos_of_mul_pos_right h)⟩
  · obtain ⟨v, hfront, hmore⟩ := h
    refine ((hbody.times _) _ _ _ _ _ hfront hz p hp).andThen ?_
    rintro _ q ⟨rfl, hq⟩
    refine ((hC.upTo hbody _) _ _ _ _ _ hmore hz q (Nat.le_trans hp hq.1)).exits_mono ?_
    rintro b r ⟨hb, hr⟩
    exact ⟨hb, hq.trans hr fun h => Or.inl h⟩

theorem Sound.counted {b : Bounds} {greedy : Bool} {info : Info}
    (hbody : C.Flows n lo p₀ info.minChars part) :
    C.Flows n lo p₀ (info.minChars * b.min) (C.built.CountedAt b greedy info part) := by
  rintro φ later z x _ ⟨id, w, hid, henter, hloop, hround, hnext, rfl⟩ hz p hp
  have hin : lo ≤ id ∧ id < C.built.loops.size :=
    ⟨Nat.le_trans hz hid, (Array.getElem?_eq_some_iff.mp hloop).1⟩
  have htable := hC.serves.loops id _ hloop
  have hrounds : ∀ q, p ≤ q → (C.rules n lo p₀).Confines
      (fun a y => C.ends (w + 1) (info.minChars * b.min) p a y ∨ a = w ∧ C.Past info.minChars p y)
      (x + 1) q := by
    intro q hq
    refine (hC.round hbody hround (Nat.le_succ_of_le hin.1) (Nat.le_trans hp hq)).exits_mono ?_
    rintro a y ⟨ha, hy⟩
    have hpast : C.Past info.minChars p y := (Past.of_le hq).trans hy Or.inr
    rcases ha with rfl | ⟨-, rfl⟩
    · exact Or.inr ⟨rfl, hpast⟩
    · exact Or.inl ⟨rfl, hpast.weaken Nat.pos_of_mul_pos_right⟩
  refine .loop (fun a y => a = w ∧ C.Past info.minChars p y) ?_ ?_
  · rintro _ q ⟨rfl, hq⟩
    refine hC.keeps hnext hin nofun fun a y ha => ?_
    obtain ⟨l, hl, ha, rfl⟩ := ha
    cases htable.symm.trans hl
    rcases ha with rfl | rfl
    · exact hrounds _ hq.1
    · exact .exit (Or.inl ⟨rfl, hq.weaken Nat.pos_of_mul_pos_right⟩)
  · refine hC.instr henter hin nofun fun a y ha => ?_
    obtain ⟨l, hl, ha, rfl⟩ := ha
    cases htable.symm.trans hl
    rcases ha with rfl | ⟨hmin, rfl⟩
    · exact hrounds _ (Nat.le_refl _)
    · refine .exit (Or.inl ⟨rfl, (Past.refl C _).weaken fun h => ?_⟩)
      have hzero : b.min = 0 := hmin
      simp [hzero] at h

/-- A repeat gets on if it must repeat what gets on. -/
theorem Sound.repeated {b : Bounds} {greedy : Bool} {body : Node Measured} {f : Way}
    (hb : b.max.all (b.min ≤ ·) = true) (hbody : C.Flows n lo p₀ body.info.minChars part) :
    C.Flows n lo p₀ (body.info.minChars * b.min)
      (C.built.RepeatAt b greedy (repeatPlan b body) body.info f part) := by
  unfold repeatPlan
  split
  · rename_i hmax
    rw [hmax] at hb
    have hmin : b.min = 0 := by simpa using hb
    rintro φ later z x _ rfl hz p hp
    exact .exit ⟨rfl, (Past.refl C p).weaken fun h => by simp [hmin] at h⟩
  · rename_i hmin _
    exact (hC.upTo hbody 1).weaken fun h => by simp [hmin] at h
  · rename_i hmin _
    exact (hC.star hbody).weaken fun h => by simp [hmin] at h
  · rename_i hmin _
    exact (hC.plus hbody).weaken fun h => by simpa [hmin] using h
  · split
    · exact hC.unrolled hbody
    · exact hC.counted hbody

/-! ## Regions, choices and groups -/

theorem Sound.atomic (hbody : C.Flows n lo p₀ w part) :
    C.Flows n lo p₀ w (C.built.AtomicAt part) := by
  rintro φ later z x _ ⟨mark, v, hstart, hpart, hend, rfl⟩ hz p hp
  refine hC.next hstart trivial nofun (fun _ _ h => h) ?_
  refine (hbody _ _ _ _ _ hpart hz p hp).andThen ?_
  rintro _ q ⟨rfl, hq⟩
  exact hC.next hend trivial nofun (fun _ _ h => h) (.exit ⟨rfl, hq⟩)

/-- The body of a lookaround, which may begin further back. -/
theorem Sound.lookBody {k : Look} {info : Info} {mark : Nat}
    (hbody : ∀ later x y, part none later z x y → ∀ q, (k.behind = false → p₀ ≤ q) →
      (C.rules n lo p₀).Confines (fun b _ => b = y) x q)
    (h : C.built.LookBodyAt k info part mark φ later z x y) (hp : p₀ ≤ p)
    (hskip : ∀ c, C.built.code[c]? = some (.lookEnd mark) →
      (C.rules n lo p₀).Confines exits (c + 1) p)
    (hend : ∀ q, (C.rules n lo p₀).Confines exits y q) :
    (C.rules n lo p₀).Confines exits x p := by
  obtain ⟨hstart, h⟩ := h
  refine hC.instr hstart trivial nofun fun b q hb => ?_
  obtain ⟨rfl | ⟨c, hc, rfl⟩, rfl⟩ := hb
  · split at h
    · rename_i hbehind
      obtain ⟨w, hstep, hpart, hcheck, rfl⟩ := h
      refine hC.instr hstep trivial nofun fun b q hb => ?_
      obtain ⟨rfl, -⟩ := hb
      refine (hbody _ _ _ hpart q fun h => absurd hbehind (by simp [h])).andThen ?_
      rintro _ q rfl
      exact hC.next hcheck trivial nofun (fun _ _ h => h) (hend q)
    · refine (hbody _ _ _ h _ fun _ => hp).andThen ?_
      rintro _ q rfl
      exact hend q
  · exact hskip c (hC.serves.code ▸ hc)

theorem Sound.look {k : Look} {info : Info}
    (hbody : ∀ later z x y, part none later z x y → lo ≤ z.loops → ∀ q,
      (k.behind = false → p₀ ≤ q) → (C.rules n lo p₀).Confines (fun b _ => b = y) x q) :
    C.Flows n lo p₀ 0 (C.built.LookAt k info part) := by
  rintro φ later z x y ⟨mark, w, h⟩ hz p hp
  split at h
  · obtain ⟨hfork, hlook, hunwind, hdrop, hfail, rfl⟩ := h
    refine hC.fork hfork ?_ (.exit ⟨rfl, .refl C p⟩)
    refine hC.lookBody (hbody · z · · · hz) hlook hp (fun c hc => ?_) fun q => ?_
    · obtain rfl := hC.marks c w _ _ mark hc hunwind rfl rfl
      cases hc.symm.trans hunwind
    · refine hC.next hunwind trivial nofun (fun _ _ h => h) ?_
      refine hC.next hdrop trivial nofun (fun _ _ h => h) ?_
      exact hC.instr hfail trivial nofun fun _ _ h => h.elim
  · obtain ⟨hlook, hend, rfl⟩ := h
    refine hC.lookBody (hbody · z · · · hz) hlook hp (fun c hc => ?_) fun q => ?_
    · obtain rfl := hC.marks c w _ _ mark hc hend rfl rfl
      exact .exit ⟨rfl, .refl C p⟩
    · exact hC.instr hend trivial nofun fun _ _ h => h.elim

/-- The body of an absent operator is run on its own. -/
theorem Sound.absent (hx : ∀ later z b w, lo ≤ z.loops → part none later z b w →
    C.built.code[w]? = some .absentEnd → C.Absents n lo b) :
    C.Flows n lo p₀ 0 (C.built.AbsentAt part) := by
  rintro φ later z x _ ⟨w, habsent, hjump, hpart, hend, rfl⟩ hz p hp
  refine hC.instr habsent (hx _ _ _ _ hz hpart hend) nofun fun b q hb => ?_
  obtain ⟨rfl, hq⟩ := hb
  exact hC.jump hjump (.exit ⟨rfl, .of_le hq.1⟩)

theorem Sound.conditional {groups : List Nat} (hyes : C.Flows n lo p₀ w part)
    (hno : C.Flows n lo p₀ w' part') :
    C.Flows n lo p₀ (min w w') (C.built.ConditionalAt groups part part') := by
  rintro φ later z x y ⟨v, hset, hpart, hjump, hpart'⟩ hz p hp
  refine hC.instr hset trivial nofun fun b q hb => ?_
  obtain ⟨rfl | rfl, rfl⟩ := hb
  · refine (hyes _ _ _ _ _ hpart hz _ hp).andThen ?_
    rintro _ q ⟨rfl, hq⟩
    exact hC.jump hjump (.exit ⟨rfl, hq.weaken fun h => by omega⟩)
  · exact (hno _ _ _ _ _ hpart' hz _ hp).exits_mono fun _ _ hq => ⟨hq.1, hq.2.weaken fun h => by omega⟩

theorem Sound.call {g : Nat} (h : C.built.CallAt g x y) (hmeets : C.strict → n.Meets p₀ g p) :
    (C.rules n lo p₀).Confines (C.ends y (C.weight g) p) x p := by
  obtain ⟨sub, hsub, hcall, rfl⟩ := h
  refine .go (.call_instr (hC.code hcall) ⟨g, hsub, hmeets⟩ fun q hq => .exit ⟨rfl, hq g sub hsub rfl⟩)

end

/-! ## Texts -/

/-- A literal that has characters has bytes. -/
theorem literalInfo_pos {s : Scale} {bytes : Bytes} {fold : Bool}
    (h : 0 < (s.literalInfo bytes fold).minChars) : 0 < bytes.size := by
  refine Nat.pos_of_ne_zero fun hzero => ?_
  have hfolds : (s.encoding.foldBytes bytes).size = 0 := by
    rw [Encoding.foldBytes, Encoding.foldFrom, dif_neg (by omega)]
    rfl
  unfold Scale.literalInfo at h
  dsimp only at h
  split at h <;>
    simp [Info.make, Encoding.charCount_empty _ hzero, Encoding.charCount_empty _ hfolds] at h

/-- A text gets on unless it is empty. -/
theorem Past.text {width : Nat → Option Nat} (h : Extent.text width p q)
    (hw : ∀ n, width p = some n → 0 < w → 0 < n) : C.Past w p q := by
  obtain ⟨n, hn, rfl⟩ := h
  exact ⟨Nat.le_add_right _ _, fun _ hpos => Nat.lt_add_of_pos_right (hw n hn hpos)⟩

theorem foldedLength?_pos {s : Subject} {folded : Bytes} {i n : Nat}
    (h : s.foldedLength? i folded = some n) (hf : 0 < folded.size) : 0 < n := by
  by_cases hi : i ≤ s.size
  · exact (Subject.foldedLength?_bounds h hi).2 hf
  · unfold Subject.foldedLength? at h
    rw [Subject.foldedEnd?, if_neg (by omega), dif_neg (by omega)] at h
    cases h

section
variable (hC : C.Sound)
include hC

/-- A text that stands for itself. -/
theorem Sound.text (hi : C.built.code[x]? = some i) (hallows : C.allows n lo p₀ i p)
    (hcall : ∀ t sub, i ≠ .call t sub) {width : Nat → Option Nat}
    (hto : ∀ b q, Leads C.setting i x p b q → b = x + 1 ∧ Extent.text width p q)
    (hw : ∀ n, width p = some n → 0 < w → 0 < n) :
    (C.rules n lo p₀).Confines (C.ends (x + 1) w p) x p :=
  hC.instr hi hallows hcall fun b q hb => by
    obtain ⟨rfl, hq⟩ := hto b q hb
    exact .exit ⟨rfl, .text hq hw⟩

theorem Sound.literal {bytes : Bytes} {fold : Bool}
    (h : C.built.AtomAt (.literal bytes fold) x y) :
    (C.rules n lo p₀).Confines (C.ends y (C.scale.literalInfo bytes fold).minChars p) x p := by
  have hat {i : Instr} (hi : Built.atomInstr? C.built.layout.encoding (.literal bytes fold) = some i) :
      C.built.code[x]? = some i ∧ y = x + 1 := by
    simpa only [Built.AtomAt, hi] using h
  by_cases hempty : bytes.isEmpty = true
  · have hi : Built.atomInstr? C.built.layout.encoding (.literal bytes fold) = none := by
      simp [Built.atomInstr?, Compile.literalCode, hempty]
    obtain rfl : x = y := by simpa only [Built.AtomAt, hi] using h
    have hsize : bytes.size = 0 := by simpa using hempty
    exact .exit ⟨rfl, (Past.refl C p).weaken fun h => by have := literalInfo_pos h; omega⟩
  · by_cases hfold : fold = true
    · obtain ⟨hi, rfl⟩ := hat (i := .foldedText (C.built.layout.encoding.foldBytes bytes))
        (by simp [Built.atomInstr?, Compile.literalCode, hempty, hfold])
      exact hC.text hi trivial (by rintro _ _ ⟨⟩) (fun _ _ h => h) fun n hn hpos =>
        foldedLength?_pos hn (Encoding.foldBytes_size_pos _ (literalInfo_pos hpos))
    · by_cases hone : bytes.size = 1
      · obtain ⟨hi, rfl⟩ := hat (i := .byte (bytes.byteAt 0))
          (by simp [Built.atomInstr?, Compile.literalCode, hempty, hfold, hone])
        refine hC.text hi trivial (by rintro _ _ ⟨⟩) (fun _ _ h => h) fun n hn _ => ?_
        unfold Subject.byteLength? at hn
        split at hn
        · cases hn
          exact Nat.one_pos
        · cases hn
      · obtain ⟨hi, rfl⟩ := hat (i := .text bytes)
          (by simp [Built.atomInstr?, Compile.literalCode, hempty, hfold, hone])
        refine hC.text hi trivial (by rintro _ _ ⟨⟩) (fun _ _ h => h) fun n hn hpos => ?_
        obtain ⟨-, rfl⟩ := Subject.textLength?_eq hn
        exact literalInfo_pos hpos

theorem Sound.atom {note : Measured} {a : Atom} (h : C.built.AtomAt a x y)
    (hcalls : ∀ t g, a = .call t g → C.strict → 0 < (C.scale.atomInfo a).minChars → 0 < C.weight g) :
    (C.rules (.atom note a) lo p).Confines (C.ends y (C.scale.atomInfo a).minChars p) x p := by
  cases a with
  | empty =>
    obtain rfl : x = y := h
    exact .exit ⟨rfl, .refl C p⟩
  | literal bytes fold => exact hC.literal h
  | charClass ranges negated =>
    obtain ⟨hi, rfl⟩ := h
    exact hC.text hi trivial (by rintro _ _ ⟨⟩) (fun _ _ h => h) fun n hn _ => (Subject.classLength?_bounds hn).2
  | charType type negated ascii =>
    obtain ⟨hi, rfl⟩ := h
    exact hC.text hi trivial (by rintro _ _ ⟨⟩) (fun _ _ h => h) fun n hn _ => (Subject.typeLength?_bounds hn).2
  | anyChar multiline =>
    obtain ⟨hi, rfl⟩ := h
    exact hC.text hi trivial (by rintro _ _ ⟨⟩) (fun _ _ h => h) fun n hn _ => (Subject.anyLength?_bounds hn).2
  | anchor a =>
    obtain ⟨hi, rfl⟩ := h
    exact hC.next hi trivial nofun (fun _ _ h => h) (.exit ⟨rfl, .refl C p⟩)
  | keep =>
    obtain ⟨hi, rfl⟩ := h
    exact hC.next hi trivial nofun (fun _ _ h => h) (.exit ⟨rfl, .refl C p⟩)
  | backref target groups fold =>
    obtain ⟨hi, rfl⟩ := h
    refine hC.instr hi trivial nofun fun b q hb => ?_
    obtain ⟨rfl, hq⟩ := hb
    exact .exit ⟨rfl, .of_le hq.1⟩
  | call target g =>
    refine (hC.call h fun _ => .call note target g p).exits_mono fun b q hq => ?_
    exact ⟨hq.1, hq.2.1, fun hs hpos => hq.2.2 hs (hcalls target g rfl hs hpos)⟩

end

/-! ## Trees -/

/-- What is known of a tree that keeps to its course. -/
structure Knows (C : Course) (n : Node Measured) : Prop where
  weighed : n.Weighed C.scale
  ordered : n.Ordered
  mute : C.strict → n.Everywhere Node.behindMute
  calls : C.strict → ∀ g ∈ n.callees, 0 < C.scale.groupMin.getD g 0 → 0 < C.weight g
  defs : C.strict → ∀ m ∈ n.subtrees, ∀ g body, m.captured? = some (g, body) →
    C.built.layout.calls.isCalled g = true → 0 < body.info.minChars → 0 < C.weight g

theorem Knows.child {c : Node Measured} (h : C.Knows n) (hc : c ∈ n.children) : C.Knows c where
  weighed := h.weighed.child hc
  ordered := h.ordered.child hc
  mute hs := (h.mute hs).child hc
  calls hs g hg := h.calls hs g (Node.callees_subset (Node.child_mem_subtrees hc) g hg)
  defs hs m hm := h.defs hs m (Node.subtrees_trans hm (Node.child_mem_subtrees hc))

/-- What a part of a tree may meet, the tree may meet. -/
theorem allows_mono {c : Node Measured} {lo' : Nat} (hc : c ∈ n.subtrees) (hlo : lo ≤ lo')
    (hmeets : ∀ g q, C.strict → c.Meets p g q → n.Meets p₀ g q) (i : Instr) (q : Nat)
    (h : C.allows c lo' p i q) : C.allows n lo p₀ i q := by
  cases i with
  | accept => exact h
  | ret => exact h
  | absentEnd => exact h
  | groupEndRecursive g => exact h
  | repeatEnter id => exact ⟨Nat.le_trans hlo h.1, h.2⟩
  | repeatNext id => exact ⟨Nat.le_trans hlo h.1, h.2⟩
  | groupStart g undo => exact Node.groupNumbers_subset hc g h
  | groupEnd g undo => exact Node.groupNumbers_subset hc g h
  | absent b =>
    obtain ⟨note, body, hbody, later, z, w, hz, hat⟩ := h
    exact ⟨note, body, Node.subtrees_trans hbody hc, later, z, w, Nat.le_trans hlo hz, hat⟩
  | call t sub =>
    obtain ⟨g, hsub, hg⟩ := h
    exact ⟨g, hsub, fun hs => hmeets g q hs (hg hs)⟩
  | _ => trivial

/-- The code of a part keeps to the course of the tree. -/
theorem lift {c : Node Measured} {lo' : Nat} (h : (C.rules c lo' p).Confines exits a q)
    (hc : c ∈ n.subtrees) (hlo : lo ≤ lo')
    (hmeets : ∀ g q, C.strict → c.Meets p g q → n.Meets p₀ g q) :
    (C.rules n lo p₀).Confines exits a q :=
  h.rules_mono _ rfl rfl (allows_mono hc hlo hmeets)

/-- The code of a tree keeps to its course wherever it is entered. -/
def Runs (C : Course) (peek : Option UInt8) (n : Node Measured) : Prop :=
  ∀ φ later z x y, C.built.NodeAt peek n φ later z x y → ∀ p,
    (C.rules n z.loops p).Confines (C.ends y n.info.minChars p) x p

/-- A part that may come first. -/
theorem Runs.early {c : Node Measured} {peek : Option UInt8} (h : C.Runs peek c)
    (hc : c ∈ n.subtrees)
    (hcalls : ∀ k ∈ CallGraph.earlyCalls [] c, k ∈ CallGraph.earlyCalls [] n) :
    C.Flows n lo p₀ c.info.minChars (C.built.NodeAt peek c) :=
  fun φ later z x y hat hz p hp =>
    lift (h φ later z x y hat p) hc hz fun _ _ _ hmeets => hmeets.early hc hp hcalls

theorem repeatPlan_star {b : Bounds} {body : Node Measured} (h : repeatPlan b body = .star) :
    b.min = 0 := by
  unfold repeatPlan at h
  split at h <;> first | assumption | cases h | skip
  split at h <;> cases h

theorem anyCharsCode?_some {mode : RepeatMode} {plan : RepeatPlan} {peek : Option UInt8}
    {body : Node Measured} (h : anyCharsCode? mode plan peek body = some i) :
    plan = .star ∧ ((∃ multiline, i = .anyChars multiline) ∨
      ∃ multiline b, i = .anyCharsBefore multiline b) := by
  unfold anyCharsCode? at h
  split at h
  · split at h
    · cases h
    · rename_i hplan
      refine ⟨by simp_all, ?_⟩
      split at h
      · exact Or.inr ⟨_, _, (Option.some.inj h).symm⟩
      · exact Or.inl ⟨_, (Option.some.inj h).symm⟩
  · cases h

section
variable (hC : C.Sound)
include hC

/-- A repeat may be a single instruction. -/
theorem Sound.anyChars {mode : RepeatMode} {b : Bounds} {peek : Option UInt8} {body : Node Measured}
    (hi : anyCharsCode? mode (repeatPlan b body) peek body = some i)
    (hcode : C.built.code[x]? = some i) :
    (C.rules n lo p₀).Confines (C.ends (x + 1) (body.info.minChars * b.min) p) x p := by
  obtain ⟨hplan, hany⟩ := anyCharsCode?_some hi
  have hmin := repeatPlan_star hplan
  have hend : ∀ q, p ≤ q → C.Past (body.info.minChars * b.min) p q := fun q hq =>
    (Past.of_le hq).weaken fun h => by simp [hmin] at h
  rcases hany with ⟨multiline, rfl⟩ | ⟨multiline, b, rfl⟩ <;>
  · refine hC.instr hcode trivial nofun fun b q hb => ?_
    obtain ⟨rfl, hq⟩ := hb
    exact .exit ⟨rfl, hend q hq.1⟩

end

mutual

/-- The code of a tree keeps to its course. -/
theorem Sound.node (hC : C.Sound) : ∀ (n : Node Measured) (peek : Option UInt8), C.Knows n → C.Runs peek n
  | .atom note a, peek, hn => by
    intro φ later z x y h p
    rw [Node.info, Node.note, hn.weighed]
    refine hC.atom h fun t g ha hs hpos => ?_
    subst ha
    exact hn.calls hs g
      (List.mem_filterMap.mpr ⟨_, Array.mem_toList_iff.mpr (Node.self_mem_subtrees _), rfl⟩) hpos
  | .repeated note b mode body, peek, hn => by
    have hbody := hC.node body none (hn.child (List.mem_singleton.mpr rfl))
    have hmem : body ∈ (Node.repeated note b mode body).subtrees :=
      Node.child_mem_subtrees (List.mem_singleton.mpr rfl)
    intro φ later z x y h p
    let loop : Part := C.built.LoopAt (anyCharsCode? mode (repeatPlan b body) peek body)
      (C.built.RepeatAt b (mode != .lazy) (repeatPlan b body) body.info (C.built.scene.ways body)
        (C.built.NodeAt none body))
    have hloop : C.Flows (.repeated note b mode body) z.loops p (body.info.minChars * b.min) loop := by
      rintro φ later z' x y (⟨i, hi, hcode, rfl⟩ | ⟨-, hrepeat⟩) hz q hq
      · exact hC.anyChars hi hcode
      · by_cases hmax : b.max = some 0
        · -- The body is not run at all.
          have hmin : b.min = 0 := by
            have hle : b.max.all (b.min ≤ ·) = true := hn.ordered.self
            rw [hmax] at hle
            simpa using hle
          have hplan : repeatPlan b body = .skip := by
            unfold repeatPlan
            rw [hmax, hmin]
            rfl
          rw [hplan] at hrepeat
          obtain rfl : x = y := hrepeat
          exact .exit ⟨rfl, (Past.refl C q).weaken fun h => by simp [hmin] at h⟩
        · refine hC.repeated hn.ordered.self (hbody.early hmem fun k hk => ?_) _ _ _ _ _ hrepeat hz q hq
          rw [CallGraph.earlyCalls, if_neg (by simpa using hmax)]
          exact hk
    have hweak : 0 < (Node.repeated note b mode body).info.minChars → 0 < body.info.minChars * b.min := by
      rw [Node.info, Node.note, hn.weighed.1, Info.mulCapped]
      omega
    rw [Built.NodeAt] at h
    split at h
    · exact ((hC.atomic hloop).weaken hweak) _ _ _ _ _ h (Nat.le_refl _) p (Nat.le_refl p)
    · exact (hloop.weaken hweak) _ _ _ _ _ h (Nat.le_refl _) p (Nat.le_refl p)
  | .group note (.capture g name) body, peek, hn => by
    have hbody := hC.node body none (hn.child (List.mem_singleton.mpr rfl))
    have hself := Node.self_mem_subtrees (Node.group note (.capture g name) body)
    have hmem : body ∈ (Node.group note (.capture g name) body).subtrees :=
      Node.child_mem_subtrees (List.mem_singleton.mpr rfl)
    have hg : g ∈ (Node.group note (.capture g name) body).groupNumbers :=
      Node.mem_groupNumbers.mpr ⟨_, hself, rfl⟩
    have hmin : (Node.group note (.capture g name) body).info.minChars = body.info.minChars :=
      hn.weighed.1
    intro φ later z x y h p
    rw [Built.NodeAt, Built.CaptureAt] at h
    rw [hmin]
    split at h
    · rename_i hcalled
      refine (hC.call h fun _ => .definition note name body g p).exits_mono fun b q hq => ?_
      exact ⟨hq.1, hq.2.1, fun hs hpos =>
        hq.2.2 hs (hn.defs hs _ hself g body rfl hcalled hpos)⟩
    · obtain ⟨w, hstart, hat, hend, rfl⟩ := h
      refine hC.next hstart hg nofun (fun _ _ h => h) ?_
      refine (hbody.early hmem (fun _ hk => hk) _ _ _ _ _ hat (Nat.le_refl _) p
        (Nat.le_refl p)).andThen ?_
      rintro _ q ⟨rfl, hq⟩
      exact hC.next hend hg nofun (fun _ _ h => h) (.exit ⟨rfl, hq⟩)
  | .group note .plain body, peek, hn => by
    have hbody := hC.node body none (hn.child (List.mem_singleton.mpr rfl))
    have hmem : body ∈ (Node.group note .plain body).subtrees :=
      Node.child_mem_subtrees (List.mem_singleton.mpr rfl)
    intro φ later z x y h p
    rw [Built.NodeAt] at h
    rw [show (Node.group note .plain body).info.minChars = body.info.minChars from hn.weighed.1]
    exact hbody.early hmem (fun _ hk => hk) _ _ _ _ _ h (Nat.le_refl _) p (Nat.le_refl p)
  | .group note .atomic body, peek, hn => by
    have hbody := hC.node body none (hn.child (List.mem_singleton.mpr rfl))
    have hmem : body ∈ (Node.group note .atomic body).subtrees :=
      Node.child_mem_subtrees (List.mem_singleton.mpr rfl)
    intro φ later z x y h p
    rw [Built.NodeAt] at h
    rw [show (Node.group note .atomic body).info.minChars = body.info.minChars from hn.weighed.1]
    exact hC.atomic (hbody.early hmem fun _ hk => hk) _ _ _ _ _ h (Nat.le_refl _) p (Nat.le_refl p)
  | .group note .absent body, peek, hn => by
    intro φ later z x y h p
    rw [Built.NodeAt] at h
    rw [show (Node.group note .absent body).info.minChars = 0 from hn.weighed.1]
    refine hC.absent (fun later z' b w hz hat hend => ?_) _ _ _ _ _ h (Nat.le_refl _) p (Nat.le_refl p)
    exact ⟨note, body, Node.self_mem_subtrees _, later, z', w, hz, hat, hend⟩
  | .conditional note t gs yes no, peek, hn => by
    have hyes := hC.node yes none (hn.child (by simp [Node.children]))
    intro φ later z x y h p
    rw [Built.NodeAt] at h
    rw [show (Node.conditional note t gs yes no).info.minChars =
      min yes.info.minChars (Node.optionMin no) from hn.weighed.1]
    have hfirst : ∀ k ∈ CallGraph.earlyCalls [] yes,
        k ∈ CallGraph.earlyCalls [] (.conditional note t gs yes no) := fun k hk =>
      (CallGraph.mem_earlyCallsOption no _).mpr (Or.inr hk)
    refine hC.conditional (hyes.early (Node.child_mem_subtrees (by simp [Node.children])) hfirst)
      (hC.option _ _ _ no (fun c hc => ?_) (fun c hc => ?_) fun k hk => ?_) _ _ _ _ _ h (Nat.le_refl _) p
      (Nat.le_refl p)
    · subst hc
      exact hn.child (by simp [Node.children])
    · subst hc
      exact Node.child_mem_subtrees (by simp [Node.children])
    · exact (CallGraph.mem_earlyCallsOption no _).mpr (Or.inl hk)
  | .look note k body, peek, hn => by
    have hbody := hC.node body none (hn.child (List.mem_singleton.mpr rfl))
    have hmem : body ∈ (Node.look note k body).subtrees :=
      Node.child_mem_subtrees (List.mem_singleton.mpr rfl)
    intro φ later z x y h p
    rw [Built.NodeAt] at h
    rw [show (Node.look note k body).info.minChars = 0 from hn.weighed.1]
    refine hC.look (fun later z' x y hat hz q hq => ?_) _ _ _ _ _ h (Nat.le_refl _) p (Nat.le_refl p)
    have hcourse := hbody none later z' x y hat q
    refine (lift hcourse hmem hz fun g r hs hmeets => ?_).exits_mono fun _ _ hexit => hexit.1
    cases hk : k.behind with
    | true =>
      have hmute : (!k.behind || body.callees.isEmpty) = true := (hn.mute hs).self
      rw [hk] at hmute
      exact hmeets.behind hmem (by simpa using hmute) p
    | false => exact hmeets.early hmem (hq hk) fun _ hk => hk
  | .sequence note items, peek, hn => by
    intro φ later z x y h p
    rw [Built.NodeAt] at h
    refine (hC.sequence (.sequence note items) z.loops p items (fun c hc => ?_) (fun c hc => ?_) _ _ _ _ _ h (Nat.le_refl _) p
      (Nat.le_refl p) fun _ => Or.inr fun _ hk => hk).exits_mono fun b q hq => ⟨hq.1, hq.2.weaken fun h => ?_⟩
    · exact hn.child hc
    · exact Node.child_mem_subtrees hc
    · rw [show (Node.sequence note items).info.minChars = Node.totalMin items from hn.weighed.1] at h
      obtain ⟨c, hc, hpos⟩ := Node.totalMin_pos h
      exact List.sum_pos_iff_exists_pos_nat.mpr ⟨_, List.mem_map.mpr ⟨c, hc, rfl⟩, hpos⟩
  | .alternation note [], peek, hn => by
    intro φ later z x y h p
    rw [Built.NodeAt, Built.BranchesAt] at h
    obtain rfl : x = y := h
    rw [show (Node.alternation note []).info.minChars = 0 from hn.weighed.1]
    exact .exit ⟨rfl, .refl C p⟩
  | .alternation note (c :: cs), peek, hn => by
    intro φ later z x y h p
    rw [Built.NodeAt] at h
    refine hC.branches _ _ _ _ (c :: cs) nofun (fun d hd => ?_) (fun d hd => ?_) (fun d hd k hk => ?_)
      (fun d hd hpos => ?_) _ _ _ _ _ h (Nat.le_refl _) p (Nat.le_refl p)
    · exact hn.child hd
    · exact Node.child_mem_subtrees hd
    · exact CallGraph.earlyCallsAll_of_mem hd hk
    · rw [show (Node.alternation note (c :: cs)).info.minChars =
        Info.least ((c :: cs).map (·.info.minChars)) from hn.weighed.1] at hpos
      exact Nat.lt_of_lt_of_le hpos (Node.least_le (List.mem_map.mpr ⟨d, hd, rfl⟩))

theorem Sound.option (hC : C.Sound) (n : Node Measured) (lo p₀ : Nat) : ∀ (no : Option (Node Measured)),
    (∀ c, no = some c → C.Knows c) → (∀ c, no = some c → c ∈ n.subtrees) →
    (∀ k ∈ CallGraph.earlyCallsOption [] no, k ∈ CallGraph.earlyCalls [] n) →
    C.Flows n lo p₀ (Node.optionMin no) (C.built.OptionAt no)
  | none, _, _, _ => by
    intro φ later z x y h hz p hp
    rw [Built.OptionAt] at h
    obtain rfl : x = y := h
    exact .exit ⟨rfl, .refl C p⟩
  | some c, hknows, hmem, hcalls => by
    intro φ later z x y h hz p hp
    rw [Built.OptionAt] at h
    exact (hC.node c none (hknows c rfl)).early (hmem c rfl) hcalls _ _ _ _ _ h hz p hp

/-- Items one after another: those after one that gets on come later in the subject. -/
theorem Sound.sequence (hC : C.Sound) (n : Node Measured) (lo p₀ : Nat) : ∀ (ns : List (Node Measured)),
    (∀ c ∈ ns, C.Knows c) → (∀ c ∈ ns, c ∈ n.subtrees) →
    ∀ φ later z x y, C.built.SequenceAt ns φ later z x y → lo ≤ z.loops → ∀ p, p₀ ≤ p →
    (C.strict → p₀ < p ∨ ∀ k ∈ CallGraph.earlyCallsUntil [] ns, k ∈ CallGraph.earlyCalls [] n) →
    (C.rules n lo p₀).Confines (C.ends y (ns.map (·.info.minChars)).sum p) x p
  | [], _, _ => by
    intro φ later z x y h hz p hp _
    rw [Built.SequenceAt] at h
    obtain rfl : x = y := h
    exact .exit ⟨rfl, .refl C p⟩
  | c :: cs, hknows, hmem => by
    intro φ later z x y h hz p hp hplace
    rw [Built.SequenceAt] at h
    obtain ⟨w, hc, hcs⟩ := h
    have hrun := hC.node c (peekByte? cs) (hknows c (by simp)) _ _ _ _ _ hc p
    refine (lift hrun (hmem c (by simp)) hz fun g q hs hmeets => ?_).andThen ?_
    · rcases hplace hs with hlt | hearly
      · exact hmeets.late (hmem c (by simp)) hlt
      · exact hmeets.early (hmem c (by simp)) hp fun k hk =>
          hearly k (CallGraph.earlyCallsUntil_head hk)
    · rintro _ q ⟨rfl, hq⟩
      refine (hC.sequence n lo p₀ cs (fun d hd => hknows d (by simp [hd])) (fun d hd => hmem d (by simp [hd]))
        _ _ _ _ _ hcs hz q (Nat.le_trans hp hq.1) fun hs => ?_).exits_mono ?_
      · rcases hplace hs with hlt | hearly
        · exact Or.inl (Nat.lt_of_lt_of_le hlt hq.1)
        · by_cases hmin : c.info.minChars = 0
          · exact Or.inr fun k hk => hearly k (CallGraph.earlyCallsUntil_tail hmin hk)
          · exact Or.inl (Nat.lt_of_le_of_lt hp (hq.2 hs (Nat.pos_of_ne_zero hmin)))
      · rintro b r ⟨hb, hr⟩
        refine ⟨hb, hq.trans hr fun h => ?_⟩
        rw [List.map_cons, List.sum_cons] at h
        omega

theorem Sound.branches (hC : C.Sound) (n : Node Measured) (lo p₀ w : Nat) : ∀ (ns : List (Node Measured)), ns ≠ [] →
    (∀ c ∈ ns, C.Knows c) → (∀ c ∈ ns, c ∈ n.subtrees) →
    (∀ c ∈ ns, ∀ k ∈ CallGraph.earlyCalls [] c, k ∈ CallGraph.earlyCalls [] n) →
    (∀ c ∈ ns, 0 < w → 0 < c.info.minChars) →
    C.Flows n lo p₀ w (C.built.BranchesAt ns)
  | [], h, _, _, _, _ => absurd rfl h
  | [c], _, hknows, hmem, hcalls, hw => by
    intro φ later z x y h hz p hp
    rw [Built.BranchesAt] at h
    exact (((hC.node c none (hknows c (by simp))).early (hmem c (by simp))
      (hcalls c (by simp))).weaken (hw c (by simp))) _ _ _ _ _ h hz p hp
  | c :: d :: ns, _, hknows, hmem, hcalls, hw => by
    intro φ later z x y h hz p hp
    rw [Built.BranchesAt] at h
    obtain ⟨v, hfork, hc, hjump, hns⟩ := h
    refine hC.fork hfork ?_ ?_
    · refine ((((hC.node c none (hknows c (by simp))).early (hmem c (by simp))
        (hcalls c (by simp))).weaken (hw c (by simp))) _ _ _ _ _ hc hz p hp).andThen ?_
      rintro _ q ⟨rfl, hq⟩
      exact hC.jump hjump (.exit ⟨rfl, hq⟩)
    · exact hC.branches n lo p₀ w (d :: ns) nofun (fun c hc => hknows c (by simp [hc]))
        (fun c hc => hmem c (by simp [hc])) (fun c hc => hcalls c (by simp [hc]))
        (fun c hc => hw c (by simp [hc])) _ _ _ _ _ hns hz p hp

end

end Course
end RegexMachine
