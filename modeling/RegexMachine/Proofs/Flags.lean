import RegexMachine.Analysis.Measure
import RegexMachine.Program.Basic

/-!
Members of sets of flags, and what the facts about a tree say: each is that of some node in it.
-/
namespace RegexMachine

/-- Flags have bits of their own. -/
def Flag.Distinct (α : Type) [Flag α] : Prop :=
  ∀ f g : α, Flag.bit f = Flag.bit g → f = g

namespace FlagSet

variable {α : Type} [Flag α]

@[simp] theorem has_empty (f : α) : (empty : FlagSet α).has f = false := by
  simp [has, empty]

theorem has_union (s t : FlagSet α) (f : α) : (s.union t).has f = (s.has f || t.has f) := by
  simp [has, union]

theorem has_inter (s t : FlagSet α) (f : α) : (s.inter t).has f = (s.has f && t.has f) := by
  simp [has, inter]

variable [DecidableEq α]

theorem has_insert (hd : Flag.Distinct α) (s : FlagSet α) (f g : α) :
    (s.insert f).has g = (s.has g || decide (f = g)) := by
  unfold has insert
  rw [Nat.testBit_or, Nat.one_shiftLeft, Nat.testBit_two_pow]
  congr 1
  exact decide_eq_decide.mpr ⟨fun h => hd f g h, fun h => by rw [h]⟩

theorem has_erase (hd : Flag.Distinct α) (s : FlagSet α) (f g : α) :
    (s.erase f).has g = (s.has g && !decide (f = g)) := by
  unfold erase
  split
  · rename_i hf
    unfold has at hf ⊢
    rw [Nat.testBit_xor, Nat.one_shiftLeft, Nat.testBit_two_pow]
    by_cases hfg : f = g
    · subst hfg
      simp [hf]
    · have : ¬ Flag.bit f = Flag.bit g := fun h => hfg (hd f g h)
      simp [hfg, this]
  · rename_i hf
    by_cases hfg : f = g
    · subst hfg
      simpa using hf
    · simp [hfg]

theorem has_set (hd : Flag.Distinct α) (s : FlagSet α) (f g : α) (on : Bool) :
    (s.set f on).has g = if f = g then on else s.has g := by
  unfold set
  cases on with
  | true =>
    simp only [↓reduceIte, has_insert hd]
    by_cases h : f = g <;> simp [h]
  | false =>
    simp only [Bool.false_eq_true, ↓reduceIte, has_erase hd]
    by_cases h : f = g <;> simp [h]

end FlagSet

theorem distinct_traits : Flag.Distinct Trait := by
  intro f g h
  cases f <;> cases g <;> first | rfl | cases h

theorem distinct_features : Flag.Distinct Feature := by
  intro f g h
  cases f <;> cases g <;> first | rfl | cases h

end RegexMachine
