import Mathlib.Logic.Basic
import RegexMachine.Program.CharClass
import RegexMachine.Proofs.RangeTables

/-!
Classes made for matching. The codes below 256 go into a table of their own and the others stay ranges, a
range on both sides being cut in two; the two parts together hold what the ranges hold, and a negated
class matches what they leave out.
-/
namespace RegexMachine

variable {rs as bs : List CodeRange} {c gap top : Nat}

/-- Ranges that are put after others. -/
theorem Ascending.append (ha : Ascending gap as) (hb : Ascending gap bs)
    (hab : ∀ a ∈ as, ∀ b ∈ bs, a.hi + gap < b.lo) : Ascending gap (as ++ bs) :=
  ⟨fun r hr => (List.mem_append.mp hr).elim (ha.upright r) (hb.upright r),
    List.pairwise_append.mpr ⟨ha.apart, hb.apart, hab⟩⟩

namespace ByteSet

variable {s : ByteSet}

/-- The members one by one, as ranges. -/
def singles (s : ByteSet) : List CodeRange := s.toList.map fun b => ⟨b.toNat, b.toNat⟩

theorem covers_singles : Covers s.singles c ↔ c < 256 ∧ s.has (UInt8.ofNat c) = true := by
  constructor
  · rintro ⟨r, hr, hlo, hhi⟩
    obtain ⟨b, hb, rfl⟩ := List.mem_map.mp hr
    obtain rfl : b.toNat = c := Nat.le_antisymm hlo hhi
    rw [UInt8.ofNat_toNat]
    exact ⟨b.toNat_lt, mem_toList.mp hb⟩
  · rintro ⟨hc, hs⟩
    have hcode : (UInt8.ofNat c).toNat = c := UInt8.toNat_ofNat_of_lt' hc
    refine ⟨_, List.mem_map.mpr ⟨_, mem_toList.mpr hs, rfl⟩, ?_⟩
    rw [hcode]
    exact ⟨Nat.le_refl c, Nat.le_refl c⟩

theorem sorted_singles : CodeSet.Sorted s.singles := by
  constructor
  · intro r hr
    obtain ⟨b, -, rfl⟩ := List.mem_map.mp hr
    exact Nat.le_refl _
  · have hbytes : ((List.range 256).map UInt8.ofNat).Pairwise fun a b => a.toNat ≤ b.toNat := by
      refine List.pairwise_map.mpr ((List.pairwise_lt_range (n := 256)).imp_of_mem fun {a b} ha hb hab => ?_)
      rw [UInt8.toNat_ofNat_of_lt' (List.mem_range.mp ha), UInt8.toNat_ofNat_of_lt' (List.mem_range.mp hb)]
      exact Nat.le_of_lt hab
    exact List.pairwise_map.mpr (hbytes.filter s.has)

end ByteSet

namespace CharClass

variable {k : CharClass}

/-! ## The two parts of a class -/

theorem has_low {negated : Bool} {b : UInt8} :
    (ofRanges rs negated).low.has b = true ↔ Covers rs b.toNat := by
  simp only [ofRanges, ByteSet.has_ofPred, List.any_filter, List.any_eq_true,
    Bool.and_eq_true, decide_eq_true_eq, CodeRange.contains, Covers]
  have hb : b.toNat < 256 := b.toNat_lt
  exact exists_congr fun r => and_congr_right fun _ => ⟨And.right, fun h => ⟨by omega, h⟩⟩

theorem covers_high {negated : Bool} :
    Covers (ofRanges rs negated).high.toList c ↔ 256 ≤ c ∧ Covers rs c := by
  simp only [ofRanges, Covers, List.mem_map, List.mem_filter, decide_eq_true_eq]
  constructor
  · rintro ⟨_, ⟨r, ⟨hr, -⟩, rfl⟩, hlo, hhi⟩
    dsimp only at hlo hhi
    exact ⟨by omega, r, hr, by omega, hhi⟩
  · rintro ⟨hc, r, hr, hlo, hhi⟩
    exact ⟨_, ⟨r, ⟨hr, by omega⟩, rfl⟩, by dsimp only; omega, hhi⟩

theorem lo_of_mem_high {negated : Bool} {r : CodeRange} (hr : r ∈ (ofRanges rs negated).high.toList) :
    256 ≤ r.lo := by
  obtain ⟨_, -, rfl⟩ := List.mem_map.mp hr
  exact Nat.le_max_right _ _

/-- Only the first of the ranges that reach 256 can be cut, so that they stay in order. -/
theorem ascending_high {negated : Bool} (h : Ascending 0 rs) :
    Ascending 0 (ofRanges rs negated).high.toList := by
  constructor
  · intro r hr
    obtain ⟨b, hb, rfl⟩ := List.mem_map.mp hr
    obtain ⟨hb, hhi⟩ := List.mem_filter.mp hb
    have := h.upright b hb
    simp only [decide_eq_true_eq] at hhi
    dsimp only
    omega
  · refine List.pairwise_map.mpr ((h.apart.filter _).imp_of_mem fun {a b} ha _ hab => ?_)
    have hreach := (List.mem_filter.mp ha).2
    simp only [decide_eq_true_eq] at hreach
    dsimp only
    omega

/-! ## Matching -/

theorem contains_ofRanges {negated : Bool} (h : Ascending 0 rs) :
    (ofRanges rs negated).contains c = true ↔ Xor (Covers rs c) (negated = true) := by
  have hpart : (if c < 256 then (ofRanges rs negated).low.has (UInt8.ofNat c)
      else (ofRanges rs negated).high.contains c) = true ↔ Covers rs c := by
    split
    · rename_i hc
      rw [has_low, UInt8.toNat_ofNat_of_lt' hc]
    · rename_i hc
      rw [RangeTable.contains_iff (ascending_high h), covers_high]
      exact and_iff_right (Nat.le_of_not_lt hc)
  unfold contains
  change ((if c < 256 then _ else _) != negated) = true ↔ _
  generalize (if c < 256 then (ofRanges rs negated).low.has (UInt8.ofNat c)
      else (ofRanges rs negated).high.contains c) = hit at hpart
  rw [← hpart]
  cases hit <;> cases negated <;> decide

theorem has_lowMembers {b : UInt8} : k.lowMembers.has b = k.contains b.toNat := by
  rw [contains, if_pos b.toNat_lt, UInt8.ofNat_toNat, lowMembers]
  cases k.negated with
  | true => simp [ByteSet.has_complement]
  | false => simp

theorem contains_of_not_hasHigh (h : k.hasHigh = false) (hc : 256 ≤ c) : k.contains c = false := by
  obtain ⟨hneg, hhigh⟩ := Bool.or_eq_false_iff.mp h
  have hempty : k.high = #[] := by simpa [Array.isEmpty_iff] using hhigh
  rw [contains, if_neg (Nat.not_lt.mpr hc), hempty, hneg]
  rfl

/-! ## The ranges of a class -/

theorem covers_ranges {negated : Bool} : Covers (ofRanges rs negated).ranges c ↔ Covers rs c := by
  have hlow := CodeSet.covers_joinAll (c := c) (ByteSet.sorted_singles (s := (ofRanges rs negated).low))
  rw [ranges, covers_append, covers_high]
  change Covers (CodeSet.joinAll (ByteSet.singles _)) c ∨ _ ↔ _
  rw [hlow, ByteSet.covers_singles, has_low]
  constructor
  · rintro (⟨hc, h⟩ | ⟨-, h⟩)
    · rwa [UInt8.toNat_ofNat_of_lt' hc] at h
    · exact h
  · intro h
    rcases Nat.lt_or_ge c 256 with hc | hc
    · exact .inl ⟨hc, by rwa [UInt8.toNat_ofNat_of_lt' hc]⟩
    · exact .inr ⟨hc, h⟩

/-- The joined bytes end below the other ranges. -/
theorem ascending_ranges {negated : Bool} (h : Ascending 0 rs) :
    Ascending 0 (ofRanges rs negated).ranges := by
  have hsorted := ByteSet.sorted_singles (s := (ofRanges rs negated).low)
  have hjoined := CodeSet.ascending_joinAll hsorted
  refine (hjoined.mono (Nat.zero_le 1)).append (ascending_high h) fun a ha b hb => ?_
  have hlast : Covers (ByteSet.singles _) a.hi :=
    (CodeSet.covers_joinAll hsorted).mp ⟨a, ha, hjoined.upright a ha, Nat.le_refl _⟩
  have := (ByteSet.covers_singles.mp hlast).1
  have := lo_of_mem_high hb
  omega

/-- A class of sorted ranges that do not overlap matches the codes of the ranges, or the others if it is
negated. It gives its ranges back in order, its table of bytes has the bytes that match, and where it
says that no code from 256 on may match, none does. -/
theorem ofRanges_exact (negated : Bool) (h : Ascending 0 rs) :
    let k := ofRanges rs negated
    (∀ c, k.contains c = true ↔ Xor (Covers rs c) (negated = true)) ∧
      (Ascending 0 k.ranges ∧ ∀ c, Covers k.ranges c ↔ Covers rs c) ∧
      (∀ b, k.lowMembers.has b = k.contains b.toNat) ∧
      (k.hasHigh = false → ∀ c, 256 ≤ c → k.contains c = false) :=
  ⟨fun _ => contains_ofRanges h, ⟨ascending_ranges h, fun _ => covers_ranges⟩,
    fun _ => has_lowMembers, fun hhigh _ hc => contains_of_not_hasHigh hhigh hc⟩

/-- Digits, a range that lies on both sides of 256, and one beyond. -/
def straddling : List CodeRange := [⟨0x30, 0x39⟩, ⟨0xE0, 0x10F⟩, ⟨0x3041, 0x3096⟩]

theorem ofRanges_exact_straddling :
    Ascending 0 straddling ∧
      (let k := ofRanges straddling true
      (∀ c, k.contains c = true ↔ Xor (Covers straddling c) (true = true)) ∧
        (Ascending 0 k.ranges ∧ ∀ c, Covers k.ranges c ↔ Covers straddling c) ∧
        (∀ b, k.lowMembers.has b = k.contains b.toNat) ∧
        (k.hasHigh = false → ∀ c, 256 ≤ c → k.contains c = false)) ∧
      (ofRanges straddling true).contains 0xFF = false ∧
      (ofRanges straddling true).contains 0x100 = false ∧
      (ofRanges straddling true).contains 0x110 = true := by
  have h : Ascending 0 straddling := ⟨by decide, by decide⟩
  exact ⟨h, ofRanges_exact true h, by decide +kernel⟩

end CharClass
end RegexMachine
