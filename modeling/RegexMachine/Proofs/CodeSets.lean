import RegexMachine.CodeSet
import Mathlib.Data.List.Sort

/-!
The algebra of sets of code points. Each operation is one sweep over sorted ranges, so each has an
induction of its own that says which codes the sweep yields, and one that says in which order its
ranges come. The two together give what every operation does to the members of a set.
-/
namespace RegexMachine

/-- Some range of a list holds a code. -/
def Covers (rs : List CodeRange) (c : Nat) : Prop := ∃ r ∈ rs, r.lo ≤ c ∧ c ≤ r.hi

/-- Ranges with their ends in order, each of which begins more than `gap` codes after the end of the
one before. -/
structure Ascending (gap : Nat) (rs : List CodeRange) : Prop where
  upright : ∀ r ∈ rs, r.lo ≤ r.hi
  apart : rs.Pairwise fun a b => a.hi + gap < b.lo

variable {rs as bs : List CodeRange} {r a b cur : CodeRange} {gap c : Nat}

@[simp] theorem covers_nil : ¬ Covers [] c := by simp [Covers]

@[simp] theorem covers_cons : Covers (r :: rs) c ↔ (r.lo ≤ c ∧ c ≤ r.hi) ∨ Covers rs c := by
  simp [Covers]

@[simp] theorem covers_append : Covers (as ++ bs) c ↔ Covers as c ∨ Covers bs c := by
  simp [Covers, or_and_right, exists_or]

theorem covers_perm (h : as.Perm bs) : Covers as c ↔ Covers bs c := by
  simp [Covers, h.mem_iff]

namespace Ascending

theorem nil : Ascending gap [] := ⟨by simp, .nil⟩

theorem cons (hr : r.lo ≤ r.hi) (hrs : ∀ b ∈ rs, r.hi + gap < b.lo) (h : Ascending gap rs) :
    Ascending gap (r :: rs) :=
  ⟨List.forall_mem_cons.mpr ⟨hr, h.upright⟩, .cons hrs h.apart⟩

theorem head (h : Ascending gap (r :: rs)) : r.lo ≤ r.hi := h.upright r List.mem_cons_self

theorem after (h : Ascending gap (r :: rs)) : ∀ b ∈ rs, r.hi + gap < b.lo :=
  (List.pairwise_cons.mp h.apart).1

theorem tail (h : Ascending gap (r :: rs)) : Ascending gap rs :=
  ⟨fun b hb => h.upright b (List.mem_cons_of_mem r hb), (List.pairwise_cons.mp h.apart).2⟩

theorem mono {wide : Nat} (h : Ascending wide rs) (hgap : gap ≤ wide) : Ascending gap rs :=
  ⟨h.upright, h.apart.imp fun hab => by omega⟩

/-- Codes of later ranges lie above the first one. -/
theorem lt_of_covers (h : Ascending gap (r :: rs)) (hc : Covers rs c) : r.hi + gap < c := by
  obtain ⟨b, hb, hlo, -⟩ := hc
  have := h.after b hb
  omega

end Ascending

namespace CodeSet

variable {s t : CodeSet}

theorem contains_iff : s.contains c = true ↔ Covers s.ranges c := by
  simp [contains, CodeRange.contains, Covers]

/-! ## Sets as they are gathered -/

/-- Sets made by adding codes, ranges and other sets, in whatever order. -/
inductive Gathered : CodeSet → Prop
  | empty : Gathered empty
  | add {s : CodeSet} (c : Nat) (h : Gathered s) : Gathered (s.add c)
  | addRange {s : CodeSet} (lo hi : Nat) (h : Gathered s) : Gathered (s.addRange lo hi)
  | union {s t : CodeSet} (h : Gathered s) (h' : Gathered t) : Gathered (s.union t)

/-- Whatever is added, every range has its ends in order. -/
theorem Gathered.upright (h : Gathered s) : ∀ r ∈ s.ranges, r.lo ≤ r.hi := by
  induction h with
  | empty => simp [CodeSet.empty]
  | add c _ ih => exact List.forall_mem_cons.mpr ⟨Nat.le_refl c, ih⟩
  | addRange lo hi _ ih =>
    unfold CodeSet.addRange
    split
    · exact List.forall_mem_cons.mpr ⟨‹lo ≤ hi›, ih⟩
    · exact ih
  | union _ _ ih ih' =>
    intro r hr
    exact (List.mem_append.mp hr).elim (ih' r) (ih r)

/-! ## Sorting and joining -/

theorem precedes_iff : a.precedes b = true ↔ a.lo < b.lo ∨ a.lo = b.lo ∧ a.hi ≤ b.hi := by
  simp [CodeRange.precedes]

/-- Ranges in the order of their lower ends, each with its ends in order. -/
structure Sorted (rs : List CodeRange) : Prop where
  upright : ∀ r ∈ rs, r.lo ≤ r.hi
  starts : rs.Pairwise fun a b => a.lo ≤ b.lo

theorem sorted_mergeSort (h : ∀ r ∈ rs, r.lo ≤ r.hi) : Sorted (rs.mergeSort CodeRange.precedes) := by
  refine ⟨fun r hr => h r (List.mem_mergeSort.mp hr), ?_⟩
  have hsorted := @List.pairwise_mergeSort _ CodeRange.precedes
    (fun a b c hab hbc => by
      rw [precedes_iff] at hab hbc ⊢
      omega)
    (fun a b => by
      rw [Bool.or_eq_true, precedes_iff, precedes_iff]
      omega) rs
  refine hsorted.imp fun hab => ?_
  rw [precedes_iff] at hab
  omega

/-- The range that grows takes in the next one. -/
theorem Sorted.grow (h : Sorted (cur :: r :: rs)) : Sorted (⟨cur.lo, max cur.hi r.hi⟩ :: rs) := by
  obtain ⟨hup, hstarts⟩ := h
  simp only [List.forall_mem_cons, List.pairwise_cons] at hup hstarts
  constructor
  · exact List.forall_mem_cons.mpr ⟨by dsimp only; omega, hup.2.2⟩
  · exact .cons hstarts.1.2 hstarts.2.2

theorem Sorted.tail (h : Sorted (r :: rs)) : Sorted rs :=
  ⟨fun b hb => h.upright b (List.mem_cons_of_mem r hb), (List.pairwise_cons.mp h.starts).2⟩

theorem Sorted.head_le (h : Sorted (r :: rs)) : ∀ b ∈ rs, r.lo ≤ b.lo :=
  (List.pairwise_cons.mp h.starts).1

/-- Joining ranges that overlap or touch neither adds codes nor drops any. -/
theorem covers_join (h : Sorted (cur :: rs)) : Covers (join cur rs) c ↔ Covers (cur :: rs) c := by
  induction rs generalizing cur with
  | nil => rfl
  | cons r rs ih =>
    have hlo := h.head_le r List.mem_cons_self
    have hcur := h.upright cur List.mem_cons_self
    have hr := h.tail.upright r List.mem_cons_self
    unfold join
    split
    · rw [ih h.grow]
      simp only [covers_cons, ← or_assoc]
      refine or_congr_left ?_
      omega
    · rw [covers_cons, ih h.tail, covers_cons, covers_cons, covers_cons]

/-- Every joined range begins where one of the ranges does. -/
theorem lo_of_mem_join (h : Sorted (cur :: rs)) (hr : r ∈ join cur rs) : cur.lo ≤ r.lo := by
  induction rs generalizing cur with
  | nil => rw [List.mem_singleton.mp hr]
  | cons b rs ih =>
    unfold join at hr
    split at hr
    · exact @ih ⟨cur.lo, max cur.hi b.hi⟩ h.grow hr
    · rcases List.mem_cons.mp hr with rfl | hr
      · exact Nat.le_refl _
      · exact Nat.le_trans (h.head_le b List.mem_cons_self) (ih h.tail hr)

/-- Joined ranges do not even touch. -/
theorem ascending_join (h : Sorted (cur :: rs)) : Ascending 1 (join cur rs) := by
  induction rs generalizing cur with
  | nil => exact .cons (h.upright cur List.mem_cons_self) (by simp) .nil
  | cons r rs ih =>
    unfold join
    split
    · exact ih h.grow
    · refine .cons (h.upright cur List.mem_cons_self) (fun b hb => ?_) (ih h.tail)
      have := lo_of_mem_join h.tail hb
      omega

theorem covers_joinAll (h : Sorted rs) : Covers (joinAll rs) c ↔ Covers rs c := by
  cases rs with
  | nil => rfl
  | cons r rs => exact covers_join h

theorem ascending_joinAll (h : Sorted rs) : Ascending 1 (joinAll rs) := by
  cases rs with
  | nil => exact .nil
  | cons r rs => exact ascending_join h

theorem covers_normalize (h : ∀ r ∈ s.ranges, r.lo ≤ r.hi) :
    Covers s.normalize.ranges c ↔ Covers s.ranges c := by
  rw [normalize, covers_joinAll (sorted_mergeSort h)]
  exact covers_perm (List.mergeSort_perm _ _)

theorem ascending_normalize (h : ∀ r ∈ s.ranges, r.lo ≤ r.hi) : Ascending 1 s.normalize.ranges :=
  ascending_joinAll (sorted_mergeSort h)

/-! ## Complements -/

variable {next top : Nat}

/-- What ascending ranges leave free from `next` up to `top`. -/
theorem covers_gaps (h : Ascending gap rs) :
    Covers (gaps next top rs) c ↔ (next ≤ c ∧ c ≤ top) ∧ ¬ Covers rs c := by
  induction rs generalizing next with
  | nil =>
    unfold gaps
    split
    · simp
    · simp only [covers_nil, false_iff]
      omega
  | cons r rs ih =>
    have hr := h.head
    have hlater : Covers rs c → r.hi + gap < c := h.lt_of_covers
    rw [covers_cons]
    unfold gaps
    split
    · -- all ranges from here on lie above `top`
      have hfree : c ≤ top → ¬ Covers rs c := fun hc hcov => by
        have := hlater hcov
        omega
      split
      · simp only [covers_cons, covers_nil, or_false]
        constructor
        · intro hin
          exact ⟨hin, fun h => h.elim (fun h => by omega) (hfree hin.2)⟩
        · exact And.left
      · simp only [covers_nil, false_iff]
        rintro ⟨hin, -⟩
        omega
    · by_cases hcov : Covers rs c
      · have hgt := hlater hcov
        split
        · rw [covers_cons, ih h.tail]
          simp only [hcov, not_true_eq_false, and_false, or_true, or_false, iff_false]
          omega
        · rw [ih h.tail]
          simp [hcov]
      · split
        · rw [covers_cons, ih h.tail]
          simp only [hcov, not_false_eq_true, and_true, or_false]
          omega
        · rw [ih h.tail]
          simp only [hcov, not_false_eq_true, and_true, or_false]
          omega

/-- Gaps lie between `next` and `top`. -/
theorem bounds_of_mem_gaps (h : Ascending gap rs) (hr : r ∈ gaps next top rs) :
    next ≤ r.lo ∧ r.lo ≤ r.hi ∧ r.hi ≤ top := by
  induction rs generalizing next with
  | nil =>
    unfold gaps at hr
    split at hr
    · obtain rfl := List.mem_singleton.mp hr
      exact ⟨Nat.le_refl _, ‹_›, Nat.le_refl _⟩
    · cases hr
  | cons b rs ih =>
    unfold gaps at hr
    split at hr
    · split at hr
      · obtain rfl := List.mem_singleton.mp hr
        exact ⟨Nat.le_refl _, ‹_›, Nat.le_refl _⟩
      · cases hr
    · split at hr
      · rcases List.mem_cons.mp hr with rfl | hr
        · dsimp only
          omega
        · have := ih h.tail hr
          omega
      · have := ih h.tail hr
        omega

theorem ascending_gaps (h : Ascending gap rs) : Ascending 1 (gaps next top rs) := by
  induction rs generalizing next with
  | nil =>
    unfold gaps
    split
    · exact .cons ‹next ≤ top› (by simp) .nil
    · exact .nil
  | cons r rs ih =>
    have hr := h.head
    unfold gaps
    split
    · split
      · exact .cons ‹next ≤ top› (by simp) .nil
      · exact .nil
    · split
      · refine .cons (by dsimp only; omega) (fun b hb => ?_) (ih h.tail)
        have := bounds_of_mem_gaps h.tail hb
        dsimp only
        omega
      · exact ih h.tail

theorem covers_complement (h : ∀ r ∈ s.ranges, r.lo ≤ r.hi) :
    Covers (s.complement top).ranges c ↔ c ≤ top ∧ ¬ Covers s.ranges c := by
  rw [complement, covers_gaps (ascending_normalize h), covers_normalize h]
  simp

theorem ascending_complement (h : ∀ r ∈ s.ranges, r.lo ≤ r.hi) (top : Nat) :
    Ascending 1 (s.complement top).ranges :=
  ascending_gaps (ascending_normalize h)

/-! ## Intersections -/

/-- The ranges of two sweeps that are still to come once the range that ends first is dropped. -/
def meetRest (a b : CodeRange) (as bs : List CodeRange) : List CodeRange :=
  if a.hi < b.hi then meet as (b :: bs) else meet (a :: as) bs

theorem meet_cons : meet (a :: as) (b :: bs) =
    if max a.lo b.lo ≤ min a.hi b.hi then
      ⟨max a.lo b.lo, min a.hi b.hi⟩ :: meetRest a b as bs
    else meetRest a b as bs := by
  rw [meet]
  rfl

/-- A fact about a sweep follows from that about the two sweeps that it may go on with. -/
theorem meet_induction {motive : List CodeRange → List CodeRange → Prop}
    (left : ∀ bs, motive [] bs) (right : ∀ as, motive as [])
    (step : ∀ a as b bs, motive as (b :: bs) → motive (a :: as) bs → motive (a :: as) (b :: bs)) :
    ∀ as bs, motive as bs := by
  intro as
  induction as with
  | nil => exact left
  | cons a as ih =>
    intro bs
    induction bs with
    | nil => exact right _
    | cons b bs ihb => exact step a as b bs (ih _) ihb

@[simp] theorem meet_nil_left : meet [] bs = [] := by rw [meet]

@[simp] theorem meet_nil_right : meet as [] = [] := by cases as <;> rw [meet]

/-- Every common range lies inside a range of either list. -/
theorem inside_of_mem_meet (as bs : List CodeRange) : ∀ r ∈ meet as bs,
    r.lo ≤ r.hi ∧ (∃ a ∈ as, a.lo ≤ r.lo ∧ r.hi ≤ a.hi) ∧ ∃ b ∈ bs, b.lo ≤ r.lo ∧ r.hi ≤ b.hi := by
  induction as, bs using meet_induction with
  | left => simp
  | right => simp
  | step a as b bs ih ih' =>
    have hrest : ∀ r ∈ meetRest a b as bs, r.lo ≤ r.hi ∧
        (∃ a' ∈ a :: as, a'.lo ≤ r.lo ∧ r.hi ≤ a'.hi) ∧
        ∃ b' ∈ b :: bs, b'.lo ≤ r.lo ∧ r.hi ≤ b'.hi := by
      intro r hr
      unfold meetRest at hr
      split at hr
      · obtain ⟨hup, ⟨a', ha', h⟩, hb⟩ := ih r hr
        exact ⟨hup, ⟨a', List.mem_cons_of_mem a ha', h⟩, hb⟩
      · obtain ⟨hup, ha, ⟨b', hb', h⟩⟩ := ih' r hr
        exact ⟨hup, ha, ⟨b', List.mem_cons_of_mem b hb', h⟩⟩
    rw [meet_cons]
    split
    · refine List.forall_mem_cons.mpr ⟨⟨‹_›, ?_, ?_⟩, hrest⟩
      · exact ⟨a, List.mem_cons_self, Nat.le_max_left _ _, Nat.min_le_left _ _⟩
      · exact ⟨b, List.mem_cons_self, Nat.le_max_right _ _, Nat.min_le_right _ _⟩
    · exact hrest

/-- Sweeping over two lists of ascending ranges finds what both hold. -/
theorem covers_meet (ha : Ascending gap as) (hb : Ascending gap bs) :
    Covers (meet as bs) c ↔ Covers as c ∧ Covers bs c := by
  induction as, bs using meet_induction with
  | left => simp
  | right => simp
  | step a as b bs ih ih' =>
    have hlater : Covers as c → a.hi + gap < c := ha.lt_of_covers
    have hlater' : Covers bs c → b.hi + gap < c := hb.lt_of_covers
    have hrest : Covers (meetRest a b as bs) c ↔ if a.hi < b.hi then Covers as c ∧ Covers (b :: bs) c
        else Covers (a :: as) c ∧ Covers bs c := by
      unfold meetRest
      split
      · exact ih ha.tail hb
      · exact ih' ha hb.tail
    have hmeet : Covers (meet (a :: as) (b :: bs)) c ↔
        ((a.lo ≤ c ∧ c ≤ a.hi) ∧ b.lo ≤ c ∧ c ≤ b.hi) ∨ Covers (meetRest a b as bs) c := by
      rw [meet_cons]
      split
      · rw [covers_cons]
        refine or_congr_left ?_
        dsimp only
        omega
      · refine (or_iff_right ?_).symm
        omega
    rw [hmeet, hrest, covers_cons, covers_cons]
    by_cases hA : Covers as c <;> by_cases hB : Covers bs c
    · have := hlater hA
      have := hlater' hB
      simp [hA, hB]
    · have := hlater hA
      simp only [hA, hB, or_true, or_false, and_false, true_and]
      split
      · omega
      · simp only [or_false]
        omega
    · have := hlater' hB
      simp only [hA, hB, or_true, or_false, and_true]
      split
      · simp only [or_false]
        omega
      · omega
    · simp [hA, hB]

theorem ascending_meet (ha : Ascending gap as) (hb : Ascending gap bs) :
    Ascending gap (meet as bs) := by
  induction as, bs using meet_induction with
  | left => simpa using Ascending.nil
  | right => simpa using Ascending.nil
  | step a as b bs ih ih' =>
    have hrest : Ascending gap (meetRest a b as bs) ∧
        ∀ r ∈ meetRest a b as bs, min a.hi b.hi + gap < r.lo := by
      unfold meetRest
      split
      · refine ⟨ih ha.tail hb, fun r hr => ?_⟩
        obtain ⟨-, ⟨a', ha', hlo, -⟩, -⟩ := inside_of_mem_meet _ _ r hr
        have := ha.after a' ha'
        omega
      · refine ⟨ih' ha hb.tail, fun r hr => ?_⟩
        obtain ⟨-, -, ⟨b', hb', hlo, -⟩⟩ := inside_of_mem_meet _ _ r hr
        have := hb.after b' hb'
        omega
    rw [meet_cons]
    split
    · exact .cons ‹_› hrest.2 hrest.1
    · exact hrest.1

theorem covers_inter (hs : ∀ r ∈ s.ranges, r.lo ≤ r.hi) (ht : ∀ r ∈ t.ranges, r.lo ≤ r.hi) :
    Covers (s.inter t).ranges c ↔ Covers s.ranges c ∧ Covers t.ranges c := by
  rw [inter, covers_meet (ascending_normalize hs) (ascending_normalize ht), covers_normalize hs,
    covers_normalize ht]

theorem ascending_inter (hs : ∀ r ∈ s.ranges, r.lo ≤ r.hi) (ht : ∀ r ∈ t.ranges, r.lo ≤ r.hi) :
    Ascending 1 (s.inter t).ranges :=
  ascending_meet (ascending_normalize hs) (ascending_normalize ht)

/-! ## Everything at once -/

theorem covers_clamp : Covers (s.clamp top).ranges c ↔ c ≤ top ∧ Covers s.ranges c := by
  simp only [clamp, Covers, List.mem_map, List.mem_filter, decide_eq_true_eq]
  constructor
  · rintro ⟨_, ⟨r, ⟨hr, -⟩, rfl⟩, hlo, hhi⟩
    exact ⟨by dsimp only at hhi; omega, r, hr, hlo, by dsimp only at hhi; omega⟩
  · rintro ⟨htop, r, hr, hlo, hhi⟩
    exact ⟨_, ⟨r, ⟨hr, by omega⟩, rfl⟩, hlo, by dsimp only; omega⟩

/-- The operations on sets of code points do to the members what their names say, whatever ranges the
sets were gathered from, and their results are ranges in ascending order that do not overlap. -/
theorem algebra_exact {a b : CodeSet} (ha : Gathered a) (hb : Gathered b) (top c : Nat) :
    (a.normalize.contains c = a.contains c ∧
      ((a.complement top).contains c = true ↔ c ≤ top ∧ a.contains c = false) ∧
      ((a.inter b).contains c = true ↔ a.contains c = true ∧ b.contains c = true) ∧
      ((a.clamp top).contains c = true ↔ a.contains c = true ∧ c ≤ top) ∧
      (((a.complement top).complement top).contains c = true ↔ a.contains c = true ∧ c ≤ top)) ∧
    Ascending 1 a.normalize.ranges ∧ Ascending 1 a.toRanges ∧
    Ascending 0 (a.complement top).ranges ∧ Ascending 0 (a.inter b).ranges := by
  have hup := ha.upright
  have hup' := hb.upright
  have hcomplement := ascending_complement hup top
  have hnot (s : CodeSet) : s.contains c = false ↔ ¬ Covers s.ranges c := by
    rw [← contains_iff, Bool.not_eq_true]
  refine ⟨⟨?_, ?_, ?_, ?_, ?_⟩, ascending_normalize hup, ascending_normalize hup,
    hcomplement.mono (Nat.zero_le 1), (ascending_inter hup hup').mono (Nat.zero_le 1)⟩
  · rw [Bool.eq_iff_iff, contains_iff, contains_iff, covers_normalize hup]
  · rw [contains_iff, hnot, covers_complement hup]
  · rw [contains_iff, contains_iff, contains_iff, covers_inter hup hup']
  · rw [contains_iff, contains_iff, covers_clamp, and_comm]
  · rw [contains_iff, contains_iff, covers_complement hcomplement.upright, covers_complement hup]
    tauto

/-- Ranges that overlap, touch and reach up to the largest code of 32 bits, in no order. -/
def scattered : CodeSet :=
  ((((empty.addRange 40 49).addRange 45 60).addRange 0xFFFFFFF0 0xFFFFFFFF).add 61).addRange 0 9

theorem algebra_exact_scattered :
    (Gathered scattered ∧ Gathered (empty.addRange 5 50)) ∧
      scattered.normalize.ranges = [⟨0, 9⟩, ⟨40, 61⟩, ⟨0xFFFFFFF0, 0xFFFFFFFF⟩] ∧
      ((scattered.inter (empty.addRange 5 50)).contains 7 = true ↔
        scattered.contains 7 = true ∧ (empty.addRange 5 50).contains 7 = true) ∧
      Ascending 0 (scattered.complement 0xFFFFFFFF).ranges := by
  have ha : Gathered scattered :=
    .addRange _ _ (.add _ (.addRange _ _ (.addRange _ _ (.addRange _ _ .empty))))
  have hb : Gathered (empty.addRange 5 50) := .addRange _ _ .empty
  have hsorted : scattered.ranges.mergeSort CodeRange.precedes =
      [⟨0, 9⟩, ⟨40, 49⟩, ⟨45, 60⟩, ⟨61, 61⟩, ⟨0xFFFFFFF0, 0xFFFFFFFF⟩] := by
    simp [scattered, empty, addRange, add, List.mergeSort, List.MergeSort.Internal.splitInTwo,
      CodeRange.precedes]
  have hjoined : scattered.normalize.ranges = [⟨0, 9⟩, ⟨40, 61⟩, ⟨0xFFFFFFF0, 0xFFFFFFFF⟩] :=
    (congrArg joinAll hsorted).trans (by simp [joinAll, join])
  have h := algebra_exact ha hb 0xFFFFFFFF 7
  exact ⟨⟨ha, hb⟩, hjoined, h.1.2.2.1, h.2.2.2.1⟩

end CodeSet
end RegexMachine
