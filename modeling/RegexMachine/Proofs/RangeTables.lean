import RegexMachine.Encoding.Basic
import RegexMachine.Proofs.CodeSets

/-!
Search in range tables. Halving a table of ascending ranges finds the range that holds a code, so a
table made of a set holds the members of the set, and the table of a named type those of its
categories.
-/
namespace RegexMachine

variable {c : Nat}

namespace RangeTable

variable {t : RangeTable} {rs : List CodeRange} {r : CodeRange}

/-! ## Halving -/

theorem hi_lt_lo (ht : Ascending 0 t.toList) {i j : Nat} (hi : i < t.size) (hj : j < t.size)
    (hij : i < j) : t[i].hi < t[j].lo :=
  List.pairwise_iff_getElem.mp ht.apart i j hi hj hij

/-- The test of a halving tells on which side the range that holds the code lies. -/
theorem goesLeft_iff (ht : Ascending 0 t.toList) {i mid : Nat} (hi : i < t.size) (hmid : mid < t.size)
    (hlo : t[i].lo ≤ c) (hhi : c ≤ t[i].hi) :
    (decide (c ≤ t[mid].hi) && decide (c < t[mid].lo)) = true ↔ i < mid := by
  have hup : t[mid].lo ≤ t[mid].hi := ht.upright _ (Array.getElem_mem_toList hmid)
  rw [Bool.and_eq_true, decide_eq_true_eq, decide_eq_true_eq]
  constructor
  · rintro ⟨-, hleft⟩
    by_contra hright
    rcases Nat.lt_or_eq_of_le (Nat.le_of_not_lt hright) with hlt | rfl
    · have := hi_lt_lo ht hmid hi hlt
      have := ht.upright _ (Array.getElem_mem_toList hi)
      omega
    · omega
  · intro hlt
    have := hi_lt_lo ht hi hmid hlt
    omega

/-- Halving never leaves the range that holds the code, and so ends there. -/
theorem locate_eq (ht : Ascending 0 t.toList) {i base size : Nat} (hi : i < t.size)
    (hlo : t[i].lo ≤ c) (hhi : c ≤ t[i].hi) (hbase : base ≤ i) (hsize : i < base + size)
    (hfit : base + size ≤ t.size) : t.locate c base size = i := by
  fun_induction locate t c base size with
  | case1 base size hsmall => omega
  | case2 base size hbig half r ih =>
    have hmid : base + half < t.size := by omega
    have hr : r = t[base + half] := (Array.getElem_eq_getD _).symm
    have hside := goesLeft_iff ht hi hmid hlo hhi
    rw [← hr] at hside
    by_cases hleft : i < base + half
    · rw [dif_pos (hside.mpr hleft)] at ih
      rw [if_pos (hside.mpr hleft)]
      exact ih hbase (by omega) (by omega)
    · rw [dif_neg (mt hside.mp hleft)] at ih
      rw [if_neg (mt hside.mp hleft)]
      exact ih (by omega) (by omega) (by omega)

/-- A table holds exactly the codes of its ranges. -/
theorem contains_iff (ht : Ascending 0 t.toList) : t.contains c = true ↔ Covers t.toList c := by
  constructor
  · intro h
    unfold contains at h
    split at h
    · next r hr =>
      have hin : r.lo ≤ c ∧ c ≤ r.hi := by simpa [CodeRange.contains] using h
      exact ⟨r, Array.mem_toList_iff.mpr (Array.mem_of_getElem? hr), hin⟩
    · cases h
  · rintro ⟨r, hr, hlo, hhi⟩
    obtain ⟨i, hi, rfl⟩ := Array.getElem_of_mem (Array.mem_toList_iff.mp hr)
    have hfound := locate_eq ht hi hlo hhi (Nat.zero_le i) (by omega) (Nat.le_of_eq (Nat.zero_add _))
    unfold contains
    rw [hfound, Array.getElem?_eq_getElem hi]
    simpa [CodeRange.contains] using ⟨hlo, hhi⟩

/-! ## Cutting at the limits -/

/-- The parts of a range lie inside it, in order. -/
theorem ascending_cut (ls : List Nat) (hr : r.lo ≤ r.hi) :
    Ascending 0 (cut ls r) ∧ ∀ b ∈ cut ls r, r.lo ≤ b.lo ∧ b.hi ≤ r.hi := by
  induction ls generalizing r with
  | nil => exact ⟨.cons hr (by simp) .nil, by simp [cut]⟩
  | cons l ls ih =>
    unfold cut
    split
    · rename_i hcut
      rw [Bool.and_eq_true, decide_eq_true_eq, decide_eq_true_eq] at hcut
      obtain ⟨hrest, hin⟩ := @ih ⟨l + 1, r.hi⟩ hcut.2
      constructor
      · exact .cons hcut.1 (fun b hb => (hin b hb).1) hrest
      · refine List.forall_mem_cons.mpr ⟨⟨Nat.le_refl _, Nat.le_of_lt hcut.2⟩, fun b hb => ?_⟩
        have := hin b hb
        dsimp only at this
        omega
    · exact ih hr

theorem covers_cut (ls : List Nat) : Covers (cut ls r) c ↔ r.lo ≤ c ∧ c ≤ r.hi := by
  induction ls generalizing r with
  | nil => simp [cut]
  | cons l ls ih =>
    unfold cut
    split
    · rename_i hcut
      rw [Bool.and_eq_true, decide_eq_true_eq, decide_eq_true_eq] at hcut
      rw [covers_cons, ih]
      dsimp only
      omega
    · exact ih

theorem covers_splitAtLimits : Covers (splitAtLimits rs) c ↔ Covers rs c := by
  induction rs with
  | nil => rfl
  | cons r rs ih =>
    rw [splitAtLimits, List.flatMap_cons, covers_append, covers_cut, covers_cons]
    exact or_congr_right ih

theorem ascending_splitAtLimits (h : Ascending 0 rs) : Ascending 0 (splitAtLimits rs) := by
  have hparts : ∀ r ∈ rs, Ascending 0 (cut limits r) ∧
      ∀ b ∈ cut limits r, r.lo ≤ b.lo ∧ b.hi ≤ r.hi :=
    fun r hr => ascending_cut limits (h.upright r hr)
  constructor
  · intro b hb
    obtain ⟨r, hr, hb⟩ := List.mem_flatMap.mp hb
    exact (hparts r hr).1.upright b hb
  · refine List.pairwise_flatMap.mpr ⟨fun r hr => (hparts r hr).1.apart, ?_⟩
    refine h.apart.imp_of_mem fun {r r'} hr hr' hlt b hb b' hb' => ?_
    have hb := (hparts r hr).2 b hb
    have hb' := (hparts r' hr').2 b' hb'
    omega

theorem ascending_ofSet {s : CodeSet} (h : ∀ r ∈ s.ranges, r.lo ≤ r.hi) :
    Ascending 0 (ofSet s).toList :=
  ascending_splitAtLimits ((CodeSet.ascending_normalize h).mono (Nat.zero_le 1))

/-- The table of a set holds the members of the set. -/
theorem contains_ofSet {s : CodeSet} (h : ∀ r ∈ s.ranges, r.lo ≤ r.hi) :
    (ofSet s).contains c = true ↔ s.contains c = true := by
  rw [contains_iff (ascending_ofSet h), CodeSet.contains_iff, ofSet, covers_splitAtLimits]
  exact CodeSet.covers_normalize h

end RangeTable

namespace CodeSet

theorem covers_unionAll {sets : List CodeSet} :
    Covers (unionAll sets).ranges c ↔ ∃ s ∈ sets, Covers s.ranges c := by
  have hfold : ∀ acc : CodeSet, Covers (sets.foldl union acc).ranges c ↔
      Covers acc.ranges c ∨ ∃ s ∈ sets, Covers s.ranges c := by
    induction sets with
    | nil => simp
    | cons s sets ih =>
      intro acc
      rw [List.foldl_cons, ih, union, covers_append]
      simp only [List.mem_cons, exists_eq_or_imp]
      tauto
  rw [unionAll, hfold, empty]
  simp

theorem upright_unionAll {sets : List CodeSet} (h : ∀ s ∈ sets, ∀ r ∈ s.ranges, r.lo ≤ r.hi) :
    ∀ r ∈ (unionAll sets).ranges, r.lo ≤ r.hi := by
  have hfold : ∀ acc : CodeSet, (∀ r ∈ acc.ranges, r.lo ≤ r.hi) →
      ∀ r ∈ (sets.foldl union acc).ranges, r.lo ≤ r.hi := by
    induction sets with
    | nil => exact fun _ hacc => hacc
    | cons s sets ih =>
      intro acc hacc
      refine ih (fun t ht => h t (List.mem_cons_of_mem s ht)) (acc.union s) fun r hr => ?_
      exact (List.mem_append.mp hr).elim (h s List.mem_cons_self r) (hacc r)
  exact hfold empty (by simp [empty])

end CodeSet

namespace Unicode

/-! ## Categories -/

namespace RangeText

theorem Entry.upright (e : Entry) : ∀ r ∈ e.ranges, r.lo ≤ r.hi := by
  intro r hr
  unfold Entry.ranges at hr
  split at hr
  · split at hr
    · cases hr
    · rw [List.mem_singleton.mp hr]
  · split at hr
    · rw [List.mem_singleton.mp hr]
      assumption
    · cases hr
  · obtain ⟨k, -, rfl⟩ := List.mem_map.mp hr
    exact Nat.le_refl _

theorem upright_read (cs : List Char) {done : List CodeRange} (e : Entry)
    (h : ∀ r ∈ done, r.lo ≤ r.hi) : ∀ r ∈ read done e cs, r.lo ≤ r.hi := by
  have hnext : ∀ (done : List CodeRange) (e : Entry), (∀ r ∈ done, r.lo ≤ r.hi) →
      ∀ r ∈ e.ranges.reverse ++ done, r.lo ≤ r.hi := by
    intro done e hdone r hr
    rcases List.mem_append.mp hr with hr | hr
    · exact e.upright r (List.mem_reverse.mp hr)
    · exact hdone r hr
  induction cs generalizing done e with
  | nil =>
    intro r hr
    exact hnext done e h r (List.mem_reverse.mp hr)
  | cons c cs ih =>
    unfold read
    split
    · exact ih _ h
    · split
      · exact ih _ h
      · exact ih _ (hnext done e h)

/-- Whatever a text says, the ranges read from it have their ends in order. -/
theorem upright_decode (text : String) : ∀ r ∈ decode text, r.lo ≤ r.hi :=
  upright_read text.toList .start (by simp)

theorem decode_of_toList {text : String} {cs : List Char} (h : text.toList = cs) :
    decode text = read [] .start cs := by
  rw [decode, h]

end RangeText

section

-- A text is a long literal, which becomes the list of its characters before it is evaluated.
set_option maxRecDepth 20000

theorem Category.smallLetters_written :
    ⟨0x61, 0x7A⟩ ∈ RangeText.decode Category.lowercaseLetter.text :=
  (RangeText.decode_of_toList String.toList_ofList).symm ▸ by decide +kernel

theorem Category.digits_written :
    ∀ r ∈ RangeText.decode Category.decimalNumber.text, r.hi < 0x61 ∨ 0x7A < r.lo :=
  (RangeText.decode_of_toList String.toList_ofList).symm ▸ by decide +kernel

end

theorem Category.upright_members (k : Category) : ∀ r ∈ k.members.ranges, r.lo ≤ r.hi := by
  have htexts : ∀ s ∈ (surrogate :: tabled).map (fun k => CodeSet.mk (RangeText.decode k.text)),
      ∀ r ∈ s.ranges, r.lo ≤ r.hi := by
    intro s hs
    obtain ⟨k, -, rfl⟩ := List.mem_map.mp hs
    exact RangeText.upright_decode k.text
  have hassigned := (CodeSet.ascending_normalize (CodeSet.upright_unionAll htexts)).upright
  have hwritten : ∀ r ∈ (CodeSet.ofRanges (RangeText.decode k.text)).ranges, r.lo ≤ r.hi :=
    (CodeSet.ascending_normalize (RangeText.upright_decode k.text)).upright
  cases k with
  | unassigned => exact (CodeSet.ascending_complement hassigned 0x10FFFF).upright
  | _ => exact hwritten

theorem upright_unionAll_members (ks : List Category) :
    ∀ r ∈ (CodeSet.unionAll (ks.map Category.members)).ranges, r.lo ≤ r.hi := by
  refine CodeSet.upright_unionAll fun s hs => ?_
  obtain ⟨k, -, rfl⟩ := List.mem_map.mp hs
  exact k.upright_members

theorem upright_categories (ks : List Category) : ∀ r ∈ (categories ks).ranges, r.lo ≤ r.hi :=
  (CodeSet.ascending_normalize (upright_unionAll_members ks)).upright

theorem contains_categories (ks : List Category) :
    (categories ks).contains c = true ↔ ∃ k ∈ ks, k.members.contains c = true := by
  rw [CodeSet.contains_iff, categories, CodeSet.covers_normalize (upright_unionAll_members ks),
    CodeSet.covers_unionAll]
  simp [CodeSet.contains_iff]

/-- A category has the members that are written down for it. -/
theorem Category.contains_members {k : Category} (hk : k ≠ .unassigned) :
    k.members.contains c = true ↔ Covers (RangeText.decode k.text) c := by
  have hwritten : k.members = CodeSet.ofRanges (RangeText.decode k.text) := by
    cases k with
    | unassigned => exact absurd rfl hk
    | _ => rfl
  rw [CodeSet.contains_iff, hwritten]
  exact CodeSet.covers_normalize (RangeText.upright_decode k.text)

end Unicode

/-! ## Word characters and digits -/

open Unicode

theorem CharType.word_holds_iff : CharType.word.holds c = true ↔
    ∃ k ∈ letters ++ marks ++ [.decimalNumber, .connectorPunctuation],
      k.members.contains c = true :=
  (RangeTable.contains_ofSet (upright_categories _)).trans (contains_categories _)

theorem CharType.digit_holds_iff :
    CharType.digit.holds c = true ↔ Category.decimalNumber.members.contains c = true := by
  refine ((RangeTable.contains_ofSet (upright_categories _)).trans (contains_categories _)).trans ?_
  simp

variable {e : Encoding}

/-- The small letters are word characters in every encoding. -/
theorem smallLetter_word (hlo : 0x61 ≤ c) (hhi : c ≤ 0x7A) : e.hasType c .word = true := by
  have hword : CharType.word.holds c = true := by
    refine CharType.word_holds_iff.mpr ⟨.lowercaseLetter, by decide, ?_⟩
    rw [Category.contains_members (by decide)]
    exact ⟨_, Category.smallLetters_written, hlo, hhi⟩
  unfold Encoding.hasType
  cases e <;> simp only [hword, Bool.and_true, decide_eq_true_eq] <;> omega

/-- And they are no digits. -/
theorem smallLetter_not_digit (hlo : 0x61 ≤ c) (hhi : c ≤ 0x7A) : e.hasType c .digit = false := by
  have hdigit : CharType.digit.holds c = false := by
    rw [Bool.eq_false_iff, Ne, CharType.digit_holds_iff, Category.contains_members (by decide)]
    rintro ⟨r, hr, hrlo, hrhi⟩
    have := Category.digits_written r hr
    omega
  unfold Encoding.hasType
  cases e <;> simp only [hdigit, Bool.and_false]

end RegexMachine
