import RegexMachine.Machine.Subject

/-!
Where characters begin in a text that is made up of whole characters: steps forward and back, and
the adjustment of an offset inside a character, go from one of these places to the next.
-/
namespace RegexMachine

namespace Encoding

variable {e : Encoding} {c : Nat} {x : List UInt8}

/-! ## The bytes of a character -/

theorem isContinuation_iff (b : UInt8) :
    isContinuation b = true ↔ 0x80 ≤ b.toNat ∧ b.toNat < 0xC0 := by
  obtain ⟨⟨n⟩⟩ := b
  revert n
  decide +kernel

theorem charLen_utf8 (b : UInt8) :
    utf8.charLen b =
      if b.toNat ≤ 0x7F then 1
      else if 0xC2 ≤ b.toNat ∧ b.toNat ≤ 0xDF then 2
      else if 0xE0 ≤ b.toNat ∧ b.toNat ≤ 0xEF then 3
      else if 0xF0 ≤ b.toNat ∧ b.toNat ≤ 0xF4 then 4
      else 1 := by
  simp [charLen, UInt8.le_iff_toNat_le]

theorem toNat_ofNat {n : Nat} (h : n < 256) : (UInt8.ofNat n).toNat = n := by
  rw [UInt8.toNat_ofNat']
  exact Nat.mod_eq_of_lt h

theorem isContinuation_tail (n : Nat) : isContinuation (UInt8.ofNat (0x80 + n % 64)) = true := by
  have := Nat.mod_lt n (by omega : 0 < 64)
  rw [isContinuation_iff, toNat_ofNat (by omega)]
  omega

/-- A byte that begins a character, and the continuation bytes that follow it. -/
structure Spelling (e : Encoding) (b : UInt8) (tail : List UInt8) : Prop where
  length : e.charLen b = tail.length + 1
  short : tail.length ≤ 3
  head : e = .utf8 → isContinuation b = false
  continues : ∀ y ∈ tail, isContinuation y = true
  single : e ≠ .utf8 → tail = []

theorem spelling_utf8 {n : Nat} {tail : List UInt8} (hn : n < 256)
    (h : n ≤ 0x7F ∧ tail.length = 0 ∨ 0xC2 ≤ n ∧ n ≤ 0xDF ∧ tail.length = 1 ∨
      0xE0 ≤ n ∧ n ≤ 0xEF ∧ tail.length = 2 ∨ 0xF0 ≤ n ∧ n ≤ 0xF4 ∧ tail.length = 3)
    (htail : ∀ y ∈ tail, isContinuation y = true) :
    utf8.Spelling (UInt8.ofNat n) tail where
  length := by
    rw [charLen_utf8, toNat_ofNat hn]
    repeat' split
    all_goals omega
  short := by omega
  head _ := by
    rw [← Bool.not_eq_true, isContinuation_iff, toNat_ofNat hn]
    omega
  continues := htail
  single h := absurd rfl h

theorem spelling_encode (h : e.encode c = .ok x) :
    ∃ b tail, x = b :: tail ∧ e.Spelling b tail := by
  unfold encode at h
  split at h
  · split at h
    · rename_i hc
      cases h
      unfold utf8Bytes
      dsimp only
      have htail := isContinuation_tail
      repeat' split
      all_goals
        refine ⟨_, _, rfl, ?_⟩
        refine spelling_utf8 ?_ ?_ ?_
        · omega
        · simp
          omega
        · simp only [List.forall_mem_cons, List.not_mem_nil, false_implies, implies_true, htail,
            and_self]
    · cases h
  · rename_i hne
    split at h
    · cases h
      refine ⟨_, [], rfl, ?_, by simp, fun h => absurd h hne, by simp, fun _ => rfl⟩
      cases e <;> first | rfl | exact absurd rfl hne
    · cases h

/-- Texts that are made up of whole characters. -/
inductive Spells (e : Encoding) : List UInt8 → Prop
  | nil : Spells e []
  | cons {c : Nat} {x rest : List UInt8} (hc : e.encode c = .ok x) (h : Spells e rest) :
    Spells e (x ++ rest)

/-- Every place in a text lies in a character. -/
theorem Spells.around {bs : List UInt8} (h : e.Spells bs) {i : Nat} (hi : i < bs.length) :
    ∃ before c x rest, bs = before ++ (x ++ rest) ∧ e.encode c = .ok x ∧ e.Spells rest ∧
      before.length ≤ i ∧ i < before.length + x.length := by
  induction h generalizing i with
  | nil => simp at hi
  | @cons c x rest hc hrest ih =>
    by_cases hx : i < x.length
    · exact ⟨[], c, x, rest, rfl, hc, hrest, Nat.zero_le _, by simpa using hx⟩
    · obtain ⟨before, c', y, rest', hbs, hc', hrest', hle, hlt⟩ :=
        ih (i := i - x.length) (by simp at hi; omega)
      refine ⟨x ++ before, c', y, rest', by rw [hbs, List.append_assoc], hc', hrest', ?_, ?_⟩
      · simp only [List.length_append]
        omega
      · simp only [List.length_append]
        omega

end Encoding

namespace Subject

variable {t : Subject} {i : Nat}

/-- The text is made up of whole characters. -/
def WellFormed (t : Subject) : Prop := t.encoding.Spells t.bytes.toList

/-- Whether a character begins at a place, or the text ends there. -/
def isBoundary (t : Subject) (i : Nat) : Bool :=
  match t.bytes[i]? with
  | some b => t.encoding != .utf8 || !Encoding.isContinuation b
  | none => i == t.size

/-- A character of a text that begins at `i` and is `n` bytes long. -/
structure CharAt (t : Subject) (i n : Nat) : Prop where
  pos : 0 < n
  short : n ≤ 4
  le : i + n ≤ t.size
  boundary : t.isBoundary i = true
  inside : ∀ k, i < k → k < i + n → t.isBoundary k = false
  next : t.isBoundary (i + n) = true
  charLen : t.encoding.charLenAt t.bytes i = n
  code : ∃ c, t.encoding.encode c = .ok (t.bytes.slice i (i + n)).toList

theorem isBoundary_of_spells {before rest : List UInt8} (ht : t.bytes.toList = before ++ rest)
    (h : t.encoding.Spells rest) : t.isBoundary before.length = true := by
  have hget : t.bytes[before.length]? = rest[0]? := by
    rw [← Array.getElem?_toList, ht, List.getElem?_append_right (Nat.le_refl _), Nat.sub_self]
  have hsize : t.size = before.length + rest.length := by
    rw [size, ← Array.length_toList, ht, List.length_append]
  unfold isBoundary
  rw [hget]
  cases h with
  | nil => simp [hsize]
  | @cons c x rest hc h =>
    obtain ⟨b, tail, rfl, hspell⟩ := Encoding.spelling_encode hc
    by_cases he : t.encoding = .utf8
    · simp [hspell.head he]
    · simp [he]

/-- Every place in a text that is well formed lies in a character. -/
theorem WellFormed.around (h : t.WellFormed) (hi : i < t.size) :
    ∃ k n, t.CharAt k n ∧ k ≤ i ∧ i < k + n := by
  obtain ⟨before, c, x, rest, ht, hc, hrest, hle, hlt⟩ :=
    Encoding.Spells.around h (i := i) (by rwa [Array.length_toList])
  have hsize : t.size = before.length + x.length + rest.length := by
    rw [size, ← Array.length_toList, ht, List.length_append, List.length_append, Nat.add_assoc]
  have hget : ∀ j, t.bytes[before.length + j]? = (x ++ rest)[j]? := fun j => by
    rw [← Array.getElem?_toList, ht, List.getElem?_append_right (Nat.le_add_right ..),
      Nat.add_sub_cancel_left]
  have hcode : (t.bytes.slice before.length (before.length + x.length)).toList = x := by
    rw [Bytes.slice, Array.toList_extract, ht, List.extract_eq_take_drop, Nat.add_sub_cancel_left,
      List.drop_left, List.take_left]
  obtain ⟨b, tail, rfl, hspell⟩ := Encoding.spelling_encode hc
  refine ⟨before.length, (b :: tail).length, ⟨by simp, ?_, by omega, ?_, fun k hk hlt => ?_, ?_, ?_,
    c, by rw [hcode, hc]⟩, hle, hlt⟩
  · have := hspell.short
    simp only [List.length_cons]
    omega
  · exact isBoundary_of_spells ht (.cons hc hrest)
  · obtain ⟨j, rfl⟩ : ∃ j, k = before.length + (j + 1) := ⟨k - before.length - 1, by omega⟩
    have hj : j < tail.length := by
      simp only [List.length_cons] at hlt
      omega
    have he : t.encoding = .utf8 := Decidable.byContradiction fun he => by
      rw [hspell.single he] at hj
      simp at hj
    have hbyte : t.bytes[before.length + (j + 1)]? = some tail[j] := by
      rw [hget, List.cons_append, List.getElem?_cons_succ, List.getElem?_append_left hj,
        List.getElem?_eq_getElem hj]
    have hcontinues := hspell.continues _ (List.getElem_mem hj)
    rw [isBoundary, hbyte]
    simp [he, hcontinues]
  · rw [← List.length_append]
    exact isBoundary_of_spells (by rw [ht, List.append_assoc]) hrest
  · have hbyte : t.bytes.byteAt before.length = b := by
      have := hget 0
      simp only [Nat.add_zero, List.cons_append, List.getElem?_cons_zero] at this
      simp [Bytes.byteAt, this]
    have hlength := hspell.length
    rw [Encoding.charLenAt, hbyte, hlength]
    simp only [size, List.length_cons] at hsize ⊢
    omega

theorem isBoundary_size : t.isBoundary t.size = true := by
  simp [isBoundary, size]

/-- A character begins at every boundary before the end. -/
theorem WellFormed.charAt (h : t.WellFormed) (hb : t.isBoundary i = true) (hi : i < t.size) :
    t.CharAt i (t.encoding.charLenAt t.bytes i) := by
  obtain ⟨k, n, hchar, hle, hlt⟩ := h.around hi
  obtain rfl : k = i := by
    refine Decidable.byContradiction fun hne => ?_
    rw [hchar.inside i (by omega) hlt] at hb
    cases hb
  rw [hchar.charLen]
  exact hchar

theorem CharAt.next_eq {n : Nat} (h : t.CharAt i n) : t.next i = i + n := by
  have hi : ¬ t.atEnd i = true := by
    have := h.pos
    have := h.le
    rw [atEnd_iff]
    omega
  rw [Subject.next, if_neg hi, h.charLen]

/-! ## Steps -/

theorem WellFormed.next_spec (h : t.WellFormed) (hb : t.isBoundary i = true) (hi : i < t.size) :
    t.isBoundary (t.next i) = true ∧ t.next i ≤ t.size ∧
      ∀ k, i < k → k < t.next i → t.isBoundary k = false := by
  have hchar := h.charAt hb hi
  rw [hchar.next_eq]
  exact ⟨hchar.next, hchar.le, hchar.inside⟩

theorem backToHead_eq {b : Bytes} {floor k : Nat} (hfloor : floor ≤ k)
    (hk : Encoding.isContinuation (b.byteAt k) = false) :
    ∀ i, k ≤ i → (∀ j, k < j → j ≤ i → Encoding.isContinuation (b.byteAt j) = true) →
      Encoding.backToHead b floor i = k := by
  intro i
  induction i with
  | zero =>
    intro hle _
    obtain rfl : k = 0 := by omega
    rfl
  | succ i ih =>
    intro hle hcontinues
    rw [Encoding.backToHead]
    by_cases heq : k = i + 1
    · subst heq
      simp [hk]
    · have hlt : floor < i + 1 := by omega
      have hcont := hcontinues (i + 1) (by omega) (Nat.le_refl _)
      simp only [hlt, decide_true, hcont, Bool.and_self, ↓reduceIte]
      exact ih (by omega) fun j hj hji => hcontinues j hj (by omega)

theorem isContinuation_of_boundary (he : t.encoding = .utf8) (hi : i < t.size) :
    Encoding.isContinuation (t.bytes.byteAt i) = !t.isBoundary i := by
  have hi : i < t.bytes.size := hi
  simp [isBoundary, Bytes.byteAt, he, hi]

theorem isBoundary_of_byte (hi : i < t.size)
    (h : t.encoding = .utf8 → Encoding.isContinuation (t.bytes.byteAt i) = false) :
    t.isBoundary i = true := by
  by_cases he : t.encoding = .utf8
  · have hb := h he
    rw [isContinuation_of_boundary he hi] at hb
    simpa using hb
  · have hi : i < t.bytes.size := hi
    simp [isBoundary, he, hi]

/-- A place in a character goes to its beginning. -/
theorem CharAt.leftAdjust_eq {k n : Nat} (h : t.CharAt k n) (hle : k ≤ i) (hlt : i < k + n) :
    t.encoding.leftAdjust t.bytes i = k := by
  have hi : i < t.size := Nat.lt_of_lt_of_le hlt h.le
  by_cases he : t.encoding = .utf8
  · have hhead : Encoding.isContinuation (t.bytes.byteAt k) = false := by
      rw [isContinuation_of_boundary he (by omega), h.boundary]
      rfl
    have hback : Encoding.backToHead t.bytes (i - 3) i = k := by
      have := h.short
      refine backToHead_eq (by omega) hhead i hle fun j hj hji => ?_
      rw [isContinuation_of_boundary he (by omega), h.inside j hj (by omega)]
      rfl
    have hlen := h.charLen
    rw [Encoding.charLenAt, he] at hlen
    rw [he]
    simp only [Encoding.leftAdjust, hback, hhead]
    have hsize : ¬ t.bytes.size ≤ i := Nat.not_le.mpr hi
    have hnot : ¬ k + Encoding.utf8.charLen (t.bytes.byteAt k) ≤ i := by omega
    simp [hsize, hnot]
  · -- Every byte is a character.
    have hk : k = i := by
      refine Decidable.byContradiction fun hne => ?_
      have hinside := h.inside i (by omega) hlt
      have hi : i < t.bytes.size := hi
      simp [isBoundary, he, hi] at hinside
    have hid : t.encoding.leftAdjust t.bytes i = i := by
      cases hc : t.encoding <;> first | rfl | exact absurd hc he
    rw [hid, hk]

theorem WellFormed.leftAdjust_spec (h : t.WellFormed) (hi : i ≤ t.size) :
    t.isBoundary (t.leftAdjust i) = true ∧ t.leftAdjust i ≤ i ∧
      ∀ k, t.leftAdjust i < k → k ≤ i → t.isBoundary k = false := by
  by_cases hend : i = t.size
  · subst hend
    have hadjust : t.leftAdjust t.size = t.size := by simp [leftAdjust]
    rw [hadjust]
    exact ⟨isBoundary_size, Nat.le_refl _, fun k hk hle => absurd hk (by omega)⟩
  · obtain ⟨k, n, hchar, hle, hlt⟩ := h.around (i := i) (by omega)
    have hadjust : t.leftAdjust i = k := by
      have hnot : ¬ t.atEnd i = true := by
        rw [atEnd_iff]
        omega
      rw [leftAdjust, if_neg hnot, hchar.leftAdjust_eq hle hlt]
    rw [hadjust]
    exact ⟨hchar.boundary, hle, fun j hj hji => hchar.inside j hj (by omega)⟩

theorem WellFormed.prev?_spec (h : t.WellFormed) (hpos : 0 < i) (hi : i ≤ t.size) :
    ∃ p, t.prev? i = some p ∧ t.isBoundary p = true ∧ p < i ∧
      ∀ k, p < k → k < i → t.isBoundary k = false := by
  obtain ⟨k, n, hchar, hle, hlt⟩ := h.around (i := i - 1) (by omega)
  refine ⟨k, ?_, hchar.boundary, by omega, fun j hj hji => hchar.inside j hj (by omega)⟩
  rw [prev?, Encoding.prev?, if_neg (by omega), hchar.leftAdjust_eq hle hlt]

theorem WellFormed.rightAdjust_spec (h : t.WellFormed) (hi : i ≤ t.size) :
    t.isBoundary (t.rightAdjust i) = true ∧ i ≤ t.rightAdjust i ∧ t.rightAdjust i ≤ t.size ∧
      ∀ k, i ≤ k → k < t.rightAdjust i → t.isBoundary k = false := by
  obtain ⟨hb, hle, hgap⟩ := h.leftAdjust_spec hi
  unfold rightAdjust
  dsimp only
  split
  · rename_i hlt
    obtain ⟨hnext, hsize, hinside⟩ := h.next_spec hb (by omega)
    refine ⟨hnext, ?_, hsize, fun k hk => hinside k (by omega)⟩
    refine Nat.not_lt.mp fun hbefore => ?_
    have := hgap (t.next (t.leftAdjust i)) (Subject.lt_next t _) (by omega)
    rw [hnext] at this
    cases this
  · exact ⟨hb, by omega, by omega, fun k hk => by omega⟩

end Subject
end RegexMachine
