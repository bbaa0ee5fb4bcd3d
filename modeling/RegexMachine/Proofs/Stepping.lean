import Mathlib.Logic.Function.Iterate
import Mathlib.Order.Bounds.Defs
import RegexMachine.Proofs.LiteralSpans

/-!
Steps through texts in UTF-8. Where a text spells some characters, steps forward go from one
character to the next, steps back undo them, and every offset is moved to the character it lies in.
Through a text of any bytes steps still go on and back by at least one byte.
-/
namespace RegexMachine

namespace Encoding

/-- Bytes of some characters one after the other. -/
def spelled (cs : List Char) : List UInt8 := cs.flatMap fun c => utf8Bytes c.toNat

/-- Offset at which the character with a given index begins. -/
def place (cs : List Char) (k : Nat) : Nat := (spelled (cs.take k)).length

example : (List.range 5).map (place ['a', 'é', '€', '😀']) = [0, 1, 3, 6, 10] := by decide

variable {cs : List Char} {b : Bytes} {i k : Nat}

theorem encode_char (c : Char) : utf8.encode c.toNat = .ok (utf8Bytes c.toNat) := by
  have hvalid : c.toNat < 0xD800 ∨ 0xDFFF < c.toNat ∧ c.toNat < 0x110000 := c.valid
  rw [encode]
  rw [if_pos (by omega)]

theorem encodeAll_spelled (cs : List Char) :
    utf8.encodeAll (cs.map Char.toNat) = some (spelled cs) := by
  induction cs with
  | nil => rfl
  | cons c cs ih =>
    rw [List.map_cons, encodeAll, encode_char, ih]
    rfl

theorem spelled_append (cs ds : List Char) : spelled (cs ++ ds) = spelled cs ++ spelled ds :=
  List.flatMap_append

theorem spells_spelled (cs : List Char) : utf8.Spells (spelled cs) := by
  induction cs with
  | nil => exact .nil
  | cons c cs ih => exact .cons (encode_char c) ih

theorem place_zero (cs : List Char) : place cs 0 = 0 := rfl

theorem place_length (cs : List Char) : place cs cs.length = (spelled cs).length := by
  rw [place, List.take_length]

theorem place_succ (hk : k < cs.length) :
    place cs (k + 1) = place cs k + (utf8Bytes cs[k].toNat).length := by
  rw [place, place, List.take_succ_eq_append_getElem hk, spelled_append, List.length_append]
  simp [spelled]

theorem spelled_at (hk : k < cs.length) :
    spelled cs = spelled (cs.take k) ++ (utf8Bytes cs[k].toNat ++ spelled (cs.drop (k + 1))) := by
  conv_lhs => rw [← List.take_append_drop k cs, List.drop_eq_getElem_cons hk]
  rw [spelled_append]
  rfl

/-- Every byte belongs to a character. -/
theorem exists_place (hi : i < (spelled cs).length) :
    ∃ k, ∃ _ : k < cs.length, place cs k ≤ i ∧ i < place cs (k + 1) := by
  rw [← place_length] at hi
  have hupto : ∀ n ≤ cs.length, i < place cs n →
      ∃ k, ∃ _ : k < cs.length, place cs k ≤ i ∧ i < place cs (k + 1) := by
    intro n
    induction n with
    | zero => exact fun _ h => absurd h (Nat.not_lt_zero i)
    | succ n ih =>
      intro hn hlt
      by_cases hbefore : i < place cs n
      · exact ih (by omega) hbefore
      · exact ⟨n, by omega, by omega, hlt⟩
  exact hupto cs.length (Nat.le_refl _) hi

/-- An offset that was moved to a character stays there. -/
theorem leftAdjust_leftAdjust (e : Encoding) (b : Bytes) (i : Nat) :
    e.leftAdjust b (e.leftAdjust b i) = e.leftAdjust b i := by
  cases e with
  | utf8 =>
    have hle := backToHead_le b (i - 3) i
    generalize hp : backToHead b (i - 3) i = p at hle
    by_cases hend : b.size ≤ i
    · simp [leftAdjust, hend]
    by_cases hstay : isContinuation (b.byteAt p) || p + utf8.charLen (b.byteAt p) ≤ i
    · have hself : utf8.leftAdjust b i = i := by
        rw [leftAdjust]
        simp only [if_neg hend, hp, if_pos hstay]
      rw [hself, hself]
    · have hmoved : utf8.leftAdjust b i = p := by
        rw [leftAdjust]
        simp only [if_neg hend, hp, if_neg hstay]
      have hhead : isContinuation (b.byteAt p) = false := by
        simp only [Bool.or_eq_true, not_or, Bool.not_eq_true] at hstay
        exact hstay.1
      have hback : backToHead b (p - 3) p = p :=
        Subject.backToHead_eq (Nat.sub_le p 3) hhead p (Nat.le_refl p) fun j _ _ => by omega
      have hpos := utf8.charLen_pos (b.byteAt p)
      rw [hmoved, leftAdjust]
      simp only [hback, hhead]
      rw [if_neg (by omega), if_neg (by simp; omega)]
  | _ => rfl

end Encoding

namespace Subject
open Encoding

variable {t : Subject} {cs : List Char} {i k : Nat}

/-- A text spells some characters, and steps go from one of them to the next. -/
structure Walks (t : Subject) (cs : List Char) : Prop where
  spells : t.encoding.encodeAll (cs.map Char.toNat) = some t.bytes.toList
  visits : ∀ k ≤ cs.length, t.next^[k] 0 = place cs k
  ends : place cs cs.length = t.size
  reads : ∀ k (hk : k < cs.length), ∃ x, t.encoding.encode cs[k].toNat = .ok x ∧
    t.encoding.decodeAt t.bytes (place cs k) = (cs[k].toNat, x.length)
  adjusts : ∀ i < t.size,
    IsGreatest {p | p ≤ i ∧ ∃ k < cs.length, p = place cs k} (t.encoding.leftAdjust t.bytes i)
  returns : ∀ k ≤ cs.length, t.prev? (t.next (place cs k)) = some (place cs k)

/-- The character with a given index. -/
theorem charAt_place (he : t.encoding = .utf8) (ht : t.bytes.toList = spelled cs)
    (hk : k < cs.length) :
    t.CharAt (place cs k) (utf8Bytes cs[k].toNat).length ∧
      t.encoding.decodeAt t.bytes (place cs k) = (cs[k].toNat, (utf8Bytes cs[k].toNat).length) := by
  have hwell : t.WellFormed := by
    rw [WellFormed, he, ht]
    exact spells_spelled cs
  have hat := ht.trans (spelled_at hk)
  have hhas : t.bytes.Has (place cs k) (utf8Bytes cs[k].toNat) := by
    have hwhole : t.bytes.Has 0 t.bytes.toList := by
      simpa using Bytes.has_toArray t.bytes.toList
    rw [hat, Bytes.has_append, Bytes.has_append, Nat.zero_add] at hwhole
    exact hwhole.2.1
  have hread : t.encoding.decodeAt t.bytes (place cs k) =
      (cs[k].toNat, (utf8Bytes cs[k].toNat).length) :=
    decodeAt_encode (he ▸ encode_char cs[k]) hhas
  have hbound : t.isBoundary (place cs k) = true :=
    isBoundary_of_spells hat (he ▸ .cons (encode_char cs[k]) (spells_spelled _))
  have hin : place cs k < t.size := by
    obtain ⟨y, tail, hx, -⟩ := spelling_encode (encode_char cs[k])
    have := hhas.le (hx ▸ List.cons_ne_nil y tail)
    rw [hx, List.length_cons] at this
    exact Nat.lt_of_lt_of_le (by omega) this
  have hlen : t.encoding.charLenAt t.bytes (place cs k) = (utf8Bytes cs[k].toNat).length :=
    congrArg Prod.snd hread
  exact ⟨hlen ▸ hwell.charAt hbound hin, hread⟩

theorem next_place (he : t.encoding = .utf8) (ht : t.bytes.toList = spelled cs)
    (hk : k < cs.length) : t.next (place cs k) = place cs (k + 1) := by
  rw [(charAt_place he ht hk).1.next_eq, place_succ hk]

/-- An offset in a character is moved to where the character begins. -/
theorem leftAdjust_place (he : t.encoding = .utf8) (ht : t.bytes.toList = spelled cs)
    (hk : k < cs.length) (hle : place cs k ≤ i) (hlt : i < place cs (k + 1)) :
    t.encoding.leftAdjust t.bytes i = place cs k :=
  (charAt_place he ht hk).1.leftAdjust_eq hle (place_succ hk ▸ hlt)

theorem place_lt (hk : k < cs.length) : place cs k < place cs (k + 1) := by
  obtain ⟨y, tail, hx, -⟩ := spelling_encode (encode_char cs[k])
  rw [place_succ hk, hx, List.length_cons]
  omega

theorem place_mono {l : Nat} (hkl : k ≤ l) (hl : l ≤ cs.length) : place cs k ≤ place cs l := by
  induction hkl with
  | refl => exact Nat.le_refl _
  | step _ ih => exact Nat.le_trans (ih (by omega)) (Nat.le_of_lt (place_lt hl))

theorem walks_spelled (he : t.encoding = .utf8) (ht : t.bytes.toList = spelled cs) :
    t.Walks cs := by
  have hsize : place cs cs.length = t.size := by
    rw [place_length, ← ht, Array.length_toList, size]
  refine ⟨?_, ?_, hsize, ?_, ?_, ?_⟩
  case refine_1 => rw [he, ht, encodeAll_spelled]
  case refine_2 =>
    intro k hk
    induction k with
    | zero => rfl
    | succ k ih => rw [Function.iterate_succ_apply', ih (by omega), next_place he ht hk]
  case refine_3 =>
    exact fun k hk => ⟨_, he ▸ encode_char cs[k], (charAt_place he ht hk).2⟩
  case refine_4 =>
    intro i hi
    obtain ⟨k, hk, hle, hlt⟩ := @exists_place cs i (by rw [← place_length]; omega)
    rw [leftAdjust_place he ht hk hle hlt]
    refine ⟨⟨hle, k, hk, rfl⟩, ?_⟩
    rintro p ⟨hp, l, hl, rfl⟩
    refine place_mono (Nat.le_of_lt_succ (Nat.not_le.mp fun hafter => ?_)) (by omega)
    have : place cs (k + 1) ≤ place cs l := place_mono hafter (by omega)
    omega
  case refine_5 =>
    intro k hk
    rcases Nat.lt_or_eq_of_le hk with hk | rfl
    · have hlt := place_lt hk
      rw [next_place he ht hk, prev?, Encoding.prev?, if_neg (by omega),
        leftAdjust_place he ht hk (by omega) (by omega)]
    · have hend : t.atEnd t.size = true := by simp
      have hstay : utf8.leftAdjust t.bytes t.size = t.size := by simp [Encoding.leftAdjust, size]
      rw [hsize, next, if_pos hend, prev?, Encoding.prev?, if_neg (by omega), he,
        Nat.add_sub_cancel, hstay]

theorem next_le (hi : i < t.size) : t.next i ≤ t.size := by
  have hsize : t.size = t.bytes.size := rfl
  rw [next, if_neg (by simpa using hi), charLenAt]
  omega

/-- Steps never stall, whatever the bytes are. -/
structure Strides (t : Subject) : Prop where
  forward : ∀ i, i < t.next i
  inside : ∀ i ≤ t.size, t.next i ≤ t.size + 1
  back : ∀ i, 0 < i → ∃ p < i, t.prev? i = some p
  settled : ∀ i, t.encoding.leftAdjust t.bytes (t.encoding.leftAdjust t.bytes i) =
    t.encoding.leftAdjust t.bytes i

theorem strides (t : Subject) : t.Strides where
  forward := t.lt_next
  inside i hi := by
    rcases Nat.lt_or_eq_of_le hi with hi | rfl
    · exact Nat.le_succ_of_le (next_le hi)
    · have hend : t.atEnd t.size = true := by simp
      exact Nat.le_of_eq (by rw [next, if_pos hend])
  back i hi := by
    have hsome : t.prev? i = some (t.encoding.leftAdjust t.bytes (i - 1)) := by
      rw [prev?, Encoding.prev?, if_neg (by omega)]
    exact ⟨_, prev?_lt hsome, hsome⟩
  settled := t.encoding.leftAdjust_leftAdjust t.bytes

/-- Steps through a text in UTF-8 visit the characters that it spells, one after the other, and a
text of any bytes is left after finitely many of them. -/
theorem utf8_stepping (o : SearchOptions) :
    (∀ cs, (ofBytes (spelled cs).toArray .utf8 o).Walks cs) ∧
      ∀ b, (ofBytes b .utf8 o).Strides :=
  ⟨fun _ => walks_spelled rfl rfl, fun _ => strides _⟩

end Subject
end RegexMachine
