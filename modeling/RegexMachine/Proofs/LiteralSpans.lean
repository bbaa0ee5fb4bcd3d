import RegexMachine.Proofs.Folds

/-!
Places where a text stands. A text matches where its bytes are, and a folded text just the whole
characters that fold to it themselves.
-/
namespace RegexMachine

namespace Bytes

variable {b lit : Bytes} {i j k n : Nat} {x y : List UInt8}

theorem has_iff : b.Has i x ↔ ∀ k < x.length, b[i + k]? = x[k]? := by
  constructor
  · intro h k hk
    rw [h.get? hk, List.getElem?_eq_getElem hk]
  · intro h
    refine List.ext_getElem? fun k => ?_
    rw [slice, Array.getElem?_toList, Array.getElem?_extract]
    by_cases hk : k < x.length
    · have hbyte := h k hk
      rw [List.getElem?_eq_getElem hk] at hbyte
      have hin : i + k < b.size := (Array.getElem?_eq_some_iff.mp hbyte).1
      rw [if_pos (by omega), hbyte, List.getElem?_eq_getElem hk]
    · rw [if_neg (by omega), List.getElem?_eq_none (by omega)]

theorem has_nil (b : Bytes) (i : Nat) : b.Has i [] := has_iff.mpr nofun

theorem has_append : b.Has i (x ++ y) ↔ b.Has i x ∧ b.Has (i + x.length) y := by
  simp only [has_iff, List.length_append]
  constructor
  · intro h
    refine ⟨fun k hk => ?_, fun k hk => ?_⟩
    · rw [h k (by omega), List.getElem?_append_left hk]
    · rw [Nat.add_assoc, h (x.length + k) (by omega), List.getElem?_append_right (by omega),
        Nat.add_sub_cancel_left]
  · rintro ⟨hx, hy⟩ k hk
    by_cases hlt : k < x.length
    · rw [hx k hlt, List.getElem?_append_left hlt]
    · have hrest := hy (k - x.length) (by omega)
      rw [show i + x.length + (k - x.length) = i + k from by omega] at hrest
      rw [hrest, List.getElem?_append_right (by omega)]

theorem Has.le (h : b.Has i x) (hx : x ≠ []) : i + x.length ≤ b.size := by
  have hpos := List.length_pos_of_ne_nil hx
  have hlast := h.get? (k := x.length - 1) (by omega)
  have := (Array.getElem?_eq_some_iff.mp hlast).1
  omega

theorem agree_iff :
    b.agree lit i k n = true ↔ ∀ d < n, ∃ x, b[i + d]? = some x ∧ lit[k + d]? = some x := by
  induction n generalizing i k with
  | zero => exact ⟨fun _ _ h => absurd h (Nat.not_lt_zero _), fun _ => rfl⟩
  | succ n ih =>
    rw [agree]
    constructor
    · intro h d hd
      split at h
      · rename_i x y hx hy
        simp only [Bool.and_eq_true, beq_iff_eq] at h
        cases d with
        | zero => exact ⟨x, hx, h.1 ▸ hy⟩
        | succ d =>
          obtain ⟨z, hz, hz'⟩ := ih.mp h.2 d (by omega)
          exact ⟨z, by rwa [Nat.add_right_comm] at hz, by rwa [Nat.add_right_comm] at hz'⟩
      · cases h
    · intro h
      obtain ⟨x, hx, hx'⟩ := h 0 (by omega)
      rw [Nat.add_zero] at hx hx'
      rw [hx, hx']
      simp only [beq_self_eq_true, Bool.true_and]
      refine ih.mpr fun d hd => ?_
      obtain ⟨z, hz, hz'⟩ := h (d + 1) (by omega)
      exact ⟨z, by rwa [Nat.add_right_comm], by rwa [Nat.add_right_comm]⟩

/-- A text stands at an offset if it is there byte by byte. -/
theorem startsAt_iff : b.startsAt i lit = true ↔ b.Has i lit.toList := by
  rw [startsAt, agree_iff, has_iff, Array.length_toList]
  refine forall₂_congr fun d hd => ?_
  rw [Nat.zero_add, Array.getElem?_toList]
  constructor
  · rintro ⟨x, hx, hx'⟩
    rw [hx, hx']
  · intro h
    exact ⟨lit[d], by rw [h, Array.getElem?_eq_getElem hd], Array.getElem?_eq_getElem hd⟩

end Bytes

namespace Encoding

variable {e : Encoding} {b : Bytes} {c i j : Nat} {x y : List UInt8}

/-- A character that was written is read with its length. -/
theorem decodeAt_encode (hc : e.encode c = .ok x) (h : b.Has i x) :
    e.decodeAt b i = (c, x.length) := by
  obtain ⟨y, tail, rfl, hspell⟩ := spelling_encode hc
  have hle := h.le (List.cons_ne_nil y tail)
  have hhead : b.byteAt i = y := h.byteAt (k := 0) (by simp)
  have hlen : e.charLenAt b i = (y :: tail).length := by
    rw [charLenAt, hhead, hspell.length]
    simp only [List.length_cons] at hle ⊢
    omega
  rw [decodeAt, hlen]
  rw [decode_encode hc h]

/-- A character folds alike wherever it stands. -/
theorem foldChar_written (hc : e.encode c = .ok x) (h : b.Has i x)
    (hlen : e.charLenAt b i = x.length) : e.foldChar b i = e.foldChar x.toArray 0 := by
  have hpos : 0 < x.length := by
    obtain ⟨y, tail, rfl, -⟩ := spelling_encode hc
    simp
  have hhead : b.byteAt i = Bytes.byteAt x.toArray 0 :=
    (h.byteAt (k := 0) hpos).trans ((Bytes.has_toArray x).byteAt (k := 0) hpos).symm
  cases e with
  | utf8 =>
    have hspell : utf8.charLen (Bytes.byteAt x.toArray 0) = x.length := by
      obtain ⟨y, tail, rfl, hspell⟩ := spelling_encode hc
      exact hspell.length
    have hhere : utf8.decode b i (i + x.length) = c := decode_encode hc h
    have hthere : utf8.decode x.toArray 0 (0 + x.length) = c :=
      decode_encode hc (Bytes.has_toArray x)
    have hslice : (Bytes.slice x.toArray 0 (0 + x.length)).toList = x := Bytes.has_toArray x
    rw [charLenAt, hhead, hspell] at hlen
    unfold foldChar
    dsimp only
    rw [hhead, hspell, hlen, List.size_toArray, Nat.sub_zero, Nat.min_self, hhere, hthere, h,
      hslice]
  | _ =>
    unfold foldChar
    dsimp only
    rw [hhead]

/-- A text begins with a byte that begins a character. -/
theorem Spells.head {y : UInt8} (h : utf8.Spells x) (hy : x[0]? = some y) :
    isContinuation y = false := by
  cases h with
  | nil => cases hy
  | cons hc _ =>
    obtain ⟨z, tail, rfl, hspell⟩ := spelling_encode hc
    cases hy
    exact hspell.head rfl

/-- What a stretch of a text folds to is settled by where it begins and ends. -/
theorem FoldsTo.unique (hx : e.FoldsTo b i j x) (hy : e.FoldsTo b i j y) : x = y := by
  induction hx generalizing y with
  | nil i =>
    generalize hj : i = j at hy
    cases hy with
    | nil => rfl
    | cons hi h =>
      have := h.le
      omega
  | cons hi h ih =>
    cases hy with
    | nil =>
      have := h.le
      omega
    | cons _ h' => rw [ih h']

end Encoding

namespace Subject

variable {t : Subject} {folded : Bytes} {i j k l n done : Nat} {x : List UInt8}

theorem agreesFrom_of_drop {f rest : List UInt8} (h : folded.toList.drop done = f ++ rest) :
    agreesFrom folded done f = true := by
  induction f generalizing done with
  | nil => rfl
  | cons y f ih =>
    have hget : folded[done]? = some y := by
      rw [← Array.getElem?_toList, ← Nat.add_zero done, ← List.getElem?_drop, h]
      rfl
    have htail : folded.toList.drop (done + 1) = f ++ rest := by
      rw [← List.tail_drop, h]
      rfl
    rw [agreesFrom, hget]
    simp [ih htail]

/-- A text that folds to what is left of `folded` is found to its end. -/
theorem foldedEnd?_of_foldsTo (hdone : done ≤ folded.size)
    (h : t.encoding.FoldsTo t.bytes i j (folded.toList.drop done)) :
    t.foldedEnd? folded i done = some j := by
  generalize hx : folded.toList.drop done = x at h
  induction h generalizing done with
  | nil i =>
    have hend : folded.size ≤ done := by
      have := congrArg List.length hx
      simp only [List.length_drop, Array.length_toList, List.length_nil] at this
      omega
    rw [foldedEnd?, if_pos hend, if_pos (by omega)]
  | @cons i j x hi h ih =>
    have hlength := congrArg List.length hx
    simp only [List.length_drop, Array.length_toList, List.length_append] at hlength
    have hfull := List.length_pos_of_ne_nil (Encoding.foldChar_ne_nil t.encoding hi)
    have hrest : folded.toList.drop (done + (t.encoding.foldChar t.bytes i).1.length) = x := by
      rw [← List.drop_drop, hx, List.drop_left]
    have hin : i < t.size := hi
    rw [foldedEnd?, if_neg (by omega), dif_pos hin]
    dsimp only
    rw [if_pos (agreesFrom_of_drop hx)]
    exact ih (by omega) hrest

/-- A character that begins before a boundary ends there or before. -/
theorem CharAt.le_of_boundary (h : t.CharAt i n) (hj : t.isBoundary j = true) (hlt : i < j) :
    i + n ≤ j := by
  refine Nat.not_lt.mp fun hcut => ?_
  rw [h.inside j hlt hcut] at hj
  cases hj

theorem le_of_isBoundary (h : t.isBoundary i = true) : i ≤ t.size := by
  have hsize : t.size = t.bytes.size := rfl
  unfold isBoundary at h
  split at h
  · rename_i hb
    have := (Array.getElem?_eq_some_iff.mp hb).1
    omega
  · exact Nat.le_of_eq (eq_of_beq h)

theorem WellFormed.isBoundary_zero (h : t.WellFormed) : t.isBoundary 0 = true :=
  have hwhole : t.bytes.toList = [] ++ t.bytes.toList := rfl
  isBoundary_of_spells hwhole h

theorem size_slice (hj : j ≤ t.size) : (t.bytes.slice i j).size = j - i := by
  have hsize : t.size = t.bytes.size := rfl
  rw [Bytes.slice, Array.size_extract]
  omega

/-- A character folds in a part of a text as it does in the text. -/
theorem CharAt.foldChar_slice (h : t.CharAt (i + k) n) (hn : i + k + n ≤ j) (hj : j ≤ t.size) :
    t.encoding.foldChar (t.bytes.slice i j) k = t.encoding.foldChar t.bytes (i + k) := by
  obtain ⟨c, y, tail, hc, hspell, hlength, hhas, -⟩ := h.spelled
  have hpart : Bytes.Has (t.bytes.slice i j) k (y :: tail) := by
    have hsame : (t.bytes.slice i j).slice k (k + (y :: tail).length) =
        t.bytes.slice (i + k) (i + k + (y :: tail).length) := by
      rw [Bytes.slice, Bytes.slice, Bytes.slice, Array.extract_extract]
      congr 1
      omega
    rw [Bytes.Has, hsame]
    exact hhas
  have hpartLen : t.encoding.charLenAt (t.bytes.slice i j) k = (y :: tail).length := by
    have hhead : (t.bytes.slice i j).byteAt k = y := hpart.byteAt (k := 0) (by simp)
    rw [Encoding.charLenAt, hhead, size_slice hj, hspell.length, List.length_cons]
    simp only [List.length_cons] at hlength
    omega
  exact (Encoding.foldChar_written hc hpart hpartLen).trans
    (Encoding.foldChar_written hc hhas (h.charLen.trans hlength)).symm

theorem CharAt.foldChar_next (h : t.CharAt i n) :
    i + max 1 (t.encoding.foldChar t.bytes i).2 = i + n := by
  have hin : i < t.bytes.size := Nat.lt_of_lt_of_le (Nat.lt_add_of_pos_right h.pos) h.le
  rw [Encoding.foldChar_snd hin, h.charLen, Nat.max_eq_right h.pos]

theorem WellFormed.foldsTo_boundary (h : t.WellFormed) (hb : t.isBoundary i = true)
    (hf : t.encoding.FoldsTo t.bytes i j x) : t.isBoundary j = true := by
  induction hf with
  | nil => exact hb
  | @cons i j x hi _ ih =>
    have hchar := h.charAt hb hi
    refine ih ?_
    rw [hchar.foldChar_next]
    exact hchar.next

/-- Characters of a part of a text fold as they do in the text. -/
theorem WellFormed.foldsTo_slice (h : t.WellFormed) (hj : t.isBoundary j = true)
    (hsize : j ≤ t.size) (hb : t.isBoundary (i + k) = true) (hk : i + k ≤ j)
    (hf : t.encoding.FoldsTo (t.bytes.slice i j) k (j - i) x) :
    t.encoding.FoldsTo t.bytes (i + k) j x := by
  generalize hl : j - i = l at hf
  induction hf with
  | nil k =>
    obtain rfl : j = i + k := by omega
    exact .nil _
  | @cons k l x hlt _ ih =>
    rw [size_slice hsize] at hlt
    have hin : i + k < t.size := by omega
    have hchar := h.charAt hb hin
    have hstop := hchar.le_of_boundary hj (by omega)
    have hnext := hchar.foldChar_next
    rw [hchar.foldChar_slice hstop hsize] at ih ⊢
    rw [← Nat.add_assoc, hnext] at ih
    refine .cons hin ?_
    rw [hnext]
    exact ih hchar.next hstop hl

/-- A part of a text between characters folds to its own fold. -/
theorem WellFormed.foldsTo_foldBytes (h : t.WellFormed) (hi : t.isBoundary i = true)
    (hj : t.isBoundary j = true) (hle : i ≤ j) (hsize : j ≤ t.size) :
    t.encoding.FoldsTo t.bytes i j (t.encoding.foldBytes (t.bytes.slice i j)).toList := by
  have hown := Encoding.foldBytes_foldsTo t.encoding (t.bytes.slice i j)
  rw [size_slice hsize] at hown
  exact h.foldsTo_slice (k := 0) hj hsize hi hle hown

/-- Whole characters that fold to what a text folds to. -/
structure FoldsAlike (t : Subject) (text : Bytes) (i n : Nat) : Prop where
  begins : t.isBoundary i = true
  ends : t.isBoundary (i + n) = true
  folds : t.encoding.foldBytes (t.bytes.slice i (i + n)) = t.encoding.foldBytes text

/-- A folded text matches just the whole characters that fold alike. -/
theorem WellFormed.foldedLength?_iff (h : t.WellFormed) (hb : t.isBoundary i = true)
    {text : Bytes} :
    t.foldedLength? i (t.encoding.foldBytes text) = some n ↔ t.FoldsAlike text i n := by
  constructor
  · intro hn
    have hfolds := foldedLength?_foldsTo hn
    have hbound := h.foldsTo_boundary hb hfolds
    have hown := h.foldsTo_foldBytes hb hbound (Nat.le_add_right i n) (le_of_isBoundary hbound)
    exact ⟨hb, hbound, Array.toList_inj.mp (hown.unique hfolds)⟩
  · rintro ⟨-, hbound, halike⟩
    have hown := h.foldsTo_foldBytes hb hbound (Nat.le_add_right i n) (le_of_isBoundary hbound)
    rw [halike] at hown
    rw [foldedLength?, foldedEnd?_of_foldsTo (Nat.zero_le _) hown, Option.map_some,
      Nat.add_sub_cancel_left]

theorem textLength?_iff {text : Bytes} :
    t.textLength? i text = some n ↔ n = text.size ∧ t.bytes.Has i text.toList := by
  rw [← Bytes.startsAt_iff]
  constructor
  · intro h
    exact ⟨(textLength?_eq h).2, (textLength?_eq h).1⟩
  · rintro ⟨rfl, h⟩
    rw [textLength?, if_pos h]

/-- A text stands only where a character begins. -/
theorem isBoundary_of_has (hx : Encoding.utf8.Spells x) (hne : x ≠ []) (h : t.bytes.Has i x) :
    t.isBoundary i = true := by
  have hpos := List.length_pos_of_ne_nil hne
  have hle := h.le hne
  have hsize : t.size = t.bytes.size := rfl
  refine isBoundary_of_byte (by omega) fun _ => ?_
  have hbyte : t.bytes.byteAt i = x[0] := h.byteAt (k := 0) hpos
  rw [hbyte]
  exact hx.head (List.getElem?_eq_getElem hpos)

end Subject
end RegexMachine
