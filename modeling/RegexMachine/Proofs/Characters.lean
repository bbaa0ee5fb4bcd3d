import RegexMachine.Proofs.Boundaries

/-!
Reading characters back: the code of a character in a text is the one it was written with.
-/
namespace RegexMachine

namespace Bytes

variable {b : Bytes} {i : Nat} {x : List UInt8}

/-- A text has some bytes from an offset on. -/
def Has (b : Bytes) (i : Nat) (x : List UInt8) : Prop := (b.slice i (i + x.length)).toList = x

theorem Has.get? (h : b.Has i x) {k : Nat} (hk : k < x.length) : b[i + k]? = some x[k] := by
  have hslice : (b.slice i (i + x.length)).toList[k]? = x[k]? := by rw [h]
  rw [slice, Array.getElem?_toList, Array.getElem?_extract, List.getElem?_eq_getElem hk] at hslice
  split at hslice
  · exact hslice
  · cases hslice

theorem Has.byteAt (h : b.Has i x) {k : Nat} (hk : k < x.length) : b.byteAt (i + k) = x[k] := by
  have := h.get? hk
  simp [Bytes.byteAt, this]

theorem has_toArray (x : List UInt8) : Has x.toArray 0 x := by
  simp [Has, slice]

end Bytes

namespace Encoding

variable {e : Encoding} {c : Nat} {x : List UInt8} {b : Bytes} {i : Nat}

theorem tail_and (n : Nat) : ((UInt8.ofNat (0x80 + n % 64)) &&& 0x3F).toNat = n % 64 := by
  have hall : ∀ k < 64, ((UInt8.ofNat (0x80 + k)) &&& 0x3F).toNat = k := by decide
  exact hall _ (Nat.mod_lt n (by omega))

theorem head2_and {a : Nat} (h : a < 32) : (UInt8.ofNat (0xC0 + a)).toNat &&& 0x7F >>> 2 = a := by
  revert a
  decide

theorem head3_and {a : Nat} (h : a < 16) : (UInt8.ofNat (0xE0 + a)).toNat &&& 0x7F >>> 3 = a := by
  revert a
  decide

theorem head4_and {a : Nat} (h : a < 8) : (UInt8.ofNat (0xF0 + a)).toNat &&& 0x7F >>> 4 = a := by
  revert a
  decide

/-- A continuation byte adds six bits. -/
theorem continued_tail {n code m : Nat} (h : b.byteAt i = UInt8.ofNat (0x80 + n % 64)) :
    continued b i code (m + 1) = continued b (i + 1) (64 * code + n % 64) m := by
  rw [continued]
  rw [h, isContinuation_tail, if_pos rfl, tail_and]

theorem encode_utf8 (h : utf8.encode c = .ok x) : c ≤ 0x10FFFF ∧ x = utf8Bytes c := by
  unfold encode at h
  dsimp only at h
  split at h
  · rename_i hc
    cases h
    exact ⟨hc.1, rfl⟩
  · cases h

theorem encode_single (he : e ≠ .utf8) (h : e.encode c = .ok x) :
    c ≤ 0xFF ∧ x = [UInt8.ofNat c] := by
  cases e with
  | utf8 => exact absurd rfl he
  | _ =>
    unfold encode at h
    dsimp only at h
    split at h
    · cases h
      exact ⟨by assumption, rfl⟩
    · cases h

theorem decode_head (h : e.charLen (b.byteAt i) = 1) {stop : Nat} :
    e.decode b i stop = (b.byteAt i).toNat := by
  rw [decode]
  rw [if_pos (by omega)]

/-- A character that takes several bytes is read from its first byte and those that continue it. -/
theorem decode_continued {n : Nat} (h : e.charLen (b.byteAt i) = n + 2) :
    e.decode b i (i + (n + 2)) =
      (continued b (i + 1) ((b.byteAt i).toNat &&& (0x7F >>> (n + 2))) (n + 1)).getD
        (b.byteAt i).toNat := by
  have hlen : min (e.charLen (b.byteAt i)) (i + (n + 2) - i) = n + 2 := by omega
  rw [decode]
  rw [hlen, if_neg (by omega)]
  rfl

theorem decode_utf8 (hc : c ≤ 0x10FFFF) (hb : b.Has i (utf8Bytes c))
    (hlen : utf8.charLen (b.byteAt i) = (utf8Bytes c).length) :
    utf8.decode b i (i + (utf8Bytes c).length) = c := by
  have hget : ∀ {k} (hk : k < (utf8Bytes c).length), b.byteAt (i + k) = (utf8Bytes c)[k] :=
    fun hk => hb.byteAt hk
  have hbytes : utf8Bytes c =
      if c < 0x80 then [UInt8.ofNat c]
      else if c < 0x800 then [UInt8.ofNat (0xC0 + c / 64), UInt8.ofNat (0x80 + c % 64)]
      else if c < 0x10000 then [UInt8.ofNat (0xE0 + c / 64 ^ 2),
        UInt8.ofNat (0x80 + c / 64 % 64), UInt8.ofNat (0x80 + c % 64)]
      else [UInt8.ofNat (0xF0 + c / 64 ^ 3), UInt8.ofNat (0x80 + c / 64 ^ 2 % 64),
        UInt8.ofNat (0x80 + c / 64 % 64), UInt8.ofNat (0x80 + c % 64)] := by
    simp [utf8Bytes]
  by_cases h1 : c < 0x80
  · rw [if_pos h1] at hbytes
    simp only [hbytes, List.length_singleton] at hget hlen ⊢
    have hhead : b.byteAt i = UInt8.ofNat c := hget (k := 0) (by omega)
    rw [decode_head hlen, hhead, toNat_ofNat (by omega)]
  rw [if_neg h1] at hbytes
  by_cases h2 : c < 0x800
  · rw [if_pos h2] at hbytes
    simp only [hbytes, List.length_cons, List.length_nil] at hget hlen ⊢
    have hhead : b.byteAt i = UInt8.ofNat (0xC0 + c / 64) := hget (k := 0) (by omega)
    have htail : b.byteAt (i + 1) = UInt8.ofNat (0x80 + c % 64) := hget (k := 1) (by omega)
    rw [decode_continued hlen, hhead, head2_and (by omega), continued_tail htail]
    simp only [continued, Option.getD_some]
    omega
  rw [if_neg h2] at hbytes
  by_cases h3 : c < 0x10000
  · rw [if_pos h3] at hbytes
    simp only [hbytes, List.length_cons, List.length_nil] at hget hlen ⊢
    have hhead : b.byteAt i = UInt8.ofNat (0xE0 + c / 64 ^ 2) := hget (k := 0) (by omega)
    have h₁ : b.byteAt (i + 1) = UInt8.ofNat (0x80 + c / 64 % 64) := hget (k := 1) (by omega)
    have h₂ : b.byteAt (i + 1 + 1) = UInt8.ofNat (0x80 + c % 64) := hget (k := 2) (by omega)
    rw [decode_continued hlen, hhead, head3_and (by omega), continued_tail h₁, continued_tail h₂]
    simp only [continued, Option.getD_some]
    omega
  rw [if_neg h3] at hbytes
  simp only [hbytes, List.length_cons, List.length_nil] at hget hlen ⊢
  have hhead : b.byteAt i = UInt8.ofNat (0xF0 + c / 64 ^ 3) := hget (k := 0) (by omega)
  have h₁ : b.byteAt (i + 1) = UInt8.ofNat (0x80 + c / 64 ^ 2 % 64) := hget (k := 1) (by omega)
  have h₂ : b.byteAt (i + 1 + 1) = UInt8.ofNat (0x80 + c / 64 % 64) := hget (k := 2) (by omega)
  have h₃ : b.byteAt (i + 1 + 1 + 1) = UInt8.ofNat (0x80 + c % 64) := hget (k := 3) (by omega)
  rw [decode_continued hlen, hhead, head4_and (by omega), continued_tail h₁, continued_tail h₂,
    continued_tail h₃]
  simp only [continued, Option.getD_some]
  omega

/-- A character reads as the code it was written with. -/
theorem decode_encode (h : e.encode c = .ok x) (hb : b.Has i x) :
    e.decode b i (i + x.length) = c := by
  obtain ⟨y, tail, rfl, hspell⟩ := spelling_encode h
  have hhead : b.byteAt i = y := hb.byteAt (k := 0) (by simp)
  have hlen : e.charLen (b.byteAt i) = (y :: tail).length := hhead ▸ hspell.length
  by_cases he : e = .utf8
  · subst he
    obtain ⟨hc, hx⟩ := encode_utf8 h
    rw [hx] at hb hlen ⊢
    exact decode_utf8 hc hb hlen
  · obtain ⟨hc, hx⟩ := encode_single he h
    obtain ⟨rfl, rfl⟩ := List.cons.inj hx
    rw [decode_head hlen, hhead, toNat_ofNat (by omega)]

end Encoding

namespace Subject

variable {t : Subject} {i n : Nat}

/-- The code of a character, its bytes, and how it is read. -/
theorem CharAt.spelled (h : t.CharAt i n) :
    ∃ c y tail, t.encoding.encode c = .ok (y :: tail) ∧ t.encoding.Spelling y tail ∧
      n = (y :: tail).length ∧ t.bytes.Has i (y :: tail) ∧ t.decode? i = some (c, n) := by
  obtain ⟨c, hc⟩ := h.code
  obtain ⟨y, tail, hx, hspell⟩ := Encoding.spelling_encode hc
  have hlen : n = (y :: tail).length := by
    have hle : i + n ≤ t.bytes.size := h.le
    rw [← hx, Bytes.slice, Array.length_toList, Array.size_extract]
    omega
  have hhas : t.bytes.Has i (y :: tail) := by
    rw [Bytes.Has, ← hlen, hx]
  refine ⟨c, y, tail, hx ▸ hc, hspell, hlen, hhas, ?_⟩
  have hi : ¬ t.atEnd i = true := by
    have := h.pos
    have := h.le
    rw [atEnd_iff]
    omega
  have hdecode := Encoding.decode_encode (hx ▸ hc) hhas
  rw [← hlen] at hdecode
  rw [decode?, if_neg hi, Encoding.decodeAt]
  rw [h.charLen, hdecode]

end Subject
end RegexMachine
