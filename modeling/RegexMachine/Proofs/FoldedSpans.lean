import Mathlib.Data.Set.Subsingleton
import RegexMachine.Proofs.Stepping

/-!
Folded comparison in texts of any bytes. A folded text matches just where whole characters fold to
it, read as the text itself has them, and a copy without regard to case just where the folds of the
two texts are the same.
-/
namespace RegexMachine

namespace Encoding

variable {e : Encoding} {b b' : Bytes} {i j k n code : Nat}

/-- Continuation bytes read alike wherever they stand. -/
theorem continued_moved (h : ∀ d < n, b'.byteAt (k + d) = b.byteAt (i + d)) :
    continued b' k code n = continued b i code n := by
  induction n generalizing k i code with
  | zero => rfl
  | succ n ih =>
    have hhead : b'.byteAt k = b.byteAt i := h 0 (by omega)
    have htail : ∀ d < n, b'.byteAt (k + 1 + d) = b.byteAt (i + 1 + d) := fun d hd => by
      have := h (d + 1) (by omega)
      rwa [Nat.add_comm d 1, ← Nat.add_assoc, ← Nat.add_assoc] at this
    rw [continued, continued]
    rw [hhead, ih htail]

theorem decode_moved (hn : 0 < n) (h : ∀ d < n, b'.byteAt (k + d) = b.byteAt (i + d)) :
    e.decode b' k (k + n) = e.decode b i (i + n) := by
  have hhead : b'.byteAt k = b.byteAt i := h 0 hn
  rw [decode, decode]
  rw [hhead, Nat.add_sub_cancel_left, Nat.add_sub_cancel_left]
  split
  · rfl
  · rw [continued_moved fun d hd => ?_]
    have := h (d + 1) (by omega)
    rwa [Nat.add_comm d 1, ← Nat.add_assoc, ← Nat.add_assoc] at this

theorem byteAt_part (hk : i + k < j) (hj : j ≤ b.size) :
    (b.slice i j).byteAt k = b.byteAt (i + k) := by
  simp only [Bytes.byteAt, Bytes.slice, Array.getD_eq_getD_getElem?, Array.getElem?_extract]
  rw [if_pos (by omega)]

/-- A character that lies in a part of a text folds there as it does in the text, also where the
text cuts it short. -/
theorem foldChar_part (hk : i + k < b.size) (hend : i + k + e.charLenAt b (i + k) ≤ j)
    (hj : j ≤ b.size) : e.foldChar (b.slice i j) k = e.foldChar b (i + k) := by
  have hpos := e.charLenAt_pos hk
  have hhead : (b.slice i j).byteAt k = b.byteAt (i + k) := byteAt_part (by omega) hj
  cases e with
  | utf8 =>
    have hsize : (b.slice i j).size = j - i := by
      rw [Bytes.slice, Array.size_extract]
      omega
    -- The part may cut the character only where the text does so itself.
    have hlen : min (utf8.charLen (b.byteAt (i + k))) (j - i - k) = utf8.charLenAt b (i + k) := by
      rw [charLenAt] at hend ⊢
      omega
    have hlen' : min (utf8.charLen (b.byteAt (i + k))) (b.size - (i + k)) =
        utf8.charLenAt b (i + k) := rfl
    have hdecode : utf8.decode (b.slice i j) k (k + utf8.charLenAt b (i + k)) =
        utf8.decode b (i + k) (i + k + utf8.charLenAt b (i + k)) :=
      decode_moved hpos fun d hd => by
        rw [byteAt_part (by omega) hj, Nat.add_assoc]
    have hslice : (b.slice i j).slice k (k + utf8.charLenAt b (i + k)) =
        b.slice (i + k) (i + k + utf8.charLenAt b (i + k)) := by
      rw [Bytes.slice, Bytes.slice, Bytes.slice, Array.extract_extract]
      congr 1
      omega
    unfold foldChar
    dsimp only
    rw [hhead, hsize, hlen, hlen', hdecode, hslice]
  | _ =>
    unfold foldChar
    dsimp only
    rw [hhead]

end Encoding

namespace Subject
open Encoding

variable {t : Subject} {folded : Bytes} {span : Span} {i j k n : Nat} {x : List UInt8}

/-- Steps by whole characters lead from one offset to another inside the text. -/
inductive StepsTo (t : Subject) : Nat → Nat → Prop
  | refl (i : Nat) : StepsTo t i i
  | step {i j : Nat} (hi : i < t.size) (h : StepsTo t (t.next i) j) : StepsTo t i j

theorem StepsTo.le (h : t.StepsTo i j) : i ≤ j := by
  induction h with
  | refl => exact Nat.le_refl _
  | @step i j _ _ ih => exact Nat.le_trans (Nat.le_of_lt (t.lt_next i)) ih

/-- Folding goes by the steps of the text. -/
theorem foldChar_step (hi : i < t.size) :
    i + max 1 (t.encoding.foldChar t.bytes i).2 = t.next i := by
  have hpos := t.encoding.charLenAt_pos (b := t.bytes) hi
  rw [next, if_neg (by simpa using hi), foldChar_snd hi, Nat.max_eq_right hpos]

theorem StepsTo.le_size (h : t.StepsTo i j) (hi : i ≤ t.size) : j ≤ t.size := by
  induction h with
  | refl => exact hi
  | step hlt _ ih => exact ih (next_le hlt)

theorem stepsTo_of_foldsTo (h : t.encoding.FoldsTo t.bytes i j x) : t.StepsTo i j := by
  induction h with
  | nil i => exact .refl i
  | cons hi _ ih => exact .step hi (foldChar_step hi ▸ ih)

/-- The rest of a part of a text folds as it does in the text, if steps lead to its end. -/
theorem StepsTo.foldsTo_part (h : t.StepsTo k j) (hk : i ≤ k) (hj : j ≤ t.size)
    (hf : t.encoding.FoldsTo (t.bytes.slice i j) (k - i) (j - i) x) :
    t.encoding.FoldsTo t.bytes k j x := by
  induction h generalizing x with
  | refl k =>
    obtain rfl := hf.unique (.nil _)
    exact .nil k
  | @step k j hlt h ih =>
    have hstep := t.lt_next k
    have hnext := h.le
    have hlen : i + (k - i) + t.encoding.charLenAt t.bytes (i + (k - i)) = t.next k := by
      rw [Nat.add_sub_cancel' hk, next, if_neg (by simpa using hlt)]
    have hsame : t.encoding.foldChar (t.bytes.slice i j) (k - i) = t.encoding.foldChar t.bytes k := by
      have := foldChar_part (e := t.encoding) (b := t.bytes) (i := i) (k := k - i) (j := j)
        (by rwa [Nat.add_sub_cancel' hk]) (by omega) hj
      rwa [Nat.add_sub_cancel' hk] at this
    have hmoved := foldChar_step hlt
    generalize hs : k - i = s at hf hsame
    generalize he : j - i = stop at hf
    cases hf with
    | nil => omega
    | cons hin hf =>
      rw [hsame] at hf ⊢
      refine .cons hlt ?_
      rw [hmoved]
      refine ih (by omega) hj ?_
      rwa [he, show t.next k - i = s + max 1 (t.encoding.foldChar t.bytes k).2 from by omega]

/-- A part of a text that ends on a character step folds to its own fold. -/
theorem StepsTo.foldsTo (h : t.StepsTo i j) :
    t.encoding.FoldsTo t.bytes i j (t.encoding.foldBytes (t.bytes.slice i j)).toList := by
  by_cases hi : i ≤ t.size
  · have hj := h.le_size hi
    have hown := foldBytes_foldsTo t.encoding (t.bytes.slice i j)
    rw [size_slice hj, ← Nat.sub_self i] at hown
    exact h.foldsTo_part (Nat.le_refl i) hj hown
  · cases h with
    | refl =>
      have hempty : t.bytes.slice i i = #[] := Array.extract_empty_of_stop_le_start (Nat.le_refl i)
      rw [hempty, foldBytes, foldFrom]
      exact .nil i
    | step hlt => omega

theorem foldedLength?_eq_some_iff : t.foldedLength? i folded = some n ↔
    t.StepsTo i (i + n) ∧ t.encoding.foldBytes (t.bytes.slice i (i + n)) = folded := by
  constructor
  · intro h
    have hfolds := foldedLength?_foldsTo h
    have hsteps := stepsTo_of_foldsTo hfolds
    exact ⟨hsteps, Array.toList_inj.mp (hsteps.foldsTo.unique hfolds)⟩
  · rintro ⟨hsteps, rfl⟩
    rw [foldedLength?, foldedEnd?_of_foldsTo (Nat.zero_le _) hsteps.foldsTo, Option.map_some,
      Nat.add_sub_cancel_left]

theorem part?_eq_some_iff {text : Bytes} : t.part? span = some text ↔
    span.start ≤ span.stop ∧ span.stop ≤ t.size ∧ t.bytes.slice span.start span.stop = text := by
  unfold part?
  split
  · rename_i h
    simp only [Bool.and_eq_true, decide_eq_true_eq] at h
    simp [h]
  · rename_i h
    simp only [Bool.and_eq_true, decide_eq_true_eq] at h
    simp only [reduceCtorEq, false_iff]
    exact fun hspan => h ⟨hspan.1, hspan.2.1⟩

theorem copyLength?_folded_iff : t.copyLength? i span true = some n ↔
    span.start ≤ span.stop ∧ span.stop ≤ t.size ∧ t.StepsTo i (i + n) ∧
      t.encoding.foldBytes (t.bytes.slice i (i + n)) =
        t.encoding.foldBytes (t.bytes.slice span.start span.stop) := by
  simp only [copyLength?, Option.bind_eq_some_iff, part?_eq_some_iff, ↓reduceIte,
    foldedLength?_eq_some_iff]
  constructor
  · rintro ⟨text, ⟨hle, hsize, rfl⟩, hmatch⟩
    exact ⟨hle, hsize, hmatch⟩
  · rintro ⟨hle, hsize, hmatch⟩
    exact ⟨_, ⟨hle, hsize, rfl⟩, hmatch⟩

/-- Folded comparison matches just the whole characters that fold to what is asked for, so there is
one length at most; without regard to case a captured text matches just the texts that fold alike,
its own copies among them. -/
theorem folded_comparison_exact (t : Subject) (i : Nat) :
    (∀ folded n, t.foldedLength? i folded = some n ↔
      t.StepsTo i (i + n) ∧ t.encoding.foldBytes (t.bytes.slice i (i + n)) = folded) ∧
    (∀ folded, {n | t.StepsTo i (i + n) ∧
      t.encoding.foldBytes (t.bytes.slice i (i + n)) = folded}.Subsingleton) ∧
    ∀ span : Span, span.start ≤ span.stop → span.stop ≤ t.size →
      (∀ n, t.copyLength? i span true = some n ↔ t.StepsTo i (i + n) ∧
        t.encoding.foldBytes (t.bytes.slice i (i + n)) =
          t.encoding.foldBytes (t.bytes.slice span.start span.stop)) ∧
      ∀ n, t.bytes.slice i (i + n) = t.bytes.slice span.start span.stop → t.StepsTo i (i + n) →
        t.copyLength? i span true = some n := by
  refine ⟨fun _ _ => foldedLength?_eq_some_iff, fun folded m hm n hn => ?_,
    fun span hspan hstop => ⟨fun n => ?_, fun n hcopy hsteps => ?_⟩⟩
  · have hfirst := foldedLength?_eq_some_iff.mpr hm
    have hsecond := foldedLength?_eq_some_iff.mpr hn
    exact Option.some.inj (hfirst.symm.trans hsecond)
  · rw [copyLength?_folded_iff]
    exact ⟨fun h => h.2.2, fun h => ⟨hspan, hstop, h⟩⟩
  · exact copyLength?_folded_iff.mpr ⟨hspan, hstop, hsteps, by rw [hcopy]⟩

/-- In `ßSsßÃ`, whose last character is cut short, the first character matches the two letters after
it and its own copy, and the bytes cut short match themselves. -/
theorem folded_comparison_eszett :
    let t : Subject := ⟨#[0xC3, 0x9F, 0x53, 0x73, 0xC3, 0x9F, 0xC3], .utf8, false, false⟩
    t.copyLength? 2 ⟨0, 2⟩ true = some 2 ∧ t.copyLength? 4 ⟨0, 2⟩ true = some 2 ∧
      t.copyLength? 6 ⟨6, 7⟩ true = some 1 := by
  intro t
  have letters : t.StepsTo 2 4 := .step (by decide) (.step (by decide) (.refl 4))
  have eszett : t.StepsTo 4 6 := .step (by decide) (.refl 6)
  have short : t.StepsTo 6 7 := .step (by decide) (.refl 7)
  refine ⟨?_, ?_, ?_⟩
  · refine (((folded_comparison_exact t 2).2.2 ⟨0, 2⟩ (by decide) (by decide)).1 2).mpr ⟨letters, ?_⟩
    decide +kernel
  · exact ((folded_comparison_exact t 4).2.2 ⟨0, 2⟩ (by decide) (by decide)).2 2 (by decide) eszett
  · exact ((folded_comparison_exact t 6).2.2 ⟨6, 7⟩ (by decide) (by decide)).2 1 (by decide) short

end Subject
end RegexMachine
