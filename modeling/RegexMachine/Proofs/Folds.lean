import RegexMachine.Compile.Hints
import RegexMachine.Proofs.Characters
import RegexMachine.Proofs.Lengths

/-!
What characters fold to. Every fold that a text is compared by is among those that the tables report,
so the characters that a folded text may begin with can be told from its first character.
-/
namespace RegexMachine

namespace Unicode

/-! ## The tables -/

theorem lookup_mem {t : Array (Nat × Nat)} {c base size v : Nat}
    (h : lookup t c base size = some v) : (c, v) ∈ t := by
  induction size using Nat.strongRecOn generalizing base with
  | _ size ih =>
    rw [lookup] at h
    split at h
    · split at h
      · rename_i k w hget
        split at h
        · rename_i hk
          cases h
          obtain rfl : k = c := by simpa using hk
          exact Array.mem_of_getElem? hget
        · cases h
      · cases h
    · exact ih _ (by omega) h

theorem mem_foldClasses {k : FoldClass} :
    k ∈ foldClasses ↔ k ∈ PairRun.all.flatMap PairRun.classes ++ wideClasses :=
  List.mem_mergeSort

theorem target_mem {k : FoldClass} (h : k ∈ foldClasses) : k.target ∈ k.members := by
  rw [mem_foldClasses] at h
  rcases List.mem_append.mp h with h | h
  · obtain ⟨r, -, hr⟩ := List.mem_flatMap.mp h
    obtain ⟨i, -, rfl⟩ := List.mem_map.mp hr
    dsimp only
    split <;> simp
  · have hall : ∀ k ∈ wideClasses, k.target ∈ k.members := by decide
    exact hall k h

/-- A code that folds to another one is in a class with it. -/
theorem foldTarget_class {c : Nat} (h : foldTarget c ≠ c) :
    ∃ k ∈ foldClasses, c ∈ k.members ∧ k.target = foldTarget c := by
  unfold foldTarget at h ⊢
  cases hl : lookup foldPairs c 0 foldPairs.size with
  | none =>
    rw [hl] at h
    exact absurd rfl h
  | some t =>
    have hmem := lookup_mem hl
    rw [foldPairs, List.mem_toArray, List.mem_mergeSort] at hmem
    obtain ⟨k, hk, hpair⟩ := List.mem_flatMap.mp hmem
    obtain ⟨m, hm, heq⟩ := List.mem_map.mp hpair
    cases heq
    exact ⟨k, hk, (List.mem_filter.mp hm).1, rfl⟩

/-- The folds between the members of a class are reported. -/
theorem pair_mem {k : FoldClass} {a b top : Nat} (hk : k ∈ foldClasses) (ha : a ∈ k.members)
    (hb : b ∈ k.members) (hne : b ≠ a) (hatop : a ≤ top) (hbtop : b ≤ top) :
    ⟨a, [b]⟩ ∈ foldsUpTo top := by
  refine List.mem_append_left _ (List.mem_flatMap.mpr ⟨k, hk, ?_⟩)
  refine List.mem_flatMap.mpr ⟨a, List.mem_filter.mpr ⟨ha, by simpa using hatop⟩, ?_⟩
  refine List.mem_map.mpr ⟨b, List.mem_filter.mpr ⟨?_, by simpa using hne⟩, rfl⟩
  exact List.mem_filter.mpr ⟨hb, by simpa using hbtop⟩

theorem stringFold?_mem {c : Nat} {s : List Nat} (h : stringFold? c = some s) :
    (c, s) ∈ stringFolds := by
  obtain ⟨⟨d, s⟩, hp, rfl⟩ := Option.map_eq_some_iff.mp h
  have hd := List.find?_some hp
  obtain rfl : d = c := by simpa using hd
  exact List.mem_of_find?_eq_some hp

/-- Characters that fold to several fold to two or three, which every encoding but ASCII has. -/
theorem stringFolds_short : ∀ p ∈ stringFolds,
    2 ≤ p.2.length ∧ p.2.length ≤ 3 ∧ ∀ c ∈ p.2, c < 0x80 := by
  decide

theorem string_mem {c top : Nat} {s : List Nat} (h : (c, s) ∈ stringFolds) (hc : c ≤ top)
    (htop : 0x80 ≤ top) : ⟨c, s⟩ ∈ foldsUpTo top := by
  refine List.mem_append_right _ (List.mem_map.mpr ⟨(c, s), List.mem_filter.mpr ⟨h, ?_⟩, rfl⟩)
  simp only [Bool.and_eq_true, decide_eq_true_eq, List.all_eq_true]
  refine ⟨hc, fun d hd => ?_⟩
  have : d < 0x80 := (stringFolds_short _ h).2.2 d hd
  omega

/-- Where the character that a class folds to folds to several, all members do. -/
theorem stringFold?_target {k : FoldClass} (hk : k ∈ foldClasses) {s : List Nat}
    (h : stringFold? k.target = some s) : ∀ m ∈ k.members, (m, s) ∈ stringFolds := by
  have hall : (PairRun.all.flatMap PairRun.classes ++ wideClasses).all (fun k =>
      (stringFold? k.target).all fun s => k.members.all fun m => stringFolds.contains (m, s)) =
        true := by
    decide +kernel
  have hclass := List.all_eq_true.mp hall k (mem_foldClasses.mp hk)
  rw [h] at hclass
  intro m hm
  simpa using List.all_eq_true.mp hclass m hm

/-- A code folds to itself, to another member of its class, or to a string that is reported. -/
theorem foldCode_cases (c top : Nat) :
    foldCode c top = [c] ∨
      (∃ t ≤ top, t ≠ c ∧ foldCode c top = [t] ∧ ∃ k ∈ foldClasses, c ∈ k.members ∧ t ∈ k.members) ∨
      (c, foldCode c top) ∈ stringFolds := by
  unfold foldCode
  cases hs : stringFold? c with
  | some s => exact Or.inr (Or.inr (stringFold?_mem hs))
  | none =>
    dsimp only
    by_cases hc : foldTarget c = c
    · rw [hc, hs]
      dsimp only
      split <;> exact Or.inl rfl
    · obtain ⟨k, hk, hmem, htarget⟩ := foldTarget_class hc
      cases ht : stringFold? (foldTarget c) with
      | some s =>
        rw [← htarget] at ht
        exact Or.inr (Or.inr (stringFold?_target hk ht c hmem))
      | none =>
        dsimp only
        split
        · exact Or.inr (Or.inl ⟨_, ‹_›, hc, rfl, k, hk, hmem, htarget ▸ target_mem hk⟩)
        · exact Or.inl rfl

theorem letter_class {c : Nat} (h : 0x41 ≤ c ∧ c ≤ 0x5A) :
    ∃ k ∈ foldClasses, c ∈ k.members ∧ c + 0x20 ∈ k.members := by
  have hall : (List.range 26).all (fun i =>
      (PairRun.all.flatMap PairRun.classes ++ wideClasses).any fun k =>
        k.members.contains (0x41 + i) && k.members.contains (0x41 + i + 0x20)) = true := by
    decide +kernel
  have hc := List.all_eq_true.mp hall (c - 0x41) (List.mem_range.mpr (by omega))
  rw [show 0x41 + (c - 0x41) = c from by omega] at hc
  obtain ⟨k, hk, hmem⟩ := List.any_eq_true.mp hc
  simp only [Bool.and_eq_true, List.contains_iff_mem] at hmem
  exact ⟨k, mem_foldClasses.mpr hk, hmem⟩

end Unicode

namespace Encoding
open Unicode

variable {e : Encoding} {c : Nat} {x : List UInt8}

/-! ## Folds of codes -/

def lowerCode (c : Nat) : Nat := if 0x41 ≤ c ∧ c ≤ 0x5A then c + 0x20 else c

/-- Codes that a character folds to. -/
def foldCodes (e : Encoding) (c : Nat) : List Nat :=
  match e with
  | ascii => [lowerCode c]
  | latin1 => foldCode c 0xFF
  | utf8 => if c < 0x80 then [lowerCode c] else foldCode c 0x10FFFF

theorem lowerCode_cases (c : Nat) :
    lowerCode c = c ∨ (0x41 ≤ c ∧ c ≤ 0x5A) ∧ lowerCode c = c + 0x20 := by
  unfold lowerCode
  split
  · exact Or.inr ⟨‹_›, rfl⟩
  · exact Or.inl rfl

/-- How a character folds, and that the encoding reports it. -/
inductive FoldReported (e : Encoding) (c : Nat) : List Nat → Prop
  | same : FoldReported e c [c]
  | other {t : Nat} (h : ⟨t, [c]⟩ ∈ e.folds) : FoldReported e c [t]
  | string {s : List Nat} (hlong : 2 ≤ s.length) (h : ⟨c, s⟩ ∈ e.folds) : FoldReported e c s

theorem foldReported_foldCode {top : Nat} (he : e.folds = foldsUpTo top) (htop : 0x80 ≤ top)
    (hc : c ≤ top) : e.FoldReported c (foldCode c top) := by
  rcases foldCode_cases c top with h | ⟨t, ht, hne, h, k, hk, hck, htk⟩ | h
  · rw [h]
    exact .same
  · rw [h]
    exact .other (he ▸ pair_mem hk htk hck hne.symm ht hc)
  · exact .string (stringFolds_short _ h).1 (he ▸ string_mem h hc htop)

theorem foldReported_lowerCode (h : ∀ c, 0x41 ≤ c ∧ c ≤ 0x5A → ⟨c + 0x20, [c]⟩ ∈ e.folds) (c : Nat) :
    e.FoldReported c [lowerCode c] := by
  rcases lowerCode_cases c with hc | ⟨hletter, hc⟩
  · rw [hc]
    exact .same
  · rw [hc]
    exact .other (h c hletter)

/-- The folds of an encoding are those that it reports. -/
theorem foldReported (h : e.encode c = .ok x) : e.FoldReported c (e.foldCodes c) := by
  cases e with
  | ascii =>
    refine foldReported_lowerCode (fun c hc => ?_) c
    refine List.mem_flatMap.mpr ⟨c - 0x41, List.mem_range.mpr (by omega), ?_⟩
    have hupper : 0x41 + (c - 0x41) = c := by omega
    have hlower : 0x61 + (c - 0x41) = c + 0x20 := by omega
    rw [hupper, hlower]
    simp
  | latin1 =>
    obtain ⟨hc, -⟩ := encode_single (by decide) h
    exact foldReported_foldCode rfl (by decide) hc
  | utf8 =>
    obtain ⟨hc, -⟩ := encode_utf8 h
    unfold foldCodes
    dsimp only
    split
    · refine foldReported_lowerCode (fun c hc => ?_) c
      obtain ⟨k, hk, hup, hlow⟩ := letter_class hc
      exact pair_mem hk hlow hup (by omega) (by omega) (by omega)
    · exact foldReported_foldCode rfl (by decide) hc

theorem foldCode_le {top : Nat} (hc : c ≤ top) (htop : 0x80 ≤ top) : ∀ d ∈ foldCode c top, d ≤ top := by
  rcases foldCode_cases c top with h | ⟨t, ht, -, h, -⟩ | h
  · rw [h]
    simpa using hc
  · rw [h]
    simpa using ht
  · intro d hd
    have := (stringFolds_short _ h).2.2 d hd
    omega

theorem foldCode_length (c top : Nat) : (foldCode c top).length ≤ 3 := by
  rcases foldCode_cases c top with h | ⟨t, -, -, h, -⟩ | h
  · simp [h]
  · simp [h]
  · exact (stringFolds_short _ h).2.1

/-! ## Folds of characters -/

theorem lowerByte_ofNat (hc : c ≤ 0xFF) : lowerByte (UInt8.ofNat c) = UInt8.ofNat (lowerCode c) := by
  have hall : ∀ c < 256, lowerByte (UInt8.ofNat c) = UInt8.ofNat (lowerCode c) := by
    decide +kernel
  exact hall c (by omega)

theorem encodeAll_single {cs : List Nat} (he : e ≠ .utf8) (h : ∀ c ∈ cs, c ≤ 0xFF) :
    e.encodeAll cs = some (cs.map UInt8.ofNat) := by
  induction cs with
  | nil => rfl
  | cons c cs ih =>
    have hc : e.encode c = .ok [UInt8.ofNat c] := by
      cases e with
      | utf8 => exact absurd rfl he
      | _ => exact if_pos (h c (by simp))
    rw [encodeAll, hc, ih fun d hd => h d (by simp [hd])]
    rfl

theorem lowerCode_le {top : Nat} (hc : c ≤ top) (htop : 0x80 ≤ top) : lowerCode c ≤ top := by
  rcases lowerCode_cases c with h | ⟨h, h'⟩ <;> omega

theorem encodeAll_lowerCode (hc : c < 0x80) :
    utf8.encodeAll [lowerCode c] = some [UInt8.ofNat (lowerCode c)] := by
  have hlow : lowerCode c < 0x80 := by rcases lowerCode_cases c with h | ⟨h, h'⟩ <;> omega
  have hencode : utf8.encode (lowerCode c) = .ok [UInt8.ofNat (lowerCode c)] := by
    unfold encode
    rw [if_pos (by omega), utf8Bytes, if_pos hlow]
  rw [encodeAll, hencode]
  rfl

theorem charLen_ascii {y : UInt8} (hy : y < 0x80) : utf8.charLen y = 1 := by
  rw [charLen_utf8, if_pos]
  rw [UInt8.lt_iff_toNat_lt] at hy
  exact Nat.le_of_lt_succ hy

theorem lowerByte_charLen {y : UInt8} (hy : y < 0x80) : utf8.charLen (lowerByte y) = 1 := by
  refine charLen_ascii ?_
  have hall : ∀ n < 128, lowerByte (UInt8.ofNat n) < 0x80 := by decide +kernel
  rw [UInt8.lt_iff_toNat_lt] at hy
  have := hall y.toNat hy
  rwa [UInt8.ofNat_toNat] at this

theorem head_ge (hc : 0x80 ≤ c) {y : UInt8} {tail : List UInt8} (h : utf8.encode c = .ok (y :: tail))
    (hspell : utf8.Spelling y tail) : ¬ y < 0x80 := by
  intro hy
  have hlen : utf8.charLen y = tail.length + 1 := hspell.length
  rw [charLen_ascii hy] at hlen
  obtain rfl : tail = [] := List.length_eq_zero_iff.mp (by omega)
  have hbytes := congrArg List.length (encode_utf8 h).2
  rw [utf8Bytes] at hbytes
  dsimp only at hbytes
  rw [if_neg (by omega)] at hbytes
  split at hbytes
  · simp at hbytes
  · split at hbytes <;> simp at hbytes

/-- A character folds to the bytes of its codes, or to itself. -/
theorem foldChar_encode {b : Bytes} {i : Nat} {y : UInt8} {tail : List UInt8}
    (hc : e.encode c = .ok (y :: tail)) (hspell : e.Spelling y tail) (hhas : b.Has i (y :: tail))
    (hlen : e.charLenAt b i = tail.length + 1) :
    ∃ f, e.foldChar b i = (f, tail.length + 1) ∧
      (e.encodeAll (e.foldCodes c) = some f ∨ f = y :: tail) := by
  have hhead : b.byteAt i = y := hhas.byteAt (k := 0) (by simp)
  by_cases he : e = .utf8
  · subst he
    obtain ⟨hle, hx⟩ := encode_utf8 hc
    unfold foldChar foldCodes
    dsimp only
    rw [hhead]
    by_cases hascii : c < 0x80
    · obtain ⟨rfl, rfl⟩ : y = UInt8.ofNat c ∧ tail = [] := by
        rw [utf8Bytes, if_pos hascii] at hx
        exact List.cons.inj hx
      have hy : UInt8.ofNat c < 0x80 := by
        rw [UInt8.lt_iff_toNat_lt, toNat_ofNat (by omega)]
        exact hascii
      rw [if_pos hy, if_pos hascii, encodeAll_lowerCode hascii, lowerByte_ofNat (by omega)]
      exact ⟨_, rfl, Or.inl rfl⟩
    · have hdecode : utf8.decode b i (i + (tail.length + 1)) = c := decode_encode hc hhas
      rw [charLenAt, hhead] at hlen
      rw [if_neg (head_ge (by omega) hc hspell), if_neg hascii, hlen, hdecode]
      cases hall : utf8.encodeAll (foldCode c 0x10FFFF) with
      | some f => exact ⟨f, rfl, Or.inl rfl⟩
      | none => exact ⟨_, rfl, Or.inr hhas⟩
  · obtain ⟨hle, hx⟩ := encode_single he hc
    obtain ⟨rfl, rfl⟩ := List.cons.inj hx
    cases e with
    | utf8 => exact absurd rfl he
    | ascii =>
      refine ⟨[UInt8.ofNat (lowerCode c)], ?_, Or.inl ?_⟩
      · rw [foldChar]
        rw [hhead, lowerByte_ofNat hle]
        rfl
      · refine encodeAll_single he fun d hd => ?_
        obtain rfl := List.mem_singleton.mp hd
        exact lowerCode_le hle (by omega)
    | latin1 =>
      refine ⟨(foldCode c 0xFF).map UInt8.ofNat, ?_, Or.inl ?_⟩
      · rw [foldChar]
        rw [hhead, toNat_ofNat (by omega)]
        rfl
      · exact encodeAll_single he (foldCode_le hle (by omega))

theorem encodeAll_cons {c : Nat} {cs : List Nat} {f : List UInt8}
    (h : e.encodeAll (c :: cs) = some f) :
    ∃ z zs, e.encode c = .ok z ∧ e.encodeAll cs = some zs ∧ f = z ++ zs := by
  unfold encodeAll at h
  split at h
  · rename_i z zs hz hzs
    cases h
    exact ⟨z, zs, hz, hzs, rfl⟩
  · cases h

/-- The fold of a character begins with a character that it is reported to fold to. -/
theorem foldChar_first {b : Bytes} {i : Nat} {y : UInt8} {tail : List UInt8}
    (hc : e.encode c = .ok (y :: tail)) (hspell : e.Spelling y tail) (hhas : b.Has i (y :: tail))
    (hlen : e.charLenAt b i = tail.length + 1) :
    ∃ d z zs, e.encode d = .ok z ∧ (e.foldChar b i).1 = z ++ zs ∧
      (d = c ∨ ∃ ds, e.foldCodes c = d :: ds) := by
  obtain ⟨f, hf, hall⟩ := foldChar_encode hc hspell hhas hlen
  rw [hf]
  rcases hall with hall | rfl
  · cases hcodes : e.foldCodes c with
    | nil =>
      have hreported := foldReported hc
      rw [hcodes] at hreported
      cases hreported with
      | string hlong => simp at hlong
    | cons d ds =>
      rw [hcodes] at hall
      obtain ⟨z, zs, hz, -, rfl⟩ := encodeAll_cons hall
      exact ⟨d, z, zs, hz, rfl, Or.inr ⟨ds, rfl⟩⟩
  · exact ⟨c, _, [], hc, (List.append_nil _).symm, Or.inl rfl⟩

/-! ## Folds of texts -/

theorem foldChar_snd {b : Bytes} {i : Nat} (hi : i < b.size) :
    (e.foldChar b i).2 = e.charLenAt b i := by
  unfold foldChar charLenAt
  cases e with
  | utf8 =>
    dsimp only
    split
    · rename_i hascii
      rw [charLen_ascii hascii]
      dsimp only
      omega
    · rfl
  | _ =>
    rw [show charLen _ (b.byteAt i) = 1 from rfl]
    dsimp only
    omega

/-- The characters of a text from one offset to another fold to some bytes. -/
inductive FoldsTo (e : Encoding) (b : Bytes) : Nat → Nat → List UInt8 → Prop
  | nil (i : Nat) : FoldsTo e b i i []
  | cons {i j : Nat} {x : List UInt8} (hi : i < b.size)
    (h : FoldsTo e b (i + max 1 (e.foldChar b i).2) j x) : FoldsTo e b i j ((e.foldChar b i).1 ++ x)

theorem FoldsTo.le {b : Bytes} {i j : Nat} (h : e.FoldsTo b i j x) : i ≤ j := by
  induction h with
  | nil => exact Nat.le_refl _
  | cons => omega

theorem foldFrom_eq (e : Encoding) (b : Bytes) (i : Nat) (out : Bytes) :
    (e.foldFrom b i out).toList = out.toList ++ (e.foldFrom b i #[]).toList := by
  rw [foldFrom, foldFrom]
  split
  · dsimp only
    rw [foldFrom_eq e b _ (out ++ (e.foldChar b i).1), foldFrom_eq e b _ (#[] ++ (e.foldChar b i).1)]
    simp
  · simp
termination_by b.size - i

theorem foldFrom_foldsTo (e : Encoding) (b : Bytes) {i : Nat} (hi : i ≤ b.size) :
    e.FoldsTo b i b.size (e.foldFrom b i #[]).toList := by
  rw [foldFrom]
  split
  · rename_i hlt
    dsimp only
    rw [foldFrom_eq]
    simp only [Array.toList_appendList, List.nil_append]
    exact .cons hlt (foldFrom_foldsTo e b (Subject.foldChar_le e hlt))
  · obtain rfl : i = b.size := by omega
    exact .nil _
termination_by b.size - i
decreasing_by omega

theorem foldBytes_foldsTo (e : Encoding) (b : Bytes) : e.FoldsTo b 0 b.size (e.foldBytes b).toList :=
  foldFrom_foldsTo e b (Nat.zero_le _)

end Encoding

namespace Subject

variable {t : Subject} {folded : Bytes}

theorem foldedEnd?_le {i done j : Nat} (h : t.foldedEnd? folded i done = some j) :
    done ≤ folded.size := by
  rw [foldedEnd?] at h
  split at h
  · split at h
    · omega
    · cases h
  · omega

theorem drop_of_agrees {f : List UInt8} {done : Nat} (h : agreesFrom folded done f = true)
    (hle : done + f.length ≤ folded.size) :
    folded.toList.drop done = f ++ folded.toList.drop (done + f.length) := by
  induction f generalizing done with
  | nil => rfl
  | cons y f ih =>
    simp only [List.length_cons] at hle
    have hlt : done < folded.toList.length := by
      rw [Array.length_toList]
      omega
    have hget : folded[done]? = some folded.toList[done] := by
      rw [← Array.getElem?_toList, List.getElem?_eq_getElem hlt]
    rw [agreesFrom, hget] at h
    obtain ⟨hy, hrest⟩ := Bool.and_eq_true_iff.mp h
    rw [List.drop_eq_getElem_cons hlt, ih hrest (by omega), ← eq_of_beq hy, List.length_cons,
      List.cons_append, Nat.add_right_comm, Nat.add_assoc]

/-- Where a text is found that has a certain fold, the characters there fold to it. -/
theorem foldedEnd?_foldsTo {i done j : Nat} (h : t.foldedEnd? folded i done = some j) :
    t.encoding.FoldsTo t.bytes i j (folded.toList.drop done) := by
  have hdone := foldedEnd?_le h
  rw [foldedEnd?] at h
  split at h
  · split at h
    · rename_i heq
      cases h
      rw [heq, List.drop_of_length_le (by simp)]
      exact .nil i
    · cases h
  · split at h
    · rename_i hi
      dsimp only at h
      split at h
      · rename_i hagrees
        rw [drop_of_agrees hagrees (foldedEnd?_le h)]
        exact .cons hi (foldedEnd?_foldsTo h)
      · cases h
    · cases h
termination_by t.size - i

theorem foldedLength?_foldsTo {i n : Nat} (h : t.foldedLength? i folded = some n) :
    t.encoding.FoldsTo t.bytes i (i + n) folded.toList := by
  obtain ⟨j, hj, rfl⟩ := Option.map_eq_some_iff.mp h
  have hfolds := foldedEnd?_foldsTo hj
  have := hfolds.le
  rwa [show i + (j - i) = j from by omega]

end Subject

namespace Hints
open Encoding Unicode

variable {e : Encoding} {code folded : Nat} {codes : List Nat}

/-! ## First characters of folded texts -/

/-- What a reported fold adds to the codes that a text may begin with. -/
def foldStep (code folded : Nat) (acc : List Nat × Bool) (f : Fold) : List Nat × Bool :=
  match f.result with
  | [c] => if f.source == code || f.source == folded then (c :: acc.1, acc.2) else acc
  | c :: _ =>
    if c == folded then (f.source :: acc.1, acc.2)
    else if f.source == code then (acc.1, true)
    else acc
  | [] => acc

theorem foldedCodes_eq (h : foldedCodes e code folded = some codes) :
    codes = (e.folds.foldl (foldStep code folded) ([code, folded], false)).1 := by
  let out := e.folds.foldl (foldStep code folded) ([code, folded], false)
  have hsteps : foldedCodes e code folded = if out.2 then none else some out.1 := rfl
  rw [hsteps] at h
  split at h
  · cases h
  · exact (Option.some.inj h).symm

theorem foldStep_keeps {acc : List Nat × Bool} (f : Fold) {c : Nat} (h : c ∈ acc.1) :
    c ∈ (foldStep code folded acc f).1 := by
  unfold foldStep
  split
  · split
    · exact List.mem_cons_of_mem _ h
    · exact h
  · split
    · exact List.mem_cons_of_mem _ h
    · split <;> exact h
  · exact h

theorem foldl_foldStep_keeps {acc : List Nat × Bool} (fs : List Fold) {c : Nat} (h : c ∈ acc.1) :
    c ∈ (fs.foldl (foldStep code folded) acc).1 := by
  induction fs generalizing acc with
  | nil => exact h
  | cons f fs ih => exact ih (foldStep_keeps f h)

/-- What one of the folds adds is among the codes. -/
theorem foldedCodes_mem (h : foldedCodes e code folded = some codes) {f : Fold} (hf : f ∈ e.folds)
    {c : Nat} (hc : ∀ acc, c ∈ (foldStep code folded acc f).1) : c ∈ codes := by
  obtain ⟨before, after, hfolds⟩ := List.append_of_mem hf
  rw [foldedCodes_eq h, hfolds, List.foldl_append, List.foldl_cons]
  exact foldl_foldStep_keeps after (hc _)

theorem folded_mem (h : foldedCodes e code folded = some codes) : folded ∈ codes := by
  rw [foldedCodes_eq h]
  exact foldl_foldStep_keeps _ (by simp)

/-- Every character whose fold begins with that of the first one is among the codes. -/
theorem foldedCodes_sound (h : foldedCodes e code folded = some codes) {c : Nat} {x : List UInt8}
    (hc : e.encode c = .ok x) (hfold : folded = c ∨ ∃ ds, e.foldCodes c = folded :: ds) :
    c ∈ codes := by
  rcases hfold with rfl | ⟨ds, hds⟩
  · exact folded_mem h
  have hreported := foldReported hc
  rw [hds] at hreported
  generalize hs : folded :: ds = s at hreported
  cases hreported with
  | same =>
    obtain ⟨rfl, -⟩ := List.cons.inj hs
    exact folded_mem h
  | other hmem =>
    obtain ⟨rfl, -⟩ := List.cons.inj hs
    exact foldedCodes_mem h hmem fun acc => by simp [foldStep]
  | string hlong hmem =>
    subst hs
    obtain ⟨d, ds, rfl⟩ : ∃ d ds', ds = d :: ds' := by
      cases ds with
      | nil => simp at hlong
      | cons d ds => exact ⟨d, ds, rfl⟩
    exact foldedCodes_mem h hmem fun acc => by simp [foldStep]

theorem mem_of_mapM {α β : Type} {g : α → Option β} {xs : List α} {ys : List β}
    (h : xs.mapM g = some ys) {a : α} (ha : a ∈ xs) : ∃ y ∈ ys, g a = some y := by
  induction xs generalizing ys with
  | nil => cases ha
  | cons b xs ih =>
    rw [List.mapM_cons] at h
    obtain ⟨y, hy, h⟩ := Option.bind_eq_some_iff.mp h
    obtain ⟨ys', hys, h⟩ := Option.bind_eq_some_iff.mp h
    obtain rfl := Option.some.inj h
    rcases List.mem_cons.mp ha with rfl | ha
    · exact ⟨y, by simp, hy⟩
    · obtain ⟨z, hz, hga⟩ := ih hys ha
      exact ⟨z, List.mem_cons_of_mem _ hz, hga⟩

/-- The fold of a character that is not cut short is as long as its first byte says, or longer. -/
theorem foldChar_whole {b : Bytes} (h : max 1 (e.foldChar b 0).2 < b.size) {y : UInt8}
    {tail : List UInt8} (hf : (e.foldChar b 0).1 = y :: tail) :
    e.charLen y ≤ (y :: tail).length := by
  by_cases he : e = .utf8
  · subst he
    have hsnd := foldChar_snd (e := .utf8) (b := b) (i := 0) (by omega)
    rw [hsnd, charLenAt, Nat.sub_zero] at h
    have hlen : min (utf8.charLen (b.byteAt 0)) b.size = utf8.charLen (b.byteAt 0) := by omega
    unfold foldChar at hf
    dsimp only at hf
    split at hf
    · rename_i hascii
      obtain ⟨rfl, rfl⟩ := List.cons.inj hf
      rw [lowerByte_charLen hascii]
      simp
    · dsimp only at hf
      rw [Nat.sub_zero, hlen] at hf
      cases hall : utf8.encodeAll (foldCode (utf8.decode b 0 (0 + utf8.charLen (b.byteAt 0)))
          0x10FFFF) with
      | some f =>
        rw [hall, Option.getD_some] at hf
        subst hf
        obtain ⟨d, ds, hcodes⟩ := List.exists_cons_of_ne_nil
          (foldCode_ne_nil (utf8.decode b 0 (0 + utf8.charLen (b.byteAt 0))) 0x10FFFF)
        rw [hcodes] at hall
        obtain ⟨z, zs, hz, -, hcons⟩ := encodeAll_cons hall
        obtain ⟨y', tail', rfl, hspell⟩ := spelling_encode hz
        obtain ⟨rfl, rfl⟩ := List.cons.inj hcons
        rw [hspell.length]
        simp
      | none =>
        rw [hall, Option.getD_none] at hf
        have hlength := congrArg List.length hf
        have hhead : y = b.byteAt 0 := by
          have hget := congrArg (fun l : List UInt8 => l[0]?) hf
          simp only [Bytes.slice, Array.getElem?_toList, Array.getElem?_extract,
            List.getElem?_cons_zero] at hget
          rw [if_pos (by have := charLen_pos utf8 (b.byteAt 0); omega)] at hget
          simp only [Bytes.byteAt, Array.getD_eq_getD_getElem?]
          simpa using (congrArg (Option.getD · 0) hget).symm
        rw [← hlength, hhead, Bytes.slice, Array.length_toList, Array.size_extract]
        omega
  · have hone : e.charLen y = 1 := by cases e <;> first | rfl | exact absurd rfl he
    rw [hone]
    simp

/-- A fold begins with that of the first character, and ends with it if there is no other. -/
theorem first_of_foldsTo {b : Bytes} {i j : Nat} {x : List UInt8} (h : e.FoldsTo b i j x)
    (hx : x ≠ []) : i < b.size ∧ ∃ rest, x = (e.foldChar b i).1 ++ rest ∧
      (i + max 1 (e.foldChar b i).2 < b.size ∨ rest = []) := by
  cases h with
  | nil => exact absurd rfl hx
  | @cons _ _ rest hi h =>
    refine ⟨hi, rest, rfl, ?_⟩
    by_cases hcut : i + max 1 (e.foldChar b i).2 < b.size
    · exact Or.inl hcut
    · cases h with
      | nil => exact Or.inr rfl
      | cons hi => omega

theorem continued_congr {b b' : Bytes} {i code n : Nat}
    (h : ∀ k, i ≤ k → k < i + n → b.byteAt k = b'.byteAt k) :
    continued b i code n = continued b' i code n := by
  induction n generalizing i code with
  | zero => rfl
  | succ n ih =>
    rw [continued, continued]
    rw [h i (Nat.le_refl i) (by omega), ih fun k hk hlt => h k (by omega) (by omega)]

/-- What is read of a character depends on its bytes only. -/
theorem decode_congr {b b' : Bytes} {i stop : Nat} (hi : i < stop)
    (h : ∀ k, i ≤ k → k < stop → b.byteAt k = b'.byteAt k) :
    e.decode b i stop = e.decode b' i stop := by
  rw [decode, decode]
  rw [h i (Nat.le_refl i) hi]
  split
  · rfl
  · rw [continued_congr fun k hk hlt => h k (by omega) (by omega)]

theorem byteAt_slice {b : Bytes} {k len : Nat} (hk : k < len) (hlen : len ≤ b.size) :
    (b.slice 0 len).byteAt k = b.byteAt k := by
  simp only [Bytes.byteAt, Bytes.slice, Array.getD_eq_getD_getElem?, Array.getElem?_extract]
  rw [if_pos (by omega), Nat.zero_add]

/-- The first character of a text folds as it does by itself. -/
theorem foldChar_slice {b : Bytes} (hb : 0 < b.size) :
    (e.foldChar (b.slice 0 (e.charLenAt b 0)) 0).1 = (e.foldChar b 0).1 := by
  have hlen : e.charLenAt b 0 = min (e.charLen (b.byteAt 0)) b.size := by
    rw [charLenAt, Nat.sub_zero]
  have hpos := e.charLenAt_pos hb
  have hsize : (b.slice 0 (e.charLenAt b 0)).size = e.charLenAt b 0 := by
    rw [Bytes.slice, Array.size_extract]
    omega
  have hbytes : ∀ k, k < e.charLenAt b 0 → (b.slice 0 (e.charLenAt b 0)).byteAt k = b.byteAt k :=
    fun k hk => byteAt_slice hk (by omega)
  have hhead := hbytes 0 hpos
  cases e with
  | utf8 =>
    have hsame : min (utf8.charLen (b.byteAt 0)) (utf8.charLenAt b 0) = utf8.charLenAt b 0 := by
      omega
    have hdecode : utf8.decode (b.slice 0 (utf8.charLenAt b 0)) 0 (0 + utf8.charLenAt b 0) =
        utf8.decode b 0 (0 + utf8.charLenAt b 0) :=
      decode_congr (by omega) fun k _ hk => hbytes k (by omega)
    have hslice : (b.slice 0 (utf8.charLenAt b 0)).slice 0 (0 + utf8.charLenAt b 0) =
        b.slice 0 (0 + utf8.charLenAt b 0) := by
      simp [Bytes.slice, Array.extract_extract]
    unfold foldChar
    dsimp only
    rw [hhead, hsize, Nat.sub_zero, Nat.sub_zero, hsame, ← hlen, hdecode, hslice]
  | _ =>
    unfold foldChar
    dsimp only
    rw [hhead]

theorem foldBytes_first {b : Bytes} (hb : 0 < b.size) :
    (e.foldBytes (b.slice 0 (min (max 1 (e.charLen (b.byteAt 0))) b.size))).toList =
      (e.foldChar b 0).1 := by
  have hpos := e.charLenAt_pos hb
  have hlen : min (max 1 (e.charLen (b.byteAt 0))) b.size = e.charLenAt b 0 := by
    have := e.charLen_pos (b.byteAt 0)
    rw [charLenAt]
    omega
  have hsize : (b.slice 0 (e.charLenAt b 0)).size = e.charLenAt b 0 := by
    rw [Bytes.slice, Array.size_extract, charLenAt]
    omega
  have hfull : (e.foldBytes (b.slice 0 (e.charLenAt b 0))).toList ≠ [] := by
    have := foldBytes_size_pos e (b := b.slice 0 (e.charLenAt b 0)) (by omega)
    rw [← Array.length_toList] at this
    exact List.ne_nil_of_length_pos this
  rw [hlen]
  obtain ⟨-, rest, hrest, hcut⟩ := first_of_foldsTo (foldBytes_foldsTo e _) hfull
  have hend : rest = [] := hcut.resolve_left fun hlt => by
    have hhead : (b.slice 0 (e.charLenAt b 0)).byteAt 0 = b.byteAt 0 :=
      byteAt_slice hpos (by rw [charLenAt]; omega)
    rw [foldChar_snd (by omega), charLenAt, hsize, hhead] at hlt
    rw [charLenAt] at hlt
    omega
  rw [hrest, hend, List.append_nil, foldChar_slice hb]

/-- Where two folds of characters begin the same text, and the first is no longer than its first
byte says, the second begins with it as a whole. -/
theorem first_eq {b : Bytes} {f rest z more : List UInt8} {d : Nat} (hne : f ≠ [])
    (hf : f = (e.foldChar b 0).1)
    (hrest : max 1 (e.foldChar b 0).2 < b.size ∨ rest = [])
    (hshort : f.length ≤ e.charLen (f.headD 0)) (hd : e.encode d = .ok z)
    (heq : f ++ rest = z ++ more) : f = z := by
  obtain ⟨y, tail, rfl⟩ := List.exists_cons_of_ne_nil hne
  obtain ⟨y', tail', rfl, hspell⟩ := spelling_encode hd
  obtain rfl : y = y' := (List.cons.inj heq).1
  have hlen : e.charLen y = (y :: tail').length := hspell.length
  have hle : (y :: tail').length ≤ (y :: tail).length := by
    rcases hrest with hwhole | rfl
    · rw [← hlen]
      exact foldChar_whole hwhole hf.symm
    · have := congrArg List.length heq
      simp only [List.append_nil, List.length_append, List.length_cons] at this ⊢
      omega
  exact (List.append_inj heq (Nat.le_antisymm (hlen ▸ hshort) hle)).1

theorem foldedFirstBytes_sound {bytes : Bytes} {set : ByteSet}
    (h : foldedFirstBytes e bytes = some set) (hne : 0 < bytes.size) {t : Subject}
    (ht : t.encoding = e) {i n j : Nat} (hchar : t.CharAt i n)
    (hfolds : e.FoldsTo t.bytes i j (e.foldBytes bytes).toList) :
    ∃ b, t.bytes[i]? = some b ∧ set.has b = true := by
  subst ht
  obtain ⟨c, y, tail, hc, hspell, hn, hhas, -⟩ := hchar.spelled
  have hlen : t.encoding.charLenAt t.bytes i = tail.length + 1 := by
    rw [hchar.charLen, hn, List.length_cons]
  obtain ⟨d, z, zs, hd, hfirst, hfold⟩ := foldChar_first hc hspell hhas hlen
  -- What the hint sees of the text is its first character, folded by itself.
  let first := bytes.slice 0 (min (max 1 (t.encoding.charLen (bytes.byteAt 0))) bytes.size)
  let folded := t.encoding.foldBytes first
  have hfolded : folded.toList = (t.encoding.foldChar bytes 0).1 := foldBytes_first hne
  have hnot : ¬ (folded.isEmpty || t.encoding.charLen (folded.byteAt 0) < folded.size) = true := by
    intro hbad
    unfold foldedFirstBytes at h
    dsimp only at h
    rw [if_pos hbad] at h
    cases h
  have hz : folded.toList = z := by
    have hfull : (t.encoding.foldBytes bytes).toList ≠ [] := by
      have := foldBytes_size_pos t.encoding hne
      rw [← Array.length_toList] at this
      exact List.ne_nil_of_length_pos this
    obtain ⟨-, rest, hrest, hcut⟩ := first_of_foldsTo (foldBytes_foldsTo t.encoding bytes) hfull
    obtain ⟨-, rest', hrest', -⟩ := first_of_foldsTo hfolds hfull
    have hempty : folded.toList ≠ [] := hfolded ▸ foldChar_ne_nil t.encoding hne
    have hshort : folded.toList.length ≤ t.encoding.charLen (folded.toList.headD 0) := by
      have hhead : folded.byteAt 0 = folded.toList.headD 0 := by
        rw [Bytes.byteAt, Array.getD_eq_getD_getElem?, ← Array.getElem?_toList]
        cases folded.toList <;> rfl
      simp only [Bool.or_eq_true, decide_eq_true_eq, not_or, Nat.not_lt] at hnot
      rw [Array.length_toList, ← hhead]
      exact hnot.2
    rw [← hfolded] at hrest
    rw [hrest, hfirst, List.append_assoc] at hrest'
    exact first_eq hempty hfolded (by simpa using hcut) hshort hd hrest'
  have hdecode : t.encoding.decode folded 0 folded.size = d := by
    have hhas : Bytes.Has folded 0 z := by
      have := Bytes.has_toArray z
      rwa [← hz, Array.toArray_toList, hz] at this
    have := decode_encode hd hhas
    rwa [← hz, Array.length_toList, Nat.zero_add] at this
  unfold foldedFirstBytes at h
  dsimp only at h
  split at h
  · cases h
  obtain ⟨heads, hheads, rfl⟩ := Option.map_eq_some_iff.mp h
  obtain ⟨codes, hcodes, hheads⟩ := Option.bind_eq_some_iff.mp hheads
  have hmem : c ∈ codes := foldedCodes_sound hcodes hc (hdecode.symm ▸ hfold)
  obtain ⟨b, hb, hhead⟩ := mem_of_mapM hheads hmem
  rw [hc] at hhead
  obtain rfl : y = b := Option.some.inj hhead
  exact ⟨y, hhas.get? (k := 0) (by simp), ByteSet.has_ofList.mpr hb⟩

end Hints
end RegexMachine
