import RegexMachine.Proofs.Definitions
import RegexMachine.Proofs.Folds
import RegexMachine.Proofs.Trees

/-!
Least numbers of bytes. Every match of a tree takes at least as many bytes as were measured. Only
literals that match whatever their case may take fewer bytes than they have: a character folds to at
most three, and its fold is at most three times as long.
-/
namespace RegexMachine

namespace Unicode

/-- Classes that reach below 256 have no members beyond the first plane. -/
theorem low_class {k : FoldClass} (hk : k ∈ foldClasses) {c t : Nat} (hc : c ∈ k.members)
    (ht : t ∈ k.members) (hlow : c ≤ 0xFF) : t < 0x10000 := by
  have hall : (PairRun.all.flatMap PairRun.classes ++ wideClasses).all (fun k =>
      !k.members.any (· ≤ 0xFF) || k.members.all (· < 0x10000)) = true := by
    decide +kernel
  have hclass := List.all_eq_true.mp hall k (mem_foldClasses.mp hk)
  rw [Bool.or_eq_true, Bool.not_eq_true', List.any_eq_false, List.all_eq_true] at hclass
  rcases hclass with h | h
  · exact absurd (decide_eq_true hlow) (h c hc)
  · exact of_decide_eq_true (h t ht)

end Unicode

namespace Encoding
open Unicode

variable {e : Encoding} {b : Bytes} {i j : Nat}

/-! ## Lengths of folds -/

theorem utf8Bytes_length (c : Nat) :
    (utf8Bytes c).length ≤ 4 ∧ (c < 0x10000 → (utf8Bytes c).length ≤ 3) ∧
      (c < 0x80 → (utf8Bytes c).length = 1) := by
  unfold utf8Bytes
  dsimp only
  split
  · simp
  split
  · simp
    omega
  split
  · simp
    omega
  · simp
    omega

theorem encodeAll_length {n : Nat} {cs : List Nat} {x : List UInt8} (h : utf8.encodeAll cs = some x)
    (hn : ∀ c ∈ cs, (utf8Bytes c).length ≤ n) : x.length ≤ n * cs.length := by
  induction cs generalizing x with
  | nil =>
    cases h
    simp
  | cons c cs ih =>
    obtain ⟨z, zs, hz, hzs, rfl⟩ := encodeAll_cons h
    have hlen := ih hzs fun d hd => hn d (List.mem_cons_of_mem _ hd)
    have hc := hn c (by simp)
    rw [(encode_utf8 hz).2, List.length_append, List.length_cons, Nat.mul_succ]
    omega

/-- A code that was read from one byte folds to at most three bytes, any code to at most four. -/
theorem foldCode_bytes {c : Nat} {x : List UInt8} (h : utf8.encodeAll (foldCode c 0x10FFFF) = some x) :
    x.length ≤ 4 ∧ (c ≤ 0xFF → x.length ≤ 3) := by
  rcases foldCode_cases c 0x10FFFF with hc | ⟨t, -, -, ht, k, hk, hck, htk⟩ | hs
  · rw [hc] at h
    have := (utf8Bytes_length c).2.1
    have hfour := encodeAll_length (n := 4) h fun d hd =>
      List.mem_singleton.mp hd ▸ (utf8Bytes_length c).1
    refine ⟨by simpa using hfour, fun hlow => ?_⟩
    have hthree := encodeAll_length (n := 3) h fun d hd =>
      List.mem_singleton.mp hd ▸ this (by omega)
    simpa using hthree
  · rw [ht] at h
    have hfour := encodeAll_length (n := 4) h fun d hd =>
      List.mem_singleton.mp hd ▸ (utf8Bytes_length t).1
    refine ⟨by simpa using hfour, fun hlow => ?_⟩
    have hthree := encodeAll_length (n := 3) h fun d hd =>
      List.mem_singleton.mp hd ▸ (utf8Bytes_length t).2.1 (low_class hk hck htk hlow)
    simpa using hthree
  · obtain ⟨-, hlen, hascii⟩ := stringFolds_short _ hs
    have hone := encodeAll_length (n := 1) h fun d hd =>
      Nat.le_of_eq ((utf8Bytes_length d).2.2 (hascii d hd))
    dsimp only at hlen hone
    exact ⟨by omega, fun _ => by omega⟩

/-- The fold of a character is at most three times as long. -/
theorem foldChar_length (e : Encoding) (hi : i < b.size) :
    (e.foldChar b i).1.length ≤ 3 * max 1 (e.foldChar b i).2 := by
  cases e with
  | ascii => simp [foldChar]
  | latin1 =>
    have := foldCode_length (b.byteAt i).toNat 0xFF
    simpa [foldChar] using this
  | utf8 =>
    unfold foldChar
    dsimp only
    split
    · simp
    · have hpos := utf8.charLenAt_pos hi
      unfold charLenAt at hpos
      generalize hlen : min (utf8.charLen (b.byteAt i)) (b.size - i) = len at hpos ⊢
      cases hx : utf8.encodeAll (foldCode (utf8.decode b i (i + len)) 0x10FFFF) with
      | none =>
        simp only [Option.getD_none, Bytes.slice, Array.length_toList, Array.size_extract]
        omega
      | some x =>
        obtain ⟨hfour, hthree⟩ := foldCode_bytes hx
        rw [Option.getD_some]
        by_cases hone : len = 1
        · have hc : utf8.decode b i (i + len) = (b.byteAt i).toNat := by
            unfold decode
            dsimp only
            rw [if_pos (by omega)]
          have hlt := (b.byteAt i).toNat_lt
          have := hthree (by omega)
          dsimp only
          omega
        · dsimp only
          omega

theorem FoldsTo.length_le {x : List UInt8} (h : e.FoldsTo b i j x) : x.length ≤ 3 * (j - i) := by
  induction h with
  | nil i => simp
  | cons hi h ih =>
    have := foldChar_length e hi
    have := h.le
    rw [List.length_append]
    omega

theorem FoldsTo.length_ascii {x : List UInt8} (h : ascii.FoldsTo b i j x) : x.length = j - i := by
  induction h with
  | nil i => simp
  | cons hi h ih =>
    have := h.le
    simp only [foldChar, Nat.max_self] at this ih ⊢
    rw [List.length_append, List.length_singleton]
    omega

/-! ## Numbers of characters -/

theorem countFrom_le (e : Encoding) (b : Bytes) (i n : Nat) :
    e.countFrom b i n ≤ n + (b.size - i) := by
  unfold countFrom
  split
  · have := countFrom_le e b (i + max 1 (e.charLen (b.byteAt i))) (n + 1)
    omega
  · omega
termination_by b.size - i

/-- A text has no more characters than bytes. -/
theorem charCount_le (e : Encoding) (b : Bytes) : e.charCount b ≤ b.size := by
  simpa [charCount] using e.countFrom_le b 0 0

/-- Only the smallest encoding has no folds to several characters. -/
theorem eq_ascii_of_hasStringFolds (h : e.hasStringFolds = false) : e = ascii := by
  have hsharp : ∀ top, 0xFF ≤ top → (⟨0xDF, [0x73, 0x73]⟩ : Fold) ∈ foldsUpTo top := fun top htop =>
    string_mem (by decide) (by omega) (by omega)
  have hany : ∀ top, 0xFF ≤ top → e.folds = foldsUpTo top → e.hasStringFolds = true :=
    fun top htop he => List.any_eq_true.mpr ⟨_, he ▸ hsharp top htop, rfl⟩
  cases e with
  | ascii => rfl
  | utf8 => exact absurd (hany 0x10FFFF (by decide) rfl) (by simp [h])
  | latin1 => exact absurd (hany 0xFF (by decide) rfl) (by simp [h])

end Encoding

/-! ## Measured trees -/

namespace Node

/-- The least number of bytes of a node, as measuring finds it from those of its parts. -/
def leastBytes (s : Scale) : Node Measured → Nat
  | atom _ a => (s.atomInfo a).minBytes
  | repeated _ b _ body => Info.mulCapped body.info.minBytes b.min
  | group _ .absent _ => 0
  | group _ _ body => body.info.minBytes
  | conditional _ _ _ yes no => min yes.info.minBytes ((no.map (·.info.minBytes)).getD 0)
  | look _ _ _ => 0
  | sequence _ items => items.foldl (fun n i => Info.addCapped n i.info.minBytes) 0
  | alternation _ branches => Info.least (branches.map (·.info.minBytes))

/-- Whether the least number of bytes of a node is that of its parts. -/
def hasBytes (s : Scale) (n : Node Measured) : Bool := n.info.minBytes == n.leastBytes s

theorem measure_hasBytes (s : Scale) (n : Node Span) :
    (n.measure s).Everywhere (hasBytes s) := by
  refine Everywhere.rebuild (p := fun _ => true) ?_ (children_measure s) fun n _ => ?_
  · exact everywhere_iff.mpr fun _ _ => rfl
  · rw [hasBytes, beq_iff_eq]
    cases n with
    | group p k body => cases k <;> rfl
    | conditional p t gs yes no => cases no <;> rfl
    | sequence p items =>
      simp [measure, info, note, leastBytes, Info.ofSequence, Info.make, List.foldl_map]
    | alternation p branches =>
      simp [measure, info, note, leastBytes, Info.ofAlternation, Info.make, Function.comp_def]
    | _ => rfl

theorem mark_minBytes (g : CallGraph) (n : Node Measured) :
    (Analyzed.mark g n).info.minBytes = n.info.minBytes := by
  cases n with
  | group p k body => cases k <;> rfl
  | _ => rfl

theorem mark_hasBytes (g : CallGraph) {s : Scale} {n : Node Measured}
    (h : n.Everywhere (hasBytes s)) : (Analyzed.mark g n).Everywhere (hasBytes s) := by
  refine h.rebuild (Analyzed.children_mark g) fun n hn => ?_
  rw [hasBytes, beq_iff_eq] at hn ⊢
  rw [mark_minBytes, hn]
  have hmap : ∀ ns : List (Node Measured), (ns.map (Analyzed.mark g)).map (·.info.minBytes) =
      ns.map (·.info.minBytes) := fun ns => by
    rw [List.map_map]
    exact List.map_congr_left fun n _ => mark_minBytes g n
  have hsum : ∀ (ns : List (Node Measured)) (k : Nat),
      (ns.map (Analyzed.mark g)).foldl (fun n i => Info.addCapped n i.info.minBytes) k =
        ns.foldl (fun n i => Info.addCapped n i.info.minBytes) k := fun ns => by
    induction ns with
    | nil => exact fun _ => rfl
    | cons n ns ih => simp [ih, mark_minBytes]
  cases n with
  | atom p a => rfl
  | repeated p b m body => simp [Analyzed.mark, leastBytes, mark_minBytes]
  | group p k body => cases k <;> simp [Analyzed.mark, leastBytes, mark_minBytes]
  | conditional p t gs yes no =>
    cases no <;> simp [Analyzed.mark, Analyzed.markOption, leastBytes, mark_minBytes]
  | look p k body => rfl
  | sequence p items => simp [Analyzed.mark, Analyzed.markAll_eq, leastBytes, hsum]
  | alternation p branches => simp [Analyzed.mark, Analyzed.markAll_eq, leastBytes, hmap]

theorem Everywhere.minBytes_eq {s : Scale} {n : Node Measured} (h : n.Everywhere (hasBytes s)) :
    n.info.minBytes = n.leastBytes s := by
  have := h.self
  rwa [hasBytes, beq_iff_eq] at this

end Node

/-- The numbers of bytes in an analyzed tree are those that measuring finds. -/
theorem Analyzed.ofTree_hasBytes {d : Dialect} {e : Encoding} {t : PatternTree Span} {a : Analyzed}
    (h : Analyzed.ofTree d e t = .ok a) :
    ∃ s : Scale, s.encoding = e ∧ s.stringFolds = e.hasStringFolds ∧
      a.tree.root.Everywhere (Node.hasBytes s) := by
  obtain ⟨root, hroot, -, htree, -⟩ := ofTree_parts h
  obtain ⟨s, n, he, hfolds, rfl, -⟩ := measure_eq hroot
  rw [htree]
  exact ⟨s, he, hfolds, Node.mark_hasBytes _ (Node.measure_hasBytes s n)⟩

/-! ## Extents -/

namespace Extent

theorem times_width {f : Extent} {w n p q : Nat} (hf : ∀ p q, f p q → p + w ≤ q)
    (h : f.times n p q) : p + w * n ≤ q := by
  induction n generalizing p with
  | zero => exact Nat.le_of_eq h
  | succ n ih =>
    obtain ⟨m, hm, h⟩ := h
    have := hf p m hm
    have := ih h
    rw [Nat.mul_succ]
    omega

end Extent

/-- Lengths in a subject may be measured by a scale. -/
structure Scale.Suits (s : Scale) (rd : Reading) : Prop where
  encoding : s.encoding = rd.encoding
  stringFolds : s.stringFolds = s.encoding.hasStringFolds
  subject : rd.subject.encoding = rd.encoding

theorem Scale.Suits.inline {s : Scale} {rd : Reading} (h : s.Suits rd) : s.Suits rd.inline :=
  ⟨h.encoding, h.stringFolds, h.subject⟩

namespace Reading
open Node

variable {rd : Reading} {calls : Nat → Extent} {s : Scale}

theorem literalLength?_width (hs : s.Suits rd) {bytes : Bytes} {fold : Bool} {p n : Nat}
    (h : rd.literalLength? bytes fold p = some n) : (s.literalInfo bytes fold).minBytes ≤ n := by
  have hchars := s.encoding.charCount_le bytes
  have hempty : bytes.isEmpty = true → bytes.size = 0 := by simp [Array.isEmpty]
  have hfolded : bytes.isEmpty = false → fold = true →
      rd.encoding.FoldsTo rd.subject.bytes p (p + n) (rd.encoding.foldBytes bytes).toList := by
    rintro hne rfl
    simp only [literalLength?, hne, Bool.false_eq_true, ↓reduceIte] at h
    have := Subject.foldedLength?_foldsTo h
    rwa [hs.subject] at this
  unfold Scale.literalInfo
  dsimp only
  split
  · rename_i hcond
    rw [Bool.and_eq_true] at hcond
    have hcount := s.encoding.charCount_le (s.encoding.foldBytes bytes)
    dsimp only [Info.make]
    cases hb : bytes.isEmpty with
    | true =>
      have hzero : (s.encoding.foldBytes bytes).size = 0 := by
        unfold Encoding.foldBytes Encoding.foldFrom
        rw [dif_neg (by rw [hempty hb]; omega)]
        rfl
      omega
    | false =>
      have hlen := (hfolded hb hcond.1).length_le
      rw [← hs.encoding, Array.length_toList] at hlen
      omega
  · rename_i hcond
    dsimp only [Info.make]
    cases hb : bytes.isEmpty with
    | true =>
      have := hempty hb
      split <;> omega
    | false =>
      cases fold with
      | false =>
        simp only [literalLength?, hb, Bool.false_eq_true, ↓reduceIte] at h
        rw [if_neg (by simp)]
        exact Nat.le_of_eq (Subject.textLength?_eq h).2.symm
      | true =>
        have hascii : s.encoding = .ascii := Encoding.eq_ascii_of_hasStringFolds (by
          rw [← hs.stringFolds]
          simpa using hcond)
        have hfold := hfolded hb rfl
        rw [← hs.encoding, hascii] at hfold
        have hlen := hfold.length_ascii
        have hself := (Encoding.foldBytes_foldsTo .ascii bytes).length_ascii
        rw [if_pos rfl]
        omega

theorem atomExtent_width (hs : s.Suits rd) (hcalls : ∀ g p q, calls g p q → p ≤ q) (a : Atom)
    {p q : Nat} (h : rd.atomExtent calls a p q) : p + (s.atomInfo a).minBytes ≤ q := by
  have htext : ∀ (width : Nat → Option Nat) {k : Nat}, Extent.text width p q →
      (∀ n, width p = some n → k ≤ n) → p + k ≤ q := by
    rintro width k ⟨n, hn, rfl⟩ hk
    have := hk n hn
    omega
  cases a with
  | empty => exact Nat.le_of_eq h
  | keep => exact Nat.le_of_eq h
  | anchor a => exact Nat.le_of_eq h.2
  | backref t gs fold => exact h.1
  | call t g => exact hcalls g p q h
  | literal bytes fold => exact htext _ h fun n hn => literalLength?_width hs hn
  | charClass ranges negated =>
    exact htext (rd.subject.classLength? · _) h fun n hn => (Subject.classLength?_bounds hn).2
  | charType type negated ascii =>
    exact htext (rd.subject.typeLength? · _ _ _) h fun n hn => (Subject.typeLength?_bounds hn).2
  | anyChar multiline =>
    exact htext (rd.subject.anyLength? · _) h fun n hn => (Subject.anyLength?_bounds hn).2

theorem addCapped_le (a b : Nat) : Info.addCapped a b ≤ a + b := Nat.min_le_right ..

theorem mulCapped_le (a b : Nat) : Info.mulCapped a b ≤ a * b := Nat.min_le_right ..

mutual

/-- A match of a tree takes at least as many bytes as the tree says. -/
theorem extent_width (hs : s.Suits rd) (hcalls : ∀ g p q, calls g p q → p ≤ q) :
    ∀ n : Node Measured, n.Everywhere (hasBytes s) → n.Ordered → ∀ p q,
      rd.inline.extent calls n p q → p + n.info.minBytes ≤ q
  | .atom _ a, hn, _, p, q, h => by
    rw [hn.minBytes_eq]
    exact atomExtent_width hs.inline hcalls a h
  | .repeated _ b _ body, hn, hord, p, q, h => by
    have hbody := extent_width hs hcalls body (hn.child (List.mem_singleton.mpr rfl))
      (hord.child (List.mem_singleton.mpr rfl))
    rw [hn.minBytes_eq]
    simp only [extent] at h
    rw [Node.Ordered.least_eq hord] at h
    obtain ⟨k, hk, h⟩ := h
    have hwidth := Extent.times_width hbody h
    have hmul := Nat.mul_le_mul_left body.info.minBytes hk
    have := mulCapped_le body.info.minBytes b.min
    simp only [leastBytes]
    omega
  | .group _ (.capture _ _) body, hn, hord, p, q, h => by
    rw [hn.minBytes_eq]
    exact extent_width hs hcalls body (hn.child (List.mem_singleton.mpr rfl))
      (hord.child (List.mem_singleton.mpr rfl)) p q h
  | .group _ .plain body, hn, hord, p, q, h => by
    rw [hn.minBytes_eq]
    exact extent_width hs hcalls body (hn.child (List.mem_singleton.mpr rfl))
      (hord.child (List.mem_singleton.mpr rfl)) p q h
  | .group _ .atomic body, hn, hord, p, q, h => by
    rw [hn.minBytes_eq]
    exact extent_width hs hcalls body (hn.child (List.mem_singleton.mpr rfl))
      (hord.child (List.mem_singleton.mpr rfl)) p q h
  | .group _ .absent _, hn, _, p, q, h => by
    rw [hn.minBytes_eq]
    exact h.1
  | .conditional _ _ _ yes none, hn, hord, p, q, h => by
    rw [hn.minBytes_eq]
    have hyes := extent_width hs hcalls yes (hn.child (by simp [children]))
      (hord.child (by simp [children])) p q
    simp only [leastBytes, Option.map_none, Option.getD_none]
    rcases h with h | h
    · have := hyes h
      omega
    · have : p = q := h
      omega
  | .conditional _ _ _ yes (some no), hn, hord, p, q, h => by
    rw [hn.minBytes_eq]
    have hyes := extent_width hs hcalls yes (hn.child (by simp [children]))
      (hord.child (by simp [children])) p q
    have hno := extent_width hs hcalls no (hn.child (by simp [children]))
      (hord.child (by simp [children])) p q
    simp only [leastBytes, Option.map_some, Option.getD_some]
    rcases h with h | h
    · have := hyes h
      omega
    · have := hno h
      omega
  | .look _ _ _, hn, _, p, q, h => by
    rw [hn.minBytes_eq]
    exact Nat.le_of_eq h
  | .sequence _ items, hn, hord, p, q, h => by
    rw [hn.minBytes_eq]
    exact extentAll_width hs hcalls items (fun c hc => hn.child hc)
      (fun c hc => hord.child hc) 0 p q h
  | .alternation _ [], hn, _, p, q, h => by
    rw [hn.minBytes_eq]
    exact Nat.le_of_eq h
  | .alternation _ (n :: ns), hn, hord, p, q, h => by
    rw [hn.minBytes_eq]
    have hmem : ∀ m ∈ n :: ns,
        Info.least ((n :: ns).map (·.info.minBytes)) ≤ m.info.minBytes := fun m hm =>
      least_le (List.mem_map.mpr ⟨m, hm, rfl⟩)
    rcases h with h | h
    · have := hmem n (by simp)
      have := extent_width hs hcalls n (hn.child (by simp [children]))
        (hord.child (by simp [children])) p q h
      simp only [leastBytes]
      omega
    · obtain ⟨m, hm, hwidth⟩ := extentSome_width hs hcalls ns
        (fun c hc => hn.child (List.mem_cons_of_mem _ hc))
        (fun c hc => hord.child (List.mem_cons_of_mem _ hc)) p q h
      have := hmem m (List.mem_cons_of_mem _ hm)
      simp only [leastBytes]
      omega

theorem extentAll_width (hs : s.Suits rd)
    (hcalls : ∀ g p q, calls g p q → p ≤ q) :
    ∀ ns : List (Node Measured), (∀ n ∈ ns, n.Everywhere (hasBytes s)) → (∀ n ∈ ns, n.Ordered) →
      ∀ k p q, rd.inline.extentAll calls ns p q →
        p + ns.foldl (fun n i => Info.addCapped n i.info.minBytes) k ≤ q + k
  | [], _, _, k, p, q, h => by
    have : p = q := h
    simp [this]
  | n :: ns, hn, hord, k, p, q, h => by
    obtain ⟨m, hm, h⟩ := h
    have hfirst := extent_width hs hcalls n (hn n (by simp)) (hord n (by simp)) p m hm
    have hrest := extentAll_width hs hcalls ns
      (fun c hc => hn c (List.mem_cons_of_mem _ hc))
      (fun c hc => hord c (List.mem_cons_of_mem _ hc)) (Info.addCapped k n.info.minBytes) m q h
    have := addCapped_le k n.info.minBytes
    rw [List.foldl_cons]
    omega

theorem extentSome_width (hs : s.Suits rd)
    (hcalls : ∀ g p q, calls g p q → p ≤ q) :
    ∀ ns : List (Node Measured), (∀ n ∈ ns, n.Everywhere (hasBytes s)) → (∀ n ∈ ns, n.Ordered) →
      ∀ p q, rd.inline.extentSome calls ns p q → ∃ n ∈ ns, p + n.info.minBytes ≤ q
  | [], _, _, _, _, h => h.elim
  | n :: ns, hn, hord, p, q, h => by
    rcases h with h | h
    · exact ⟨n, by simp,
        extent_width hs hcalls n (hn n (by simp)) (hord n (by simp)) p q h⟩
    · obtain ⟨m, hm, hwidth⟩ := extentSome_width hs hcalls ns
        (fun c hc => hn c (List.mem_cons_of_mem _ hc))
        (fun c hc => hord c (List.mem_cons_of_mem _ hc)) p q h
      exact ⟨m, List.mem_cons_of_mem _ hm, hwidth⟩

end

end Reading
end RegexMachine
