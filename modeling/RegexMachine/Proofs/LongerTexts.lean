import RegexMachine.Proofs.Boundaries
import RegexMachine.Proofs.RegionRuns

/-!
Matches that last. What most constructs match in a text they match in every longer text as well, since
the characters are the same up to its end. Anchors that look at the end, lookarounds that want no match
and choices that no alternatives leave may do otherwise.
-/
namespace RegexMachine

/-! ## Parts of a text -/

namespace Bytes

variable {b : Bytes} {c i : Nat}

theorem getElem?_slice (hi : i < c) : (b.slice 0 c)[i]? = b[i]? := by
  simp only [slice, Array.getElem?_extract, Nat.sub_zero, Nat.zero_add]
  split
  · rfl
  · rw [Array.getElem?_eq_none (by omega)]

theorem byteAt_slice (hi : i < c) : (b.slice 0 c).byteAt i = b.byteAt i := by
  rw [byteAt, byteAt, Array.getD_eq_getD_getElem?, Array.getD_eq_getD_getElem?, getElem?_slice hi]

theorem agree_slice {lit : Bytes} {k n : Nat} (h : (b.slice 0 c).agree lit i k n = true) :
    b.agree lit i k n = true := by
  induction n generalizing i k with
  | zero => rfl
  | succ n ih =>
    rw [agree] at h ⊢
    cases hx : (b.slice 0 c)[i]? with
    | none => simp [hx] at h
    | some x =>
      have hi : i < c := by
        have := (Array.getElem?_eq_some_iff.mp hx).1
        simp only [slice, Array.size_extract] at this
        omega
      rw [hx] at h
      rw [← getElem?_slice hi, hx]
      cases hy : lit[k]? with
      | none => simp [hy] at h
      | some y =>
        simp only [hy, Bool.and_eq_true] at h ⊢
        exact ⟨h.1, ih h.2⟩

end Bytes

namespace Encoding

variable {e : Encoding} {b : Bytes} {c i : Nat}

theorem continued_slice {code n : Nat} (h : i + n ≤ c) :
    continued (b.slice 0 c) i code n = continued b i code n := by
  induction n generalizing i code with
  | zero => rfl
  | succ n ih =>
    rw [continued, continued, Bytes.byteAt_slice (by omega), ih (by omega)]

theorem decode_slice {n : Nat} (hi : i < c) (hn : i + n ≤ c) :
    e.decode (b.slice 0 c) i (i + n) = e.decode b i (i + n) := by
  unfold decode
  dsimp only
  rw [Bytes.byteAt_slice hi]
  split
  · rfl
  · rw [continued_slice (by omega)]

theorem backToHead_slice {floor : Nat} (hi : i < c) :
    backToHead (b.slice 0 c) floor i = backToHead b floor i := by
  induction i with
  | zero => rfl
  | succ i ih => rw [backToHead, backToHead, Bytes.byteAt_slice hi, ih (by omega)]

theorem leftAdjust_slice (hc : c ≤ b.size) (hi : i < c) :
    e.leftAdjust (b.slice 0 c) i = e.leftAdjust b i := by
  have hback := backToHead_le b (i - 3) i
  have hin : ¬ (b.slice 0 c).size ≤ i := by
    simp only [Bytes.slice, Array.size_extract]
    omega
  have hin' : ¬ b.size ≤ i := by omega
  unfold leftAdjust
  split
  · dsimp only
    rw [if_neg hin, if_neg hin', backToHead_slice hi, Bytes.byteAt_slice (by omega)]
  · rfl

end Encoding

namespace Subject

variable {t : Subject} {c i : Nat}

theorem size_upTo (hc : c ≤ t.size) : (t.upTo c).size = c := by
  have : c ≤ t.bytes.size := hc
  simp only [size, upTo, Bytes.slice, Array.size_extract]
  omega

theorem prev?_upTo (hc : c ≤ t.size) (hi : i ≤ c) : (t.upTo c).prev? i = t.prev? i := by
  unfold prev? Encoding.prev?
  split
  · rfl
  · exact congrArg some (Encoding.leftAdjust_slice hc (by omega))

theorem back?_upTo (hc : c ≤ t.size) (n : Nat) (hi : i ≤ c) :
    Machine.back? (t.upTo c) i n = Machine.back? t i n := by
  induction n generalizing i with
  | zero => rfl
  | succ n ih =>
    rw [Machine.back?, Machine.back?, prev?_upTo hc hi]
    cases hp : t.prev? i with
    | none => rfl
    | some p =>
      have := prev?_lt hp
      exact ih (by omega)

theorem upTo_upTo {p : Nat} (h : p ≤ c) : (t.upTo c).upTo p = t.upTo p := by
  unfold upTo Bytes.slice
  dsimp only
  rw [Array.extract_extract, Nat.zero_add, Nat.zero_add, Nat.min_eq_left h]

theorem isBoundary_upTo (hb : t.isBoundary c = true) (hc : c ≤ t.size) (hi : i ≤ c) :
    (t.upTo c).isBoundary i = t.isBoundary i := by
  rcases Nat.eq_or_lt_of_le hi with rfl | hlt
  · have hend := isBoundary_size (t := t.upTo i)
    rw [size_upTo hc] at hend
    rw [hend, hb]
  · have hle : c ≤ t.bytes.size := hc
    have hbyte : (t.upTo c).bytes[i]? = t.bytes[i]? := Bytes.getElem?_slice hlt
    unfold isBoundary
    rw [hbyte, Array.getElem?_eq_getElem (by omega)]
    rfl

/-- The characters between two boundaries are whole. -/
theorem WellFormed.spells_slice (h : t.WellFormed) (hb : t.isBoundary c = true) (hc : c ≤ t.size)
    {i : Nat} (hi : t.isBoundary i = true) (hle : i ≤ c) :
    t.encoding.Spells (t.bytes.slice i c).toList := by
  rcases Nat.eq_or_lt_of_le hle with rfl | hlt
  · rw [Bytes.slice, Array.extract_empty_of_stop_le_start (Nat.le_refl _)]
    exact .nil
  · have hchar := h.charAt hi (Nat.lt_of_lt_of_le hlt hc)
    generalize t.encoding.charLenAt t.bytes i = n at hchar
    have hend : i + n ≤ c := by
      refine Nat.not_lt.mp fun hlt' => ?_
      rw [hchar.inside c hlt hlt'] at hb
      cases hb
    have hpos := hchar.pos
    obtain ⟨code, hcode⟩ := hchar.code
    have hsplit : (t.bytes.slice i c).toList =
        (t.bytes.slice i (i + n)).toList ++ (t.bytes.slice (i + n) c).toList := by
      rw [← Array.toList_append, Bytes.slice, Bytes.slice, Bytes.slice, Array.extract_append_extract,
        Nat.min_eq_left (by omega), Nat.max_eq_right hend]
    rw [hsplit]
    exact .cons hcode (WellFormed.spells_slice h hb hc hchar.next hend)
termination_by c - i

theorem WellFormed.upTo (h : t.WellFormed) (hb : t.isBoundary c = true) (hc : c ≤ t.size) :
    (t.upTo c).WellFormed :=
  have hzero : t.isBoundary 0 = true := isBoundary_of_spells (List.nil_append _).symm h
  h.spells_slice hb hc hzero (Nat.zero_le c)

/-- A character does not change where the text after it is cut off. -/
theorem WellFormed.charLenAt_upTo (h : t.WellFormed) (hb : t.isBoundary c = true) (hc : c ≤ t.size)
    (hi : i < c) :
    t.encoding.charLenAt (t.bytes.slice 0 c) i = t.encoding.charLenAt t.bytes i ∧
      i + t.encoding.charLenAt t.bytes i ≤ c := by
  have hsize : (t.bytes.slice 0 c).size = c := size_upTo hc
  have hle : c ≤ t.bytes.size := hc
  obtain ⟨k, n, hchar, hki, hlt⟩ := h.around (i := i) (by omega)
  have hend : k + n ≤ c := by
    refine Nat.not_lt.mp fun hlt' => ?_
    rw [hchar.inside c (by omega) hlt'] at hb
    cases hb
  have hlen : t.encoding.charLenAt t.bytes i ≤ c - i := by
    rcases Nat.eq_or_lt_of_le hki with rfl | hinside
    · rw [hchar.charLen]
      omega
    · -- Inside a character every byte stands for itself.
      have hbyte : t.isBoundary i = false := hchar.inside i hinside hlt
      have hutf8 : t.encoding = .utf8 := by
        refine Decidable.byContradiction fun hne => ?_
        rw [isBoundary_of_byte (by omega) fun he => absurd he hne] at hbyte
        cases hbyte
      have hcontinues : Encoding.isContinuation (t.bytes.byteAt i) = true := by
        rw [isContinuation_of_boundary hutf8 (by omega), hbyte]
        rfl
      rw [Encoding.isContinuation_iff] at hcontinues
      have hone : t.encoding.charLen (t.bytes.byteAt i) = 1 := by
        rw [hutf8, Encoding.charLen_utf8]
        repeat' split
        all_goals omega
      rw [Encoding.charLenAt, hone]
      omega
  refine ⟨?_, by omega⟩
  unfold Encoding.charLenAt at hlen ⊢
  rw [Bytes.byteAt_slice hi, hsize]
  omega

theorem WellFormed.decode?_upTo (h : t.WellFormed) (hb : t.isBoundary c = true) (hc : c ≤ t.size)
    (hi : i < c) : (t.upTo c).decode? i = t.decode? i := by
  obtain ⟨hlen, hend⟩ := h.charLenAt_upTo hb hc hi
  have hin : ¬ (t.upTo c).atEnd i = true := by
    rw [atEnd_iff, size_upTo hc]
    omega
  have hin' : ¬ t.atEnd i = true := by
    rw [atEnd_iff]
    omega
  rw [decode?, decode?, if_neg hin, if_neg hin']
  simp only [Encoding.decodeAt, Subject.upTo, hlen, Encoding.decode_slice hi hend]

theorem lt_of_decode?_upTo (hc : c ≤ t.size) {x : Nat × Nat} (h : (t.upTo c).decode? i = some x) :
    i < c := by
  unfold decode? at h
  split at h
  · cases h
  · rename_i hin
    rw [atEnd_iff, size_upTo hc] at hin
    omega

theorem isNewline_upTo (hi : i < c) : (t.upTo c).isNewline i = t.isNewline i :=
  congrArg (· == some 10) (Bytes.getElem?_slice hi)

/-! ## Texts and characters -/

theorem WellFormed.foldChar_upTo (h : t.WellFormed) (hb : t.isBoundary c = true) (hc : c ≤ t.size)
    (hi : i < c) : t.encoding.foldChar (t.bytes.slice 0 c) i = t.encoding.foldChar t.bytes i := by
  obtain ⟨hlen, hend⟩ := h.charLenAt_upTo hb hc hi
  unfold Encoding.charLenAt at hlen hend
  unfold Encoding.foldChar
  dsimp only
  rw [Bytes.byteAt_slice hi] at hlen ⊢
  split
  · rfl
  · rfl
  · rename_i he
    rw [he] at hlen hend
    rw [hlen, Encoding.decode_slice hi hend]
    split
    · rfl
    · have hpart : (t.bytes.slice 0 c).slice i
          (i + min (Encoding.utf8.charLen (t.bytes.byteAt i)) (t.bytes.size - i)) =
          t.bytes.slice i (i + min (Encoding.utf8.charLen (t.bytes.byteAt i)) (t.bytes.size - i)) := by
        rw [Bytes.slice, Bytes.slice, Bytes.slice, Array.extract_extract, Nat.zero_add, Nat.zero_add,
          Nat.min_eq_left hend]
      rw [hpart]

theorem WellFormed.foldedEnd?_upTo (h : t.WellFormed) (hb : t.isBoundary c = true) (hc : c ≤ t.size)
    {folded : Bytes} {i done q : Nat} (hq : (t.upTo c).foldedEnd? folded i done = some q) :
    t.foldedEnd? folded i done = some q := by
  rw [foldedEnd?] at hq ⊢
  split
  · rename_i hdone
    rwa [if_pos hdone] at hq
  · rename_i hdone
    rw [if_neg hdone] at hq
    split at hq
    · rename_i hi
      have hlt : i < c := by rwa [size_upTo hc] at hi
      rw [dif_pos (Nat.lt_of_lt_of_le hlt hc)]
      have hchar : (t.upTo c).encoding.foldChar (t.upTo c).bytes i = t.encoding.foldChar t.bytes i :=
        h.foldChar_upTo hb hc hlt
      rw [hchar] at hq
      dsimp only at hq ⊢
      split at hq
      · rename_i hagrees
        rw [if_pos hagrees]
        exact WellFormed.foldedEnd?_upTo h hb hc hq
      · cases hq
    · cases hq
termination_by c - i
decreasing_by omega

theorem WellFormed.foldedLength?_upTo (h : t.WellFormed) (hb : t.isBoundary c = true)
    (hc : c ≤ t.size) {folded : Bytes} {n : Nat}
    (hn : (t.upTo c).foldedLength? i folded = some n) : t.foldedLength? i folded = some n := by
  obtain ⟨q, hq, rfl⟩ := Option.map_eq_some_iff.mp hn
  rw [foldedLength?, h.foldedEnd?_upTo hb hc hq]
  rfl

theorem textLength?_upTo {lit : Bytes} {n : Nat} (hn : (t.upTo c).textLength? i lit = some n) :
    t.textLength? i lit = some n := by
  unfold textLength? at hn ⊢
  split at hn
  · rename_i hstarts
    have hlonger : t.bytes.startsAt i lit = true := Bytes.agree_slice hstarts
    rwa [if_pos hlonger]
  · cases hn

theorem WellFormed.classLength?_upTo (h : t.WellFormed) (hb : t.isBoundary c = true)
    (hc : c ≤ t.size) {k : CharClass} {n : Nat} (hn : (t.upTo c).classLength? i k = some n) :
    t.classLength? i k = some n := by
  obtain ⟨x, hx, -⟩ := Option.bind_eq_some_iff.mp hn
  rwa [classLength?, h.decode?_upTo hb hc (lt_of_decode?_upTo hc hx)] at hn

theorem WellFormed.typeLength?_upTo (h : t.WellFormed) (hb : t.isBoundary c = true)
    (hc : c ≤ t.size) {k : CharType} {negated ascii : Bool} {n : Nat}
    (hn : (t.upTo c).typeLength? i k negated ascii = some n) :
    t.typeLength? i k negated ascii = some n := by
  obtain ⟨x, hx, -⟩ := Option.bind_eq_some_iff.mp hn
  rwa [typeLength?, h.decode?_upTo hb hc (lt_of_decode?_upTo hc hx)] at hn

theorem WellFormed.anyLength?_upTo (h : t.WellFormed) (hb : t.isBoundary c = true)
    (hc : c ≤ t.size) {multiline : Bool} {n : Nat}
    (hn : (t.upTo c).anyLength? i multiline = some n) : t.anyLength? i multiline = some n := by
  have hi : i < c := by
    have := (anyLength?_pos hn).1
    rwa [size_upTo hc] at this
  obtain ⟨hlen, -⟩ := h.charLenAt_upTo hb hc hi
  have hin : (t.upTo c).atEnd i = t.atEnd i := by
    simp only [atEnd, size_upTo hc, decide_eq_decide]
    omega
  unfold anyLength? at hn ⊢
  rwa [hin, isNewline_upTo hi, show (t.upTo c).encoding.charLenAt (t.upTo c).bytes i = _ from hlen]
    at hn

end Subject

/-! ## Anchors -/

/-- Where the anchor holds in a text it holds in every longer one. -/
def Anchor.isLasting : Anchor → Bool
  | .beginBuffer | .beginLine | .beginPosition | .wordBegin _ => true
  | _ => false

namespace Subject

variable {t : Subject} {c i : Nat}

theorem WellFormed.isWord_upTo (h : t.WellFormed) (hb : t.isBoundary c = true) (hc : c ≤ t.size)
    {ascii : Bool} (hi : i < c) : (t.upTo c).isWord ascii i = t.isWord ascii i := by
  rw [isWord, isWord, h.decode?_upTo hb hc hi]
  rfl

theorem WellFormed.afterWord_upTo (h : t.WellFormed) (hb : t.isBoundary c = true) (hc : c ≤ t.size)
    {ascii : Bool} (hi : i ≤ c) : (t.upTo c).afterWord ascii i = t.afterWord ascii i := by
  rw [afterWord, afterWord, prev?_upTo hc hi]
  cases hp : t.prev? i with
  | none => rfl
  | some p => exact h.isWord_upTo hb hc (Nat.lt_of_lt_of_le (prev?_lt hp) hi)

theorem WellFormed.holds_upTo (h : t.WellFormed) (hb : t.isBoundary c = true) (hc : c ≤ t.size)
    {origin : Nat} {a : Anchor} (ha : a.isLasting = true) (hi : i ≤ c)
    (hholds : (t.upTo c).holds origin i a = true) : t.holds origin i a = true := by
  cases a with
  | beginBuffer => exact hholds
  | beginPosition => exact hholds
  | beginLine =>
    rw [holds, isLineStart] at hholds ⊢
    split
    · rename_i hzero
      rwa [if_pos hzero] at hholds
    · rename_i hpos
      rw [if_neg hpos, Bool.and_eq_true, Bool.not_eq_true', prev?_upTo hc hi] at hholds
      obtain ⟨hend, hline⟩ := hholds
      have hlt : i < c := by simpa [atEnd, size_upTo hc] using hend
      have hin : t.atEnd i = false := by
        simp only [atEnd, decide_eq_false_iff_not]
        omega
      rw [hin, Bool.not_false, Bool.true_and]
      cases hp : t.prev? i with
      | none =>
        rw [hp] at hline
        cases hline
      | some p =>
        rw [hp] at hline
        exact (isNewline_upTo (Nat.lt_trans (prev?_lt hp) hlt)).symm.trans hline
  | wordBegin ascii =>
    rw [holds, Bool.and_eq_true, h.afterWord_upTo hb hc hi] at hholds
    obtain ⟨hafter, hword⟩ := hholds
    have hlt : i < c := by
      cases hx : (t.upTo c).decode? i with
      | none =>
        rw [isWord, hx] at hword
        cases hword
      | some x => exact lt_of_decode?_upTo hc hx
    rw [h.isWord_upTo hb hc hlt] at hword
    rw [holds, hafter, hword]
    rfl
  | _ => cases ha

end Subject

/-! ## Ways -/

namespace Way

/-- Every way of one kind ends where one of another kind ends that begins at the same place. -/
def Lasts (size : Nat) (f g : Way) : Prop :=
  ∀ t u r, t.pos = u.pos → t.pos ≤ size → r ∈ f t → ∃ r' ∈ g u, r'.pos = r.pos

variable {size size' : Nat} {f f' g g' : Way}

theorem lasts_stay (size : Nat) : Lasts size stay stay := by
  intro t u r hpos _ hr
  cases List.mem_singleton.mp hr
  exact ⟨u, List.mem_singleton.mpr rfl, hpos.symm⟩

theorem lasts_text {width width' : Nat → Option Nat}
    (hw : ∀ i n, width i = some n → width' i = some n) : Lasts size (text width) (text width') := by
  intro t u r hpos _ hr
  obtain ⟨n, hn, rfl⟩ := mem_text hr
  refine ⟨{ u with pos := u.pos + n }, ?_, by rw [hpos]⟩
  rw [text, hw _ _ (hpos ▸ hn)]
  exact List.mem_singleton.mpr rfl

theorem lasts_holds {p p' : Nat → Bool} (hp : ∀ i ≤ size, p i = true → p' i = true) :
    Lasts size (holds p) (holds p') := by
  intro t u r hpos hle hr
  unfold holds at hr
  split at hr
  · rename_i hholds
    cases List.mem_singleton.mp hr
    refine ⟨u, ?_, hpos.symm⟩
    rw [holds, if_pos (hp _ (hpos ▸ hle) (hpos ▸ hholds))]
    exact List.mem_singleton.mpr rfl
  · cases hr

/-- One way after another. -/
theorem Lasts.flatMap (hf : Lasts size f f') (hreg : Regular size f) {t u r : Trail}
    (hpos : t.pos = u.pos) (hle : t.pos ≤ size) (hg : Lasts size g g') (hr : r ∈ (f t).flatMap g) :
    ∃ r' ∈ (f' u).flatMap g', r'.pos = r.pos := by
  obtain ⟨m, hm, hr⟩ := List.mem_flatMap.mp hr
  obtain ⟨m', hm', hmid⟩ := hf t u m hpos hle hm
  obtain ⟨r', hr', hend⟩ := hg m m' r hmid.symm (hreg.inside t m hle hm) hr
  exact ⟨r', List.mem_flatMap.mpr ⟨m', hm', hr'⟩, hend⟩

theorem Lasts.andThen (hf : Lasts size f f') (hreg : Regular size f) (hg : Lasts size g g') :
    Lasts size (f.andThen g) (f'.andThen g') := fun _ _ _ hpos hle hr =>
  hf.flatMap hreg hpos hle hg hr

theorem Lasts.orElse (hf : Lasts size f f') (hg : Lasts size g g') :
    Lasts size (f.orElse g) (f'.orElse g') := by
  intro t u r hpos hle hr
  rcases List.mem_append.mp hr with hr | hr
  · obtain ⟨r', hr', hend⟩ := hf t u r hpos hle hr
    exact ⟨r', List.mem_append_left _ hr', hend⟩
  · obtain ⟨r', hr', hend⟩ := hg t u r hpos hle hr
    exact ⟨r', List.mem_append_right _ hr', hend⟩

theorem Lasts.times (hf : Lasts size f f') (hreg : Regular size f) (n : Nat) :
    Lasts size (f.times n) (f'.times n) := by
  induction n with
  | zero => exact lasts_stay size
  | succ n ih => exact hf.andThen hreg ih

/-- More rounds, or none. -/
theorem exists_mem_prefer {greedy : Bool} {more stop more' stop' : List Trail} {r : Trail}
    (hmore : r ∈ more → ∃ r' ∈ more', r'.pos = r.pos) (hstop : r ∈ stop → ∃ r' ∈ stop', r'.pos = r.pos)
    (hr : r ∈ prefer greedy more stop) : ∃ r' ∈ prefer greedy more' stop', r'.pos = r.pos := by
  rcases mem_prefer.mp hr with hr | hr
  · obtain ⟨r', hr', hend⟩ := hmore hr
    exact ⟨r', mem_prefer.mpr (Or.inl hr'), hend⟩
  · obtain ⟨r', hr', hend⟩ := hstop hr
    exact ⟨r', mem_prefer.mpr (Or.inr hr'), hend⟩

theorem Lasts.upTo (hf : Lasts size f f') (hreg : Regular size f) (greedy : Bool) (n : Nat) :
    Lasts size (f.upTo greedy n) (f'.upTo greedy n) := by
  induction n with
  | zero => exact lasts_stay size
  | succ n ih =>
    intro t u r hpos hle hr
    exact exists_mem_prefer (hf.andThen hreg ih t u r hpos hle) (lasts_stay size t u r hpos hle) hr

/-- Rounds after one that lasts, which makes progress in both texts or in neither. -/
theorem Lasts.again {greedy : Bool} {start : Nat} (hsize : size ≤ size')
    (hstar : ∀ t u r, t.pos = u.pos → start < t.pos → t.pos ≤ size → r ∈ star size greedy f t →
      ∃ r' ∈ star size' greedy f' u, r'.pos = r.pos) :
    Lasts size (again size greedy f start) (again size' greedy f' start) := by
  intro t u r hpos hle hr
  unfold Way.again at hr ⊢
  by_cases hlt : start < t.pos
  · rw [if_pos ⟨hlt, hle⟩] at hr
    rw [if_pos ⟨hpos ▸ hlt, by omega⟩]
    exact hstar t u r hpos hlt hle hr
  · rw [if_neg fun h => hlt h.1] at hr
    rw [if_neg fun h => hlt (hpos ▸ h.1)]
    exact lasts_stay size t u r hpos hle hr

theorem Lasts.star (hf : Lasts size f f') (hreg : Regular size f) (hsize : size ≤ size')
    (greedy : Bool) : Lasts size (star size greedy f) (star size' greedy f') := by
  intro t u r hpos hle hr
  induction hn : size - t.pos using Nat.strongRecOn generalizing t u r with
  | _ n ih =>
    rw [star_eq] at hr ⊢
    refine exists_mem_prefer (fun hr => ?_) (lasts_stay size t u r hpos hle) hr
    rw [← hpos]
    exact hf.flatMap hreg hpos hle
      (.again hsize fun m m' r hmid hlt hin hr => ih (size - m.pos) (by omega) m m' r hmid hin hr rfl) hr

theorem Lasts.plus (hf : Lasts size f f') (hreg : Regular size f) (hsize : size ≤ size')
    (greedy : Bool) : Lasts size (plus size greedy f) (plus size' greedy f') := by
  intro t u r hpos hle hr
  rw [plus_eq] at hr ⊢
  rw [← hpos]
  exact hf.flatMap hreg hpos hle
    (.again hsize fun m m' r hmid _ hin hr => hf.star hreg hsize greedy m m' r hmid hin hr) hr

theorem Lasts.rounds (hf : Lasts size f f') (hreg : Regular size f) (hsize : size ≤ size')
    (b : Bounds) (greedy : Bool) : Lasts size (rounds size b greedy f) (rounds size' b greedy f') := by
  unfold Way.rounds
  split
  · exact lasts_stay size
  · exact (hf.times hreg _).andThen (hreg.times _) (hf.upTo hreg greedy _)
  · split
    · exact hf.star hreg hsize greedy
    · exact (hf.times hreg _).andThen (hreg.times _) (hf.plus hreg hsize greedy)

theorem Lasts.capture (hf : Lasts size f f') (log : Bool) (g : Nat) :
    Lasts size (f.capture log g) (f'.capture log g) := by
  intro t u r hpos hle hr
  obtain ⟨m, hm, rfl⟩ := List.mem_map.mp hr
  obtain ⟨m', hm', hend⟩ := hf { t with captures := t.captures.setStart g (some t.pos) }
    { u with captures := u.captures.setStart g (some u.pos) } m hpos hle hm
  exact ⟨_, List.mem_map_of_mem hm', hend⟩

/-- A lookahead holds where there is any way. -/
theorem Lasts.ahead (hf : Lasts size f f') : Lasts size f.ahead f'.ahead := by
  intro t u r hpos hle hr
  obtain ⟨m, hm, rfl⟩ := List.mem_map.mp hr
  obtain ⟨m', hm', -⟩ := hf t u m hpos hle (List.mem_of_mem_take hm)
  cases hways : f' u with
  | nil =>
    rw [hways] at hm'
    cases hm'
  | cons k ks =>
    refine ⟨{ k with pos := u.pos }, ?_, hpos.symm⟩
    rw [Way.ahead, Way.first, hways]
    exact List.mem_singleton.mpr rfl

theorem earlier_upTo {t : Subject} {c pos : Nat} (hc : c ≤ t.size) (hpos : pos ≤ c)
    (more : Option Nat) : earlier (t.upTo c) pos more = earlier t pos more := by
  rw [earlier, earlier]
  split
  · rfl
  · rw [Subject.prev?_upTo hc hpos]
    split
    · rfl
    · rename_i p hp
      have hlt := Subject.prev?_lt hp
      rw [earlier_upTo hc (Nat.le_of_lt (Nat.lt_of_lt_of_le hlt hpos))]
termination_by pos

theorem lt_of_mem_earlier {t : Subject} {pos p : Nat} {more : Option Nat}
    (h : p ∈ earlier t pos more) : p < pos := by
  rw [earlier] at h
  split at h
  · cases h
  · split at h
    · cases h
    · rename_i q hq
      have hlt := Subject.prev?_lt hq
      rcases List.mem_cons.mp h with rfl | h
      · exact hlt
      · exact Nat.lt_trans (lt_of_mem_earlier h) hlt
termination_by pos

/-- A lookbehind sees the same places, all of which lie in both texts. -/
theorem placesBehind_upTo {t : Subject} {c pos min : Nat} {max : Option Nat} (hc : c ≤ t.size)
    (hpos : pos ≤ c) : placesBehind (t.upTo c) pos min max = placesBehind t pos min max ∧
      ∀ p ∈ placesBehind t pos min max, p ≤ c := by
  unfold placesBehind
  rw [Subject.back?_upTo hc min hpos]
  cases hback : Machine.back? t pos min with
  | none => exact ⟨rfl, nofun⟩
  | some p =>
    have hp : p ≤ c := Nat.le_trans (Machine.back?_le hback) hpos
    dsimp only
    rw [earlier_upTo hc hp]
    refine ⟨rfl, fun q hq => ?_⟩
    rcases List.mem_cons.mp hq with rfl | hq
    · exact hp
    · exact Nat.le_trans (Nat.le_of_lt (lt_of_mem_earlier hq)) hp

theorem Lasts.behind {t : Subject} {c : Nat} (hc : c ≤ t.size) (hf : Lasts c f f') (min : Nat)
    (max : Option Nat) : Lasts c (f.behind (t.upTo c) min max) (f'.behind t min max) := by
  intro u v r hpos hle hr
  obtain ⟨p, hp, hr⟩ := List.mem_flatMap.mp hr
  obtain ⟨hr, hend⟩ := List.mem_filter.mp hr
  obtain ⟨hplaces, hin⟩ := @placesBehind_upTo t c u.pos min max hc hle
  rw [hplaces] at hp
  obtain ⟨r', hr', hsame⟩ := hf { u with pos := p } { v with pos := p } r rfl (hin p hp) hr
  refine ⟨r', List.mem_flatMap.mpr ⟨p, hpos ▸ hp, List.mem_filter.mpr ⟨hr', ?_⟩⟩, hsame⟩
  rwa [hsame, ← hpos]

end Way

/-! ## Trees -/

namespace Node

mutual

/-- Whether the tree matches in every longer text what it matches in one: no anchor looks at the end,
no lookaround wants that there is no match, and no choice is final. -/
def isLasting : Node Measured → Bool
  | .atom _ (.anchor a) => a.isLasting
  | .atom _ _ => true
  | .repeated _ _ mode body => mode != .possessive && isLasting body
  | .group _ (.capture _ _) body => isLasting body
  | .group _ .plain body => isLasting body
  | .group _ .atomic _ => false
  | .group _ .absent _ => false
  | .conditional _ _ _ _ _ => false
  | .look _ k body => !k.negated && isLasting body
  | .sequence _ items => isLastingAll items
  | .alternation _ branches => isLastingAll branches

def isLastingAll : List (Node Measured) → Bool
  | [] => true
  | n :: ns => isLasting n && isLastingAll ns

end

end Node

namespace Scene

variable {sc : Scene} {c : Nat}

/-- The same, with the subject cut off. -/
def upTo (sc : Scene) (c : Nat) : Scene := { sc with subject := sc.subject.upTo c }

theorem atomWays_lasts (hw : sc.subject.WellFormed) (hb : sc.subject.isBoundary c = true)
    (hc : c ≤ sc.subject.size) {note : Measured} {a : Atom} (ha : (Node.atom note a).isLasting = true) :
    Way.Lasts c ((sc.upTo c).atomWays a) (sc.atomWays a) := by
  cases a with
  | empty => exact Way.lasts_stay c
  | literal bytes fold =>
    refine Way.lasts_text fun i n hn => ?_
    unfold literalLength? at hn ⊢
    split at hn
    · rename_i hempty
      rwa [if_pos hempty]
    · rename_i hempty
      rw [if_neg hempty]
      split at hn
      · rename_i hfold
        rw [if_pos hfold]
        exact hw.foldedLength?_upTo hb hc hn
      · rename_i hfold
        rw [if_neg hfold]
        exact Subject.textLength?_upTo hn
  | charClass ranges negated =>
    rw [atomWays, atomWays]
    exact Way.lasts_text fun _ _ => hw.classLength?_upTo hb hc
  | charType type negated ascii =>
    rw [atomWays, atomWays]
    exact Way.lasts_text fun _ _ => hw.typeLength?_upTo hb hc
  | anyChar multiline =>
    rw [atomWays, atomWays]
    exact Way.lasts_text fun _ _ => hw.anyLength?_upTo hb hc
  | anchor a => exact Way.lasts_holds fun _ hi hholds => hw.holds_upTo hb hc ha hi hholds
  | keep =>
    intro t u r hpos _ hr
    cases List.mem_singleton.mp hr
    exact ⟨_, List.mem_singleton.mpr rfl, hpos.symm⟩
  | backref _ _ _ =>
    intro t u r _ _ hr
    cases hr
  | call _ _ =>
    intro t u r _ _ hr
    cases hr

mutual

/-- What a tree matches in a text it matches in every longer one, if it is one whose matches last. -/
theorem ways_lasts (hw : sc.subject.WellFormed) (hb : sc.subject.isBoundary c = true)
    (hc : c ≤ sc.subject.size) :
    ∀ n : Node Measured, n.isLasting = true → Way.Lasts c ((sc.upTo c).ways n) (sc.ways n)
  | .atom note a, h => by
    rw [ways, ways]
    exact atomWays_lasts hw hb hc h
  | .repeated _ b mode body, h => by
    rw [Node.isLasting, Bool.and_eq_true, bne_iff_ne] at h
    have hmode : ¬ (mode == .possessive) = true := by simpa using h.1
    have hsize : (sc.upTo c).subject.size = c := Subject.size_upTo hc
    have hreg := (sc.upTo c).ways_regular body
    rw [hsize] at hreg
    rw [ways, ways, if_neg hmode, if_neg hmode, hsize]
    exact (ways_lasts hw hb hc body h.2).rounds hreg hc b _
  | .group _ (.capture g _) body, h => by
    rw [Node.isLasting] at h
    rw [ways, ways]
    exact (ways_lasts hw hb hc body h).capture _ _
  | .group _ .plain body, h => by
    rw [Node.isLasting] at h
    rw [ways, ways]
    exact ways_lasts hw hb hc body h
  | .group _ .atomic body, h => nomatch h
  | .group _ .absent body, h => nomatch h
  | .conditional _ _ _ _ _, h => nomatch h
  | .look _ k body, h => by
    rw [Node.isLasting, Bool.and_eq_true, Bool.not_eq_true'] at h
    have hbody := ways_lasts hw hb hc body h.2
    have hwanted : ¬ k.negated = true := by simp [h.1]
    rw [ways, ways, lookWays, lookWays]
    rw [if_neg hwanted, if_neg hwanted]
    split
    · exact (hbody.behind hc _ _).ahead
    · exact hbody.ahead
  | .sequence _ items, h => by
    rw [Node.isLasting] at h
    rw [ways, ways]
    exact waysAll_lasts hw hb hc items h
  | .alternation _ [], _ => by
    rw [ways, ways]
    exact Way.lasts_stay c
  | .alternation _ (n :: ns), h => by
    rw [Node.isLasting, Node.isLastingAll, Bool.and_eq_true] at h
    rw [ways, ways]
    exact (ways_lasts hw hb hc n h.1).orElse (waysSome_lasts hw hb hc ns h.2)

theorem waysAll_lasts (hw : sc.subject.WellFormed) (hb : sc.subject.isBoundary c = true)
    (hc : c ≤ sc.subject.size) :
    ∀ ns : List (Node Measured), Node.isLastingAll ns = true →
      Way.Lasts c ((sc.upTo c).waysAll ns) (sc.waysAll ns)
  | [], _ => by
    rw [waysAll, waysAll]
    exact Way.lasts_stay c
  | n :: ns, h => by
    rw [Node.isLastingAll, Bool.and_eq_true] at h
    have hreg := (sc.upTo c).ways_regular n
    rw [show (sc.upTo c).subject.size = c from Subject.size_upTo hc] at hreg
    rw [waysAll, waysAll]
    exact (ways_lasts hw hb hc n h.1).andThen hreg (waysAll_lasts hw hb hc ns h.2)

theorem waysSome_lasts (hw : sc.subject.WellFormed) (hb : sc.subject.isBoundary c = true)
    (hc : c ≤ sc.subject.size) :
    ∀ ns : List (Node Measured), Node.isLastingAll ns = true →
      Way.Lasts c ((sc.upTo c).waysSome ns) (sc.waysSome ns)
  | [], _ => by
    rw [waysSome, waysSome]
    exact fun _ _ _ _ _ hr => nomatch hr
  | n :: ns, h => by
    rw [Node.isLastingAll, Bool.and_eq_true] at h
    rw [waysSome, waysSome]
    exact (ways_lasts hw hb hc n h.1).orElse (waysSome_lasts hw hb hc ns h.2)

end

/-- The tree has a match in the text from `start` to `stop`, where the subject ends at `stop`. -/
def Occurs (sc : Scene) (n : Node Measured) (start stop : Nat) : Prop :=
  ∃ t r : Trail, start ≤ t.pos ∧ t.pos ≤ stop ∧ sc.subject.isBoundary t.pos = true ∧
    r ∈ (sc.upTo stop).ways n t

/-- What occurs in a text occurs in every longer one, if it is a tree whose matches last. -/
theorem Occurs.longer {n : Node Measured} {start p q : Nat} (h : sc.Occurs n start p)
    (hn : n.isLasting = true) (hw : sc.subject.WellFormed) (hp : sc.subject.isBoundary p = true)
    (hq : sc.subject.isBoundary q = true) (hpq : p ≤ q) (hsize : q ≤ sc.subject.size) :
    sc.Occurs n start q := by
  obtain ⟨t, r, hfrom, hto, hb, hr⟩ := h
  have hcut : ((sc.upTo q).upTo p) = sc.upTo p := by
    rw [upTo, upTo, upTo, Subject.upTo_upTo hpq]
  have hboundary : (sc.upTo q).subject.isBoundary p = true :=
    (Subject.isBoundary_upTo hq hsize hpq).trans hp
  have hle : p ≤ (sc.upTo q).subject.size := by
    rw [show (sc.upTo q).subject.size = q from Subject.size_upTo hsize]
    exact hpq
  rw [← hcut] at hr
  obtain ⟨r', hr', -⟩ := ways_lasts (hw.upTo hq hsize) hboundary hle n hn t t r rfl hto hr
  exact ⟨t, r', hfrom, Nat.le_trans hto hpq, hb, hr'⟩

end Scene
end RegexMachine
