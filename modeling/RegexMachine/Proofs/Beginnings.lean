import RegexMachine.Proofs.Definitions
import RegexMachine.Proofs.Flags
import RegexMachine.Proofs.Folds

/-!
What matches begin with. A hint that is read off a pattern tree holds wherever a match of the tree
begins: its anchors hold there, its text stands there, and the byte there is one of its first bytes.
-/
namespace RegexMachine

/-- The first of some rounds begins where they begin. -/
theorem Extent.atLeast.first {f : Extent} {n p q : Nat} (h : f.atLeast n p q) (hn : 0 < n) :
    ∃ m, f p m := by
  obtain ⟨k, hk, h⟩ := h
  obtain ⟨k, rfl⟩ : ∃ j, k = j + 1 := ⟨k - 1, by omega⟩
  obtain ⟨m, hm, -⟩ := h
  exact ⟨m, hm⟩

theorem distinct_anchors : Flag.Distinct StartAnchor := by
  intro f g h
  cases f <;> cases g <;> first | rfl | cases h

/-- The anchor that a hint stands for. -/
def StartAnchor.anchor : StartAnchor → Anchor
  | beginBuffer => .beginBuffer
  | beginPosition => .beginPosition
  | beginLine => .beginLine

namespace Reading
variable {rd : Reading} {calls : Nat → Extent}

/-- An anchor or nothing stays where it is. -/
theorem extent_isZeroWidth {n : Node Measured} (hz : n.isZeroWidth = true) {p q : Nat}
    (h : rd.extent calls n p q) : p = q := by
  unfold Node.isZeroWidth at hz
  split at hz
  · exact h
  · exact h.2
  · exact h
  · exact h
  · cases hz

end Reading

namespace Hints
open Reading

variable {rd : Reading} {calls : Nat → Extent}

/-! ## Anchors -/

theorem anchorHint_holds {a : Anchor} {s : StartAnchor} (h : (anchorHint a).has s = true) :
    a = s.anchor := by
  have hone : ∀ t : StartAnchor, (FlagSet.ofList [t]).has s = true → t = s := fun t ht => by
    change ((FlagSet.empty : FlagSet StartAnchor).insert t).has s = true at ht
    simpa [FlagSet.has_insert distinct_anchors] using ht
  unfold anchorHint at h
  split at h
  · rw [← hone _ h]
    rfl
  · rw [← hone _ h]
    rfl
  · rw [← hone _ h]
    rfl
  · simp at h

mutual

/-- The anchors of a tree hold wherever a match of it begins. -/
theorem anchorOf_holds {a : StartAnchor} :
    ∀ n : Node Measured, n.Ordered → (anchorOf n).has a = true → ∀ p q,
      rd.inline.extent calls n p q → rd.subject.holds rd.origin p a.anchor = true
  | .atom _ (.anchor b), _, ha, p, q, h => by
    rw [anchorOf] at ha
    exact anchorHint_holds ha ▸ h.1
  | .repeated _ b _ body, hord, ha, p, q, h => by
    rw [anchorOf] at ha
    split at ha
    · rename_i hmin
      simp only [extent] at h
      rw [Node.Ordered.least_eq hord] at h
      obtain ⟨m, hm⟩ := h.first hmin
      exact anchorOf_holds body (hord.child (List.mem_singleton.mpr rfl)) ha p m hm
    · simp at ha
  | .group _ (.capture _ _) body, hord, ha, p, q, h => by
    simp only [anchorOf, Grouping.isTransparent, ↓reduceIte] at ha
    exact anchorOf_holds body (hord.child (List.mem_singleton.mpr rfl)) ha p q h
  | .group _ .plain body, hord, ha, p, q, h => by
    simp only [anchorOf, Grouping.isTransparent, ↓reduceIte] at ha
    exact anchorOf_holds body (hord.child (List.mem_singleton.mpr rfl)) ha p q h
  | .group _ .atomic body, hord, ha, p, q, h => by
    simp only [anchorOf, Grouping.isTransparent, ↓reduceIte] at ha
    exact anchorOf_holds body (hord.child (List.mem_singleton.mpr rfl)) ha p q h
  | .group _ .absent body, _, ha, _, _, _ => by
    simp [anchorOf, Grouping.isTransparent] at ha
  | .sequence _ (n :: ns), hord, ha, p, q, h => by
    rw [anchorOf] at ha
    obtain ⟨m, hm, -⟩ := h
    exact anchorOf_holds n (hord.child (by simp [Node.children])) ha p m hm
  | .alternation _ (n :: ns), hord, ha, p, q, h => by
    rw [anchorOf] at ha
    obtain ⟨hn, hns⟩ := anchorOfAll_holds ns (fun c hc => hord.child (List.mem_cons_of_mem _ hc)) ha
    rcases h with h | h
    · exact anchorOf_holds n (hord.child (by simp [Node.children])) hn p q h
    · exact hns p q h
  | .atom _ .empty, _, ha, _, _, _ => by simp [anchorOf] at ha
  | .atom _ (.literal _ _), _, ha, _, _, _ => by simp [anchorOf] at ha
  | .atom _ (.charClass _ _), _, ha, _, _, _ => by simp [anchorOf] at ha
  | .atom _ (.charType _ _ _), _, ha, _, _, _ => by simp [anchorOf] at ha
  | .atom _ (.anyChar _), _, ha, _, _, _ => by simp [anchorOf] at ha
  | .atom _ .keep, _, ha, _, _, _ => by simp [anchorOf] at ha
  | .atom _ (.backref _ _ _), _, ha, _, _, _ => by simp [anchorOf] at ha
  | .atom _ (.call _ _), _, ha, _, _, _ => by simp [anchorOf] at ha
  | .conditional _ _ _ _ _, _, ha, _, _, _ => by simp [anchorOf] at ha
  | .look _ _ _, _, ha, _, _, _ => by simp [anchorOf] at ha
  | .sequence _ [], _, ha, _, _, _ => by simp [anchorOf] at ha
  | .alternation _ [], _, ha, _, _, _ => by simp [anchorOf] at ha

/-- Anchors that branches have in common hold wherever one of them begins. -/
theorem anchorOfAll_holds {a : StartAnchor} {acc : FlagSet StartAnchor} :
    ∀ ns : List (Node Measured), (∀ n ∈ ns, n.Ordered) → (anchorOfAll acc ns).has a = true →
      acc.has a = true ∧ ∀ p q, rd.inline.extentSome calls ns p q →
        rd.subject.holds rd.origin p a.anchor = true
  | [], _, ha => ⟨ha, fun _ _ h => h.elim⟩
  | n :: ns, hord, ha => by
    rw [anchorOfAll] at ha
    obtain ⟨hacc, hns⟩ := anchorOfAll_holds ns (fun c hc => hord c (List.mem_cons_of_mem _ hc)) ha
    rw [FlagSet.has_inter, Bool.and_eq_true] at hacc
    refine ⟨hacc.1, fun p q h => ?_⟩
    rcases h with h | h
    · exact anchorOf_holds n (hord n (by simp)) hacc.2 p q h
    · exact hns p q h

end

/-! ## Texts -/

mutual

/-- The text that matches are said to begin with stands wherever one begins. -/
theorem leadingOf_startsAt {lit : Bytes} :
    ∀ n : Node Measured, leadingOf n = some lit → ∀ p q, rd.inline.extent calls n p q →
      rd.subject.bytes.startsAt p lit = true
  | .atom _ (.literal bytes false), hn, p, q, h => by
    rw [leadingOf] at hn
    split at hn
    · cases hn
    · rename_i hempty
      cases hn
      obtain ⟨k, hk, -⟩ := h
      simp only [literalLength?, hempty, Bool.false_eq_true, ↓reduceIte] at hk
      exact (Subject.textLength?_eq hk).1
  | .group _ (.capture _ _) body, hn, p, q, h => by
    simp only [leadingOf, Grouping.isTransparent, ↓reduceIte] at hn
    exact leadingOf_startsAt body hn p q h
  | .group _ .plain body, hn, p, q, h => by
    simp only [leadingOf, Grouping.isTransparent, ↓reduceIte] at hn
    exact leadingOf_startsAt body hn p q h
  | .group _ .atomic body, hn, p, q, h => by
    simp only [leadingOf, Grouping.isTransparent, ↓reduceIte] at hn
    exact leadingOf_startsAt body hn p q h
  | .group _ .absent body, hn, _, _, _ => by
    simp [leadingOf, Grouping.isTransparent] at hn
  | .sequence _ items, hn, p, q, h => by
    rw [leadingOf] at hn
    exact leadingOfFirst_startsAt items hn p q h
  | .atom _ (.literal _ true), hn, _, _, _ => by simp [leadingOf] at hn
  | .atom _ .empty, hn, _, _, _ => by simp [leadingOf] at hn
  | .atom _ (.charClass _ _), hn, _, _, _ => by simp [leadingOf] at hn
  | .atom _ (.charType _ _ _), hn, _, _, _ => by simp [leadingOf] at hn
  | .atom _ (.anyChar _), hn, _, _, _ => by simp [leadingOf] at hn
  | .atom _ (.anchor _), hn, _, _, _ => by simp [leadingOf] at hn
  | .atom _ .keep, hn, _, _, _ => by simp [leadingOf] at hn
  | .atom _ (.backref _ _ _), hn, _, _, _ => by simp [leadingOf] at hn
  | .atom _ (.call _ _), hn, _, _, _ => by simp [leadingOf] at hn
  | .repeated _ _ _ _, hn, _, _, _ => by simp [leadingOf] at hn
  | .conditional _ _ _ _ _, hn, _, _, _ => by simp [leadingOf] at hn
  | .look _ _ _, hn, _, _, _ => by simp [leadingOf] at hn
  | .alternation _ _, hn, _, _, _ => by simp [leadingOf] at hn

theorem leadingOfFirst_startsAt {lit : Bytes} :
    ∀ ns : List (Node Measured), leadingOfFirst ns = some lit → ∀ p q,
      rd.inline.extentAll calls ns p q → rd.subject.bytes.startsAt p lit = true
  | [], hn, _, _, _ => by simp [leadingOfFirst] at hn
  | n :: ns, hn, p, q, h => by
    obtain ⟨m, hm, h⟩ := h
    rw [leadingOfFirst] at hn
    split at hn
    · rename_i hz
      obtain rfl := extent_isZeroWidth hz hm
      exact leadingOfFirst_startsAt ns hn p q h
    · exact leadingOf_startsAt n hn p m hm

end

/-! ## First bytes -/

/-- A byte of the set stands at a place. -/
def Meets (t : Subject) (set : ByteSet) (p : Nat) : Prop :=
  ∃ b, t.bytes[p]? = some b ∧ set.has b = true

theorem Meets.union_left {t : Subject} {s u : ByteSet} {p : Nat} (h : Meets t s p) :
    Meets t (s.union u) p := by
  obtain ⟨b, hb, hs⟩ := h
  refine ⟨b, hb, ?_⟩
  rw [ByteSet.union, ByteSet.has_ofPred, UInt8.ofNat_toNat, hs, Bool.true_or]

theorem Meets.union_right {t : Subject} {s u : ByteSet} {p : Nat} (h : Meets t u p) :
    Meets t (s.union u) p := by
  obtain ⟨b, hb, hu⟩ := h
  refine ⟨b, hb, ?_⟩
  rw [ByteSet.union, ByteSet.has_ofPred, UInt8.ofNat_toNat, hu, Bool.or_true]

/-- A text that stands at a place begins with the byte there. -/
theorem startsAt_first {b lit : Bytes} {p : Nat} {y : UInt8} (hy : lit[0]? = some y)
    (h : b.startsAt p lit = true) : b[p]? = some y := by
  have hsize : 0 < lit.size := (Array.getElem?_eq_some_iff.mp hy).1
  obtain ⟨n, hn⟩ : ∃ n, lit.size = n + 1 := ⟨lit.size - 1, by omega⟩
  rw [Bytes.startsAt, hn, Bytes.agree, hy] at h
  cases hx : b[p]? with
  | none =>
    rw [hx] at h
    cases h
  | some x =>
    rw [hx, Bool.and_eq_true, beq_iff_eq] at h
    rw [h.1]

section
variable {t : Subject} {e : Encoding} {p : Nat} {set : ByteSet}

/-- Only characters whose code is their first byte are in a class of first bytes. -/
theorem classFirstBytes_meets {ranges : List CodeRange} {negated : Bool}
    (h : classFirstBytes t.encoding ranges negated = some set) (hwell : t.WellFormed)
    (hb : t.isBoundary p = true) {n : Nat}
    (hn : t.classLength? p (CharClass.ofRanges ranges negated) = some n) : Meets t set p := by
  unfold classFirstBytes at h
  dsimp only at h
  generalize CharClass.ofRanges ranges negated = k at h hn
  split at h
  · cases h
  rename_i hlow
  cases h
  simp only [Bool.or_eq_true, Bool.and_eq_true, Bool.not_eq_true', not_or, not_and,
    Bool.not_eq_true, List.any_eq_false, decide_eq_true_eq] at hlow
  obtain ⟨hhigh, hlow⟩ := hlow
  have hp : p < t.size := by
    have := Subject.classLength?_bounds hn
    omega
  obtain ⟨c, y, tail, henc, hspell, -, hhas, hdec⟩ := (hwell.charAt hb hp).spelled
  rw [Subject.classLength?, hdec, Option.bind_some] at hn
  have hmember : k.contains c = true := by
    by_contra hk
    simp [hk] at hn
  simp only [CharClass.hasHigh, Bool.or_eq_false_iff, Bool.not_eq_false'] at hhigh
  obtain ⟨hneg, hempty⟩ := hhigh
  have hhigh : k.high = #[] := by simpa [Array.isEmpty_iff] using hempty
  have hmembers : k.lowMembers = k.low := by simp [CharClass.lowMembers, hneg]
  have hc : c < 256 ∧ k.low.has (UInt8.ofNat c) = true := by
    unfold CharClass.contains at hmember
    rw [hneg, bne_iff_ne, ne_eq, Bool.not_eq_false] at hmember
    split at hmember
    · exact ⟨‹_›, hmember⟩
    · rw [hhigh] at hmember
      cases hmember
  obtain ⟨hc, hhas'⟩ := hc
  have hbyte : t.bytes[p]? = some y := hhas.get? (k := 0) (by simp)
  refine ⟨y, hbyte, ?_⟩
  rw [hmembers]
  suffices hy : y = UInt8.ofNat c by rwa [hy]
  by_cases he : t.encoding = .utf8
  · have hlt : c < 0x80 := by
      by_contra hge
      refine hlow (by rw [he]; rfl) (UInt8.ofNat c) ?_ ?_
      · rw [hmembers, ByteSet.toList, List.mem_filter]
        exact ⟨List.mem_map.mpr ⟨c, List.mem_range.mpr hc, rfl⟩, hhas'⟩
      · rw [UInt8.le_iff_toNat_le, Encoding.toNat_ofNat hc]
        simpa using hge
    rw [he] at henc
    obtain ⟨-, hx⟩ := Encoding.encode_utf8 henc
    simp only [Encoding.utf8Bytes, hlt, ↓reduceIte, List.cons.injEq] at hx
    exact hx.1
  · exact (List.cons.inj (Encoding.encode_single he henc).2).1

end

theorem literalFirstBytes_meets (hrd : rd.subject.encoding = rd.encoding)
    (hwell : rd.subject.WellFormed) {bytes : Bytes} {fold : Bool} {set : ByteSet}
    (h : literalFirstBytes rd.encoding bytes fold = some set) {p n : Nat}
    (hb : rd.subject.isBoundary p = true) (hn : rd.literalLength? bytes fold p = some n) :
    Meets rd.subject set p := by
  unfold literalFirstBytes at h
  cases hy : bytes[0]? with
  | none =>
    rw [hy] at h
    cases h
  | some y =>
    rw [hy] at h
    have hsize : 0 < bytes.size := (Array.getElem?_eq_some_iff.mp hy).1
    have hempty : bytes.isEmpty = false := by simpa [Array.isEmpty] using Nat.pos_iff_ne_zero.mp hsize
    cases fold with
    | false =>
      simp only [Bool.false_eq_true, ↓reduceIte, Option.some.injEq] at h
      simp only [literalLength?, hempty, Bool.false_eq_true, ↓reduceIte] at hn
      subst h
      refine ⟨y, startsAt_first hy (Subject.textLength?_eq hn).1, ?_⟩
      rw [ByteSet.has_ofList]
      exact List.mem_singleton.mpr rfl
    | true =>
      simp only [↓reduceIte] at h
      simp only [literalLength?, hempty, Bool.false_eq_true, ↓reduceIte] at hn
      have hp : p < rd.subject.size := by
        by_contra hge
        have hfolded := Encoding.foldBytes_size_pos rd.encoding hsize
        obtain ⟨j, hj, -⟩ := Option.map_eq_some_iff.mp hn
        rw [Subject.foldedEnd?, if_neg (by omega), dif_neg hge] at hj
        cases hj
      have hfolds := Subject.foldedLength?_foldsTo hn
      rw [hrd] at hfolds
      exact foldedFirstBytes_sound h hsize hrd (hwell.charAt hb hp) hfolds

mutual

/-- The byte where a match begins is one of the first bytes of the tree. -/
theorem firstBytesOf_meets (hrd : rd.subject.encoding = rd.encoding)
    (hwell : rd.subject.WellFormed) {set : ByteSet} :
    ∀ n : Node Measured, n.Proper → firstBytesOf rd.encoding n = some set → ∀ p q,
      rd.subject.isBoundary p = true → rd.inline.extent calls n p q → Meets rd.subject set p
  | .atom _ (.literal bytes fold), _, hn, p, q, hb, h => by
    rw [firstBytesOf] at hn
    obtain ⟨k, hk, -⟩ := h
    exact literalFirstBytes_meets hrd hwell hn hb hk
  | .atom _ (.charClass ranges negated), _, hn, p, q, hb, h => by
    rw [firstBytesOf, ← hrd] at hn
    obtain ⟨k, hk, -⟩ := h
    exact classFirstBytes_meets hn hwell hb hk
  | .repeated _ b _ body, hpr, hn, p, q, hb, h => by
    rw [firstBytesOf] at hn
    split at hn
    · rename_i hmin
      simp only [extent] at h
      rw [Node.Ordered.least_eq hpr.ordered] at h
      obtain ⟨m, hm⟩ := h.first hmin
      exact firstBytesOf_meets hrd hwell body (hpr.child (List.mem_singleton.mpr rfl)) hn p m hb hm
    · cases hn
  | .group _ (.capture _ _) body, hpr, hn, p, q, hb, h => by
    simp only [firstBytesOf, Grouping.isTransparent, ↓reduceIte] at hn
    exact firstBytesOf_meets hrd hwell body (hpr.child (List.mem_singleton.mpr rfl)) hn p q hb h
  | .group _ .plain body, hpr, hn, p, q, hb, h => by
    simp only [firstBytesOf, Grouping.isTransparent, ↓reduceIte] at hn
    exact firstBytesOf_meets hrd hwell body (hpr.child (List.mem_singleton.mpr rfl)) hn p q hb h
  | .group _ .atomic body, hpr, hn, p, q, hb, h => by
    simp only [firstBytesOf, Grouping.isTransparent, ↓reduceIte] at hn
    exact firstBytesOf_meets hrd hwell body (hpr.child (List.mem_singleton.mpr rfl)) hn p q hb h
  | .group _ .absent body, _, hn, _, _, _, _ => by
    simp [firstBytesOf, Grouping.isTransparent] at hn
  | .sequence _ items, hpr, hn, p, q, hb, h => by
    rw [firstBytesOf] at hn
    exact firstBytesOfFirst_meets hrd hwell items (fun c hc => hpr.child hc) hn p q hb h
  | .alternation _ [], hpr, _, _, _, _, _ => by
    have := hpr.self
    simp [Node.isProper, Node.hasBranches] at this
  | .alternation _ (n :: ns), hpr, hn, p, q, hb, h => by
    rw [firstBytesOf] at hn
    exact (firstBytesOfAll_meets hrd hwell (n :: ns) (fun c hc => hpr.child hc) hn p hb).2 q h
  | .atom _ .empty, _, hn, _, _, _, _ => by simp [firstBytesOf] at hn
  | .atom _ (.charType _ _ _), _, hn, _, _, _, _ => by simp [firstBytesOf] at hn
  | .atom _ (.anyChar _), _, hn, _, _, _, _ => by simp [firstBytesOf] at hn
  | .atom _ (.anchor _), _, hn, _, _, _, _ => by simp [firstBytesOf] at hn
  | .atom _ .keep, _, hn, _, _, _, _ => by simp [firstBytesOf] at hn
  | .atom _ (.backref _ _ _), _, hn, _, _, _, _ => by simp [firstBytesOf] at hn
  | .atom _ (.call _ _), _, hn, _, _, _, _ => by simp [firstBytesOf] at hn
  | .conditional _ _ _ _ _, _, hn, _, _, _, _ => by simp [firstBytesOf] at hn
  | .look _ _ _, _, hn, _, _, _, _ => by simp [firstBytesOf] at hn

theorem firstBytesOfFirst_meets (hrd : rd.subject.encoding = rd.encoding)
    (hwell : rd.subject.WellFormed) {set : ByteSet} :
    ∀ ns : List (Node Measured), (∀ n ∈ ns, n.Proper) →
      firstBytesOfFirst rd.encoding ns = some set → ∀ p q, rd.subject.isBoundary p = true →
        rd.inline.extentAll calls ns p q → Meets rd.subject set p
  | [], _, hn, _, _, _, _ => by simp [firstBytesOfFirst] at hn
  | n :: ns, hpr, hn, p, q, hb, h => by
    obtain ⟨m, hm, h⟩ := h
    rw [firstBytesOfFirst] at hn
    split at hn
    · rename_i hz
      obtain rfl := extent_isZeroWidth hz hm
      exact firstBytesOfFirst_meets hrd hwell ns (fun c hc => hpr c (List.mem_cons_of_mem _ hc)) hn p
        q hb h
    · split at hn
      · cases hn
      · exact firstBytesOf_meets hrd hwell n (hpr n (by simp)) hn p m hb hm

/-- The bytes of branches hold those of each of them. -/
theorem firstBytesOfAll_meets (hrd : rd.subject.encoding = rd.encoding)
    (hwell : rd.subject.WellFormed) {acc set : ByteSet} :
    ∀ ns : List (Node Measured), (∀ n ∈ ns, n.Proper) →
      firstBytesOfAll rd.encoding acc ns = some set → ∀ p, rd.subject.isBoundary p = true →
        (Meets rd.subject acc p → Meets rd.subject set p) ∧
          ∀ q, rd.inline.extentSome calls ns p q → Meets rd.subject set p
  | [], _, hn, p, _ => by
    rw [firstBytesOfAll, Option.some.injEq] at hn
    subst hn
    exact ⟨id, fun _ h => h.elim⟩
  | n :: ns, hpr, hn, p, hb => by
    rw [firstBytesOfAll] at hn
    split at hn
    · cases hn
    split at hn
    · cases hn
    rename_i s hs
    obtain ⟨hacc, hns⟩ := firstBytesOfAll_meets hrd hwell ns
      (fun c hc => hpr c (List.mem_cons_of_mem _ hc)) hn p hb
    refine ⟨fun h => hacc h.union_left, fun q h => ?_⟩
    rcases h with h | h
    · exact hacc (firstBytesOf_meets hrd hwell n (hpr n (by simp)) hs p q hb h).union_right
    · exact hns q h

end

end Hints
end RegexMachine
