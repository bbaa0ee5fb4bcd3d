import RegexMachine.Proofs.Lengths

/-!
The extents of a pattern tree: from which place to which a match of it can go. They say less than
ways do, since they know nothing of order and of what groups hold. In return every tree has them,
one with references, calls and the absent operator too.
-/
namespace RegexMachine

/-- Places that a match can go from and to. -/
abbrev Extent := Nat → Nat → Prop

/-- What the extents of a tree depend on, besides those of the groups it calls. -/
structure Reading where
  subject : Subject
  /-- Where the search began. -/
  origin : Nat
  /-- Encoding that literals have been folded in. -/
  encoding : Encoding
  /-- Groups that are called wherever they stand. -/
  called : Nat → Bool

/-- The least number of rounds that bounds allow. -/
def Bounds.least (b : Bounds) : Nat :=
  match b.max with
  | none => b.min
  | some m => Nat.min b.min m

theorem Bounds.least_le_min (b : Bounds) : b.least ≤ b.min := by
  unfold least
  cases b.max with
  | none => exact Nat.le_refl _
  | some m => exact Nat.min_le_left ..

theorem Bounds.least_le {b : Bounds} {k : Nat} (h : (decide (b.min ≤ k) || b.max.any (· ≤ k)) = true) :
    b.least ≤ k := by
  unfold least
  cases hmax : b.max with
  | none => simpa [hmax] using h
  | some m =>
    have h : b.min ≤ k ∨ m ≤ k := by simpa [hmax] using h
    rcases h with h | h
    · exact Nat.le_trans (Nat.min_le_left _ _) h
    · exact Nat.le_trans (Nat.min_le_right _ _) h

namespace Extent

def here : Extent := fun p q => p = q

/-- Not back, and not beyond the end of a text of some size. -/
def onward (size : Nat) : Extent := fun p q => p ≤ q ∧ q ≤ max p size

/-- A text whose length depends on the place. -/
def text (width : Nat → Option Nat) : Extent := fun p q => ∃ n, width p = some n ∧ q = p + n

/-- A condition on the place. -/
def holds (c : Nat → Bool) : Extent := fun p q => c p = true ∧ p = q

def andThen (f g : Extent) : Extent := fun p q => ∃ m, f p m ∧ g m q

def orElse (f g : Extent) : Extent := fun p q => f p q ∨ g p q

/-- Exactly `n` rounds. -/
def times (f : Extent) : Nat → Extent
  | 0 => here
  | n + 1 => f.andThen (times f n)

/-- At least `n` rounds. -/
def atLeast (n : Nat) (f : Extent) : Extent := fun p q => ∃ k, n ≤ k ∧ f.times k p q

variable {f f' g g' : Extent} {m n k p q r : Nat}

theorem andThen_mono (hf : ∀ p q, f p q → f' p q) (hg : ∀ p q, g p q → g' p q)
    (h : f.andThen g p q) : f'.andThen g' p q := by
  obtain ⟨m, hm, hq⟩ := h
  exact ⟨m, hf _ _ hm, hg _ _ hq⟩

theorem times_mono (hf : ∀ p q, f p q → f' p q) (h : f.times n p q) : f'.times n p q := by
  induction n generalizing p with
  | zero => exact h
  | succ n ih =>
    obtain ⟨m, hm, h⟩ := h
    exact ⟨m, hf _ _ hm, ih h⟩

theorem atLeast_mono (hf : ∀ p q, f p q → f' p q) (h : f.atLeast n p q) :
    f'.atLeast n p q := by
  obtain ⟨k, hk, h⟩ := h
  exact ⟨k, hk, times_mono hf h⟩

theorem times_add (h : f.times m p q) (h' : f.times n q r) : f.times (m + n) p r := by
  induction m generalizing p with
  | zero =>
    obtain rfl : p = q := h
    rwa [Nat.zero_add]
  | succ m ih =>
    obtain ⟨w, hw, h⟩ := h
    rw [Nat.add_right_comm]
    exact ⟨w, hw, ih h⟩

theorem times_one (h : f p q) : f.times 1 p q := ⟨q, h, rfl⟩

theorem times_snoc (h : f.times n p q) (h' : f q r) : f.times (n + 1) p r :=
  times_add h (times_one h')

/-- A round that stays where it is can be made any number of times. -/
theorem times_stay (h : f p p) (n : Nat) : f.times n p p := by
  induction n with
  | zero => rfl
  | succ n ih => exact ⟨p, h, ih⟩

/-- Rounds the last of which stays where it is are as many as are wanted. -/
theorem atLeast_of_stay (h : f.times k p q) (hstay : f q q) (n : Nat) : f.atLeast n p q :=
  ⟨k + n, Nat.le_add_left n k, times_add h (times_stay hstay n)⟩

theorem atLeast.weaken (h : f.atLeast n p q) (hm : m ≤ n) : f.atLeast m p q := by
  obtain ⟨k, hk, h⟩ := h
  exact ⟨k, Nat.le_trans hm hk, h⟩

theorem onward_refl (size p : Nat) : onward size p p :=
  ⟨Nat.le_refl p, Nat.le_max_left p size⟩

theorem onward_of_eq {size : Nat} (h : p = q) : onward size p q := h ▸ onward_refl size p

theorem onward_trans {size : Nat} (h : onward size p q) (h' : onward size q r) :
    onward size p r := by
  obtain ⟨hle, hmax⟩ := h
  obtain ⟨hle', hmax'⟩ := h'
  exact ⟨by omega, by omega⟩

theorem onward_of_le {size : Nat} (h : p + n ≤ size) : onward size p (p + n) :=
  ⟨Nat.le_add_right p n, Nat.le_trans h (Nat.le_max_right p size)⟩

theorem text_onward {size : Nat} {width : Nat → Option Nat}
    (hw : ∀ p n, width p = some n → onward size p (p + n)) (h : text width p q) :
    onward size p q := by
  obtain ⟨n, hn, rfl⟩ := h
  exact hw p n hn

theorem times_onward {size : Nat} (hf : ∀ p q, f p q → onward size p q) (h : f.times n p q) :
    onward size p q := by
  induction n generalizing p with
  | zero => exact onward_of_eq h
  | succ n ih =>
    obtain ⟨m, hm, h⟩ := h
    exact onward_trans (hf _ _ hm) (ih h)

end Extent

namespace Subject

variable {s : Subject} {i n : Nat}

theorem textLength?_onward {lit : Bytes} (h : s.textLength? i lit = some n) :
    Extent.onward s.size i (i + n) := by
  by_cases hi : i ≤ s.size
  · exact Extent.onward_of_le (textLength?_le h hi)
  · obtain ⟨hagree, rfl⟩ := textLength?_eq h
    unfold Bytes.startsAt at hagree
    cases hsize : lit.size with
    | zero => exact Extent.onward_refl _ i
    | succ k =>
      have hnone : s.bytes[i]? = none := by
        rw [Array.getElem?_eq_none_iff]
        exact Nat.le_of_not_le hi
      rw [hsize, Bytes.agree, hnone] at hagree
      cases hagree

theorem foldedLength?_onward {folded : Bytes} (h : s.foldedLength? i folded = some n) :
    Extent.onward s.size i (i + n) := by
  by_cases hi : i ≤ s.size
  · exact Extent.onward_of_le (foldedLength?_bounds h hi).1
  · obtain ⟨j, hj, rfl⟩ := Option.map_eq_some_iff.mp h
    rw [foldedEnd?, dif_neg (by omega)] at hj
    split at hj
    · split at hj
      · cases hj
        rw [Nat.sub_self]
        exact Extent.onward_refl _ i
      · cases hj
    · cases hj

theorem copyLength?_onward {span : Span} {fold : Bool} (h : s.copyLength? i span fold = some n) :
    Extent.onward s.size i (i + n) := by
  obtain ⟨t, -, h⟩ := Option.bind_eq_some_iff.mp h
  split at h
  · exact foldedLength?_onward h
  · exact textLength?_onward h

end Subject

namespace Reading

variable (rd : Reading)

/-- Length of a literal at a place. -/
def literalLength? (bytes : Bytes) (fold : Bool) (i : Nat) : Option Nat :=
  if bytes.isEmpty then some 0
  else if fold then rd.subject.foldedLength? i (rd.encoding.foldBytes bytes)
  else rd.subject.textLength? i bytes

def atomExtent (calls : Nat → Extent) : Atom → Extent
  | .empty => .here
  | .literal bytes fold => .text (rd.literalLength? bytes fold)
  | .charClass ranges negated =>
    .text (rd.subject.classLength? · (CharClass.ofRanges ranges negated))
  | .charType type negated ascii => .text (rd.subject.typeLength? · type negated ascii)
  | .anyChar multiline => .text (rd.subject.anyLength? · multiline)
  | .anchor a => .holds (rd.subject.holds rd.origin · a)
  | .keep => .here
  | .backref _ _ _ => .onward rd.subject.size
  | .call _ g => calls g

variable {α β : Type}

mutual

/-- The extents of a tree. -/
def extent (calls : Nat → Extent) : Node α → Extent
  | .atom _ a => rd.atomExtent calls a
  | .repeated _ b _ body => (extent calls body).atLeast b.least
  | .group _ (.capture g _) body => if rd.called g then calls g else extent calls body
  | .group _ .plain body => extent calls body
  | .group _ .atomic body => extent calls body
  | .group _ .absent _ => .onward rd.subject.size
  | .conditional _ _ _ yes no => (extent calls yes).orElse (extentOption calls no)
  | .look _ _ _ => .here
  | .sequence _ items => extentAll calls items
  | .alternation _ [] => .here
  | .alternation _ (n :: ns) => (extent calls n).orElse (extentSome calls ns)

def extentOption (calls : Nat → Extent) : Option (Node α) → Extent
  | none => .here
  | some n => extent calls n

/-- The extents of items in order. -/
def extentAll (calls : Nat → Extent) : List (Node α) → Extent
  | [] => .here
  | n :: ns => (extent calls n).andThen (extentAll calls ns)

/-- The extents of branches. -/
def extentSome (calls : Nat → Extent) : List (Node α) → Extent
  | [] => fun _ _ => False
  | n :: ns => (extent calls n).orElse (extentSome calls ns)

end

variable {rd} {calls calls' : Nat → Extent}

theorem atomExtent_mono (h : ∀ g p q, calls g p q → calls' g p q) (a : Atom) {p q : Nat}
    (hp : rd.atomExtent calls a p q) : rd.atomExtent calls' a p q := by
  cases a with
  | call t g => exact h g p q hp
  | _ => exact hp

mutual

/-- The more calls can match, the more the tree can. -/
theorem extent_mono (h : ∀ g p q, calls g p q → calls' g p q) :
    ∀ (n : Node α) (p q : Nat), rd.extent calls n p q → rd.extent calls' n p q
  | .atom _ a, _, _, hp => atomExtent_mono h a hp
  | .repeated _ _ _ body, _, _, hp => Extent.atLeast_mono (extent_mono h body) hp
  | .group _ (.capture g _) body, p, q, hp => by
    simp only [extent] at hp ⊢
    split
    · rename_i hg
      rw [if_pos hg] at hp
      exact h g p q hp
    · rename_i hg
      rw [if_neg hg] at hp
      exact extent_mono h body p q hp
  | .group _ .plain body, p, q, hp => extent_mono h body p q hp
  | .group _ .atomic body, p, q, hp => extent_mono h body p q hp
  | .group _ .absent _, _, _, hp => hp
  | .conditional _ _ _ yes no, p, q, hp =>
    hp.imp (extent_mono h yes p q) (extentOption_mono h no p q)
  | .look _ _ _, _, _, hp => hp
  | .sequence _ items, p, q, hp => extentAll_mono h items p q hp
  | .alternation _ [], _, _, hp => hp
  | .alternation _ (n :: ns), p, q, hp =>
    hp.imp (extent_mono h n p q) (extentSome_mono h ns p q)

theorem extentOption_mono (h : ∀ g p q, calls g p q → calls' g p q) :
    ∀ (no : Option (Node α)) (p q : Nat),
      rd.extentOption calls no p q → rd.extentOption calls' no p q
  | none, _, _, hp => hp
  | some n, p, q, hp => extent_mono h n p q hp

theorem extentAll_mono (h : ∀ g p q, calls g p q → calls' g p q) :
    ∀ (ns : List (Node α)) (p q : Nat),
      rd.extentAll calls ns p q → rd.extentAll calls' ns p q
  | [], _, _, hp => hp
  | n :: ns, _, _, hp => Extent.andThen_mono (extent_mono h n) (extentAll_mono h ns) hp

theorem extentSome_mono (h : ∀ g p q, calls g p q → calls' g p q) :
    ∀ (ns : List (Node α)) (p q : Nat),
      rd.extentSome calls ns p q → rd.extentSome calls' ns p q
  | [], _, _, hp => hp
  | n :: ns, p, q, hp => hp.imp (extent_mono h n p q) (extentSome_mono h ns p q)

end

/-- Matches of texts end inside the subject. -/
theorem literalLength?_onward {bytes : Bytes} {fold : Bool} {p n : Nat}
    (h : rd.literalLength? bytes fold p = some n) :
    Extent.onward rd.subject.size p (p + n) := by
  unfold literalLength? at h
  split at h
  · cases h
    exact Extent.onward_refl _ p
  · split at h
    · exact Subject.foldedLength?_onward h
    · exact Subject.textLength?_onward h

theorem atomExtent_onward (h : ∀ g p q, calls g p q → Extent.onward rd.subject.size p q)
    (a : Atom) {p q : Nat} (hp : rd.atomExtent calls a p q) :
    Extent.onward rd.subject.size p q := by
  cases a with
  | empty => exact Extent.onward_of_eq hp
  | keep => exact Extent.onward_of_eq hp
  | anchor a => exact Extent.onward_of_eq hp.2
  | backref t gs fold => exact hp
  | call t g => exact h g p q hp
  | literal bytes fold => exact Extent.text_onward (fun _ _ => literalLength?_onward) hp
  | charClass ranges negated =>
    exact Extent.text_onward
      (fun _ _ hn => Extent.onward_of_le (Subject.classLength?_bounds hn).1) hp
  | charType type negated ascii =>
    exact Extent.text_onward
      (fun _ _ hn => Extent.onward_of_le (Subject.typeLength?_bounds hn).1) hp
  | anyChar multiline =>
    exact Extent.text_onward (fun _ _ hn => Extent.onward_of_le (Subject.anyLength?_bounds hn).1) hp

mutual

/-- Matches go forward, and end inside the subject. -/
theorem extent_onward (h : ∀ g p q, calls g p q → Extent.onward rd.subject.size p q) :
    ∀ (n : Node α) (p q : Nat), rd.extent calls n p q → Extent.onward rd.subject.size p q
  | .atom _ a, _, _, hp => atomExtent_onward h a hp
  | .repeated _ _ _ body, _, _, hp => by
    obtain ⟨k, -, hk⟩ := hp
    exact Extent.times_onward (extent_onward h body) hk
  | .group _ (.capture g _) body, p, q, hp => by
    simp only [extent] at hp
    split at hp
    · exact h g p q hp
    · exact extent_onward h body p q hp
  | .group _ .plain body, p, q, hp => extent_onward h body p q hp
  | .group _ .atomic body, p, q, hp => extent_onward h body p q hp
  | .group _ .absent _, _, _, hp => hp
  | .conditional _ _ _ yes no, p, q, hp =>
    hp.elim (extent_onward h yes p q) (extentOption_onward h no p q)
  | .look _ _ _, _, _, hp => Extent.onward_of_eq hp
  | .sequence _ items, p, q, hp => extentAll_onward h items p q hp
  | .alternation _ [], _, _, hp => Extent.onward_of_eq hp
  | .alternation _ (n :: ns), p, q, hp =>
    hp.elim (extent_onward h n p q) (extentSome_onward h ns p q)

theorem extentOption_onward (h : ∀ g p q, calls g p q → Extent.onward rd.subject.size p q) :
    ∀ (no : Option (Node α)) (p q : Nat),
      rd.extentOption calls no p q → Extent.onward rd.subject.size p q
  | none, _, _, hp => Extent.onward_of_eq hp
  | some n, p, q, hp => extent_onward h n p q hp

theorem extentAll_onward (h : ∀ g p q, calls g p q → Extent.onward rd.subject.size p q) :
    ∀ (ns : List (Node α)) (p q : Nat),
      rd.extentAll calls ns p q → Extent.onward rd.subject.size p q
  | [], _, _, hp => Extent.onward_of_eq hp
  | n :: ns, p, q, hp => by
    obtain ⟨m, hm, hp⟩ := hp
    exact Extent.onward_trans (extent_onward h n p m hm) (extentAll_onward h ns m q hp)

theorem extentSome_onward (h : ∀ g p q, calls g p q → Extent.onward rd.subject.size p q) :
    ∀ (ns : List (Node α)) (p q : Nat),
      rd.extentSome calls ns p q → Extent.onward rd.subject.size p q
  | [], _, _, hp => hp.elim
  | n :: ns, p, q, hp => hp.elim (extent_onward h n p q) (extentSome_onward h ns p q)

end

/-! ## Calls -/

/-- The least extents of calls that have those of the bodies called. -/
def callExtent (rd : Reading) (body? : Nat → Option (Node α)) (g : Nat) : Extent := fun p q =>
  ∀ calls : Nat → Extent,
    (∀ g n, body? g = some n → ∀ p q, rd.extent calls n p q → calls g p q) → calls g p q

theorem callExtent_of_body {body? : Nat → Option (Node α)} {g : Nat} {n : Node α}
    (hn : body? g = some n) {p q : Nat} (h : rd.extent (rd.callExtent body?) n p q) :
    rd.callExtent body? g p q := fun calls hcalls =>
  hcalls g n hn p q (extent_mono (fun _ _ _ hc => hc calls hcalls) n p q h)

/-- What holds of the bodies of groups if it holds of the calls in them holds of all calls. -/
theorem callExtent_induction {body? : Nat → Option (Node α)} {Q : Nat → Extent}
    (h : ∀ g n, body? g = some n → ∀ p q, rd.extent Q n p q → Q g p q) {g p q : Nat}
    (hc : rd.callExtent body? g p q) : Q g p q := hc Q h

/-- A call has only the extents of the body called. -/
theorem callExtent_body {body? : Nat → Option (Node α)} {g p q : Nat}
    (h : rd.callExtent body? g p q) :
    ∃ n, body? g = some n ∧ rd.extent (rd.callExtent body?) n p q := by
  refine callExtent_induction (Q := fun g p q =>
    ∃ n, body? g = some n ∧ rd.extent (rd.callExtent body?) n p q) (fun g n hn p q h => ?_) h
  refine ⟨n, hn, extent_mono (fun g p q hc => ?_) n p q h⟩
  obtain ⟨m, hm, hc⟩ := hc
  exact callExtent_of_body hm hc

theorem callExtent_onward {body? : Nat → Option (Node α)} {g p q : Nat}
    (h : rd.callExtent body? g p q) : Extent.onward rd.subject.size p q :=
  callExtent_induction (Q := fun _ => .onward rd.subject.size)
    (fun _ n _ p q => extent_onward (fun _ _ _ h => h) n p q) h

end Reading
end RegexMachine
