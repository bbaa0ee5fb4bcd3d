import RegexMachine.Machine.Backtrack

/-!
Stacks that code leaves behind when it has come to its end. The regions it opened are closed, so a
search for a marker passes over all of them, and the frames restore what the code has written.
-/
namespace RegexMachine

/-- What frames undo when they are popped from the top on. -/
def Machine.Registers.undoAll (p : Program) (frames : List Frame) (r : Machine.Registers) :
    Machine.Registers :=
  frames.foldl (fun r f => r.undo p f) r

namespace Machine.Registers

@[simp] theorem undoAll_nil (p : Program) (r : Registers) : r.undoAll p [] = r := rfl

@[simp] theorem undoAll_cons (p : Program) (f : Frame) (F : List Frame) (r : Registers) :
    r.undoAll p (f :: F) = (r.undo p f).undoAll p F := rfl

theorem undoAll_append (p : Program) (F G : List Frame) (r : Registers) :
    r.undoAll p (F ++ G) = (r.undoAll p F).undoAll p G :=
  List.foldl_append

theorem undo_of_isChoice (p : Program) (r : Registers) (f : Frame) (h : f.isChoice = true) :
    r.undo p f = r := by
  cases f <;> first | rfl | cases h

@[simp] theorem undo_committed (p : Program) (r : Registers) (f : Frame) :
    r.undo p f.committed = r.undo p f := by
  cases f <;> rfl

theorem undoAll_committed (p : Program) (F : List Frame) (r : Registers) :
    r.undoAll p (F.map Frame.committed) = r.undoAll p F := by
  induction F generalizing r with
  | nil => rfl
  | cons f F ih => simp [ih]

end Machine.Registers

namespace Frame

/-- A frame that completed code can leave outside calls. Markers of regions are gone, and checks of
rounds have numbers from `lo` on. -/
def Plain (lo : Nat) : Frame → Prop
  | look _ _ => False
  | atomic _ => False
  | round c _ => lo ≤ c
  | call _ _ _ => False
  | returned _ _ => False
  | _ => True

theorem Plain.mono {lo lo' : Nat} {f : Frame} (h : f.Plain lo) (hle : lo' ≤ lo) :
    f.Plain lo' := by
  cases f with
  | round c p => exact Nat.le_trans hle h
  | _ => exact h

@[simp] theorem isChoice_committed (f : Frame) : f.committed.isChoice = false := by
  cases f <;> rfl

theorem Plain.committed {lo : Nat} {f : Frame} (h : f.Plain lo) : f.committed.Plain lo := by
  cases f <;> exact h

end Frame

/-- Frames left by completed code: plain ones, and those of calls that have returned. -/
inductive Tidy : Nat → List Frame → Prop
  | nil (lo : Nat) : Tidy lo []
  | frame {lo : Nat} {f : Frame} {F : List Frame} (hf : f.Plain lo) (hF : Tidy lo F) :
      Tidy lo (f :: F)
  | call {lo : Nat} {G F : List Frame} (sub : Nat) (undo : CallState) (back : Addr) (sub' : Nat)
      (saved : CallState) (hG : Tidy 0 G) (hF : Tidy lo F) :
      Tidy lo (.returned sub undo :: (G ++ .call back sub' saved :: F))

namespace Tidy

theorem mono {lo lo' : Nat} {F : List Frame} (h : Tidy lo F) (hle : lo' ≤ lo) : Tidy lo' F := by
  induction h with
  | nil => exact .nil lo'
  | frame hf _ ih => exact .frame (hf.mono hle) (ih hle)
  | call sub undo back sub' saved hG _ _ ih => exact .call sub undo back sub' saved hG (ih hle)

theorem append {lo : Nat} {F G : List Frame} (hF : Tidy lo F) (hG : Tidy lo G) :
    Tidy lo (F ++ G) := by
  induction hF with
  | nil => exact hG
  | frame hf _ ih => exact .frame hf (ih hG)
  | call sub undo back sub' saved hC _ _ ih =>
    simpa using Tidy.call sub undo back sub' saved hC (ih hG)

theorem committed {lo : Nat} {F : List Frame} (h : Tidy lo F) :
    Tidy lo (F.map Frame.committed) := by
  induction h with
  | nil => exact .nil _
  | frame hf _ ih => exact .frame hf.committed ih
  | call sub undo back sub' saved _ _ ihG ihF =>
    simpa [Frame.committed, Frame.isChoice] using Tidy.call sub undo back sub' saved ihG ihF

theorem single {lo : Nat} {f : Frame} (h : f.Plain lo) : Tidy lo [f] := .frame h (.nil lo)

/-- Taking void frames off the top leaves a tidy stack. -/
theorem dropVoids {lo : Nat} {vs F : List Frame} (hv : ∀ f ∈ vs, f = .void)
    (h : Tidy lo (vs ++ F)) : Tidy lo F := by
  induction vs with
  | nil => exact h
  | cons f vs ih =>
    cases hv f (by simp)
    cases h with
    | frame _ hF => exact ih (fun f hf => hv f (by simp [hf])) hF

end Tidy

/-- The second stack is the first with some void frames taken off the top. -/
def Settled (K K' : List Frame) : Prop := ∃ vs : List Frame, (∀ f ∈ vs, f = .void) ∧ K = vs ++ K'

namespace Settled

theorem refl (K : List Frame) : Settled K K := ⟨[], by simp, rfl⟩

theorem trans {K L M : List Frame} (h : Settled K L) (h' : Settled L M) : Settled K M := by
  obtain ⟨vs, hv, rfl⟩ := h
  obtain ⟨ws, hw, rfl⟩ := h'
  refine ⟨vs ++ ws, fun f hf => ?_, by simp⟩
  rcases List.mem_append.mp hf with h | h
  · exact hv f h
  · exact hw f h

theorem dropVoids (K : List Frame) : Settled K (K.dropWhile Frame.isVoid) := by
  refine ⟨K.takeWhile Frame.isVoid, fun f hf => ?_, List.takeWhile_append_dropWhile.symm⟩
  have := List.all_eq_true.mp (List.all_takeWhile (p := Frame.isVoid) (l := K)) f hf
  cases f <;> first | rfl | cases this

/-- A stack whose top is not void stays as it is. -/
theorem eq_of_ne {f : Frame} {K L : List Frame} (h : Settled (f :: K) L) (hf : f ≠ .void) :
    L = f :: K := by
  obtain ⟨vs, hv, he⟩ := h
  cases vs with
  | nil => exact he.symm
  | cons v vs =>
    have : f = v := by simpa using congrArg List.head? he
    exact absurd (this.trans (hv v (by simp))) hf

/-- Void frames taken off a pile come off its upper part first. -/
theorem of_append {F K L : List Frame} (h : Settled (F ++ K) L) :
    (∃ F', Settled F F' ∧ L = F' ++ K) ∨ ((∀ f ∈ F, f = .void) ∧ Settled K L) := by
  obtain ⟨vs, hv, he⟩ := h
  rcases List.append_eq_append_iff.mp he with ⟨ws, rfl, rfl⟩ | ⟨ws, rfl, rfl⟩
  · refine Or.inr ⟨fun f hf => hv f (by simp [hf]), ws, fun f hf => hv f (by simp [hf]), rfl⟩
  · exact Or.inl ⟨ws, ⟨vs, hv, rfl⟩, rfl⟩

end Settled

theorem Machine.Registers.undoAll_voids (p : Program) {vs : List Frame} (hv : ∀ f ∈ vs, f = .void)
    (r : Machine.Registers) : r.undoAll p vs = r := by
  induction vs generalizing r with
  | nil => rfl
  | cons f vs ih =>
    cases hv f (by simp)
    exact ih (fun f hf => hv f (by simp [hf])) r

theorem Machine.Registers.undoAll_settled (p : Program) {F F' : List Frame} (h : Settled F F')
    (r : Machine.Registers) : r.undoAll p F' = r.undoAll p F := by
  obtain ⟨vs, hv, rfl⟩ := h
  rw [undoAll_append, undoAll_voids p hv]

namespace FrameStack

@[ext] theorem ext {s t : FrameStack} (h : s.frames = t.frames) : s = t := by
  cases s with
  | mk F n hn =>
    cases t with
    | mk G m hm =>
      cases h
      cases hn
      cases hm
      rfl

@[simp] theorem push_frames (s : FrameStack) (f : Frame) : (s.push f).frames = f :: s.frames := rfl

@[simp] theorem empty_frames : FrameStack.empty.frames = [] := rfl

/-- A search inside calls that have returned passes over completed code. -/
theorem viewFrom_inside (p : Frame → Bool) {frames : List Frame} {lo : Nat} {F : List Frame}
    (hF : Tidy lo F) (above below : List Frame) (level : Nat)
    (h : above.reverse ++ (F ++ below) = frames) :
    viewFrom p frames above (level + 1) (F ++ below) h =
      viewFrom p frames (F.reverse ++ above) (level + 1) below (by simpa using h) := by
  induction hF generalizing above below level with
  | nil => rfl
  | @frame lo f F hf hF ih =>
    have step : viewFrom p frames above (level + 1) (f :: (F ++ below)) (by simpa using h) =
        viewFrom p frames (f :: above) (level + 1) (F ++ below) (by simpa using h) := by
      cases f with
      | look _ _ => cases hf
      | atomic _ => cases hf
      | call _ _ _ => cases hf
      | returned _ _ => cases hf
      | _ => simp [viewFrom]
    have := ih (f :: above) below level (by simpa using h)
    simp only [List.cons_append, step, this]
    congr 1
    simp
  | @call lo G F sub undo back sub' saved hG hF ihG ihF =>
    simp only [List.cons_append, List.append_assoc, viewFrom]
    rw [ihG]
    simp only [viewFrom, Nat.add_sub_cancel, Nat.add_eq_zero_iff, Nat.one_ne_zero, and_false,
      ↓reduceIte]
    rw [ihF]
    congr 1
    simp

/-- A search for a marker that completed code does not leave passes over its frames. -/
theorem viewFrom_tidy (p : Frame → Bool) {frames : List Frame} {lo : Nat} {F : List Frame}
    (hF : Tidy lo F) (hp : ∀ f : Frame, f.Plain lo → p f = false) (above below : List Frame)
    (h : above.reverse ++ (F ++ below) = frames) :
    viewFrom p frames above 0 (F ++ below) h =
      viewFrom p frames (F.reverse ++ above) 0 below (by simpa using h) := by
  induction hF generalizing above below with
  | nil => rfl
  | @frame lo f F hf hF ih =>
    have hpf := hp f hf
    have step : viewFrom p frames above 0 (f :: (F ++ below)) (by simpa using h) =
        viewFrom p frames (f :: above) 0 (F ++ below) (by simpa using h) := by
      cases f with
      | look _ _ => cases hf
      | atomic _ => cases hf
      | call _ _ _ => cases hf
      | returned _ _ => cases hf
      | _ => simp [viewFrom, hpf]
    have := ih hp (f :: above) below (by simpa using h)
    simp only [List.cons_append, step, this]
    congr 1
    simp
  | @call lo G F sub undo back sub' saved hG hF ihG ihF =>
    simp only [List.cons_append, List.append_assoc, viewFrom]
    rw [viewFrom_inside p hG]
    simp only [viewFrom, Nat.zero_add, Nat.sub_self, Nat.one_ne_zero, ↓reduceIte]
    rw [ihF hp]
    congr 1
    simp

/-- Whether a frame ends an invocation or begins one. -/
def isCallFrame : Frame → Bool
  | .call _ _ _ => true
  | .returned _ _ => true
  | _ => false

theorem viewFrom_here (p : Frame → Bool) {frames : List Frame} (above below : List Frame)
    (f : Frame) (hc : isCallFrame f = false) (hf : p f = true)
    (h : above.reverse ++ f :: below = frames) :
    viewFrom p frames above 0 (f :: below) h = some ⟨above, f, below, h⟩ := by
  cases f <;> simp_all [viewFrom, isCallFrame]

/-- A marker below completed code is found. -/
theorem view?_of_tidy (s : FrameStack) (p : Frame → Bool) {lo : Nat} {F K : List Frame} {f : Frame}
    (hF : Tidy lo F) (hp : ∀ f : Frame, f.Plain lo → p f = false) (hs : s.frames = F ++ f :: K)
    (hc : isCallFrame f = false) (hf : p f = true) :
    ∃ v, s.view? p = some v ∧ v.above = F.reverse ∧ v.frame = f ∧ v.below = K := by
  have key : ∀ (L : List Frame) (h : [].reverse ++ L = s.frames) (_ : L = F ++ f :: K),
      viewFrom p s.frames [] 0 L h = some ⟨F.reverse, f, K, by simp [hs]⟩ := by
    intro L h hL
    subst hL
    rw [viewFrom_tidy p hF hp, viewFrom_here p _ _ f hc hf]
    simp
  exact ⟨_, key s.frames rfl hs, rfl, rfl, rfl⟩

theorem isLook_of_plain (mark lo : Nat) (f : Frame) (h : f.Plain lo) : isLook mark f = false := by
  cases f <;> first | rfl | cases h

theorem isAtomic_of_plain (mark lo : Nat) (f : Frame) (h : f.Plain lo) :
    isAtomic mark f = false := by
  cases f <;> first | rfl | cases h

theorem isRound_of_plain {check lo : Nat} (hlt : check < lo) (f : Frame) (h : f.Plain lo) :
    isRound check f = false := by
  cases f with
  | round c p =>
    have : lo ≤ c := h
    simp [isRound]
    omega
  | _ => rfl

theorem dropVoids_frames (frames : List Frame) (size : Nat) (h : size = frames.length) :
    (dropVoids frames size h).frames = frames.dropWhile Frame.isVoid := by
  induction frames generalizing size with
  | nil => rfl
  | cons f frames ih =>
    cases f with
    | void => exact ih (size - 1) (by simp [h])
    | _ => rfl

theorem pile_eq (below above : List Frame) :
    pile below above = (above.map Frame.committed).reverse ++ below := by
  induction above generalizing below with
  | nil => rfl
  | cons f above ih => simp [pile, ih]

theorem commit_frames (s : FrameStack) (v : FrameView s.frames) :
    (s.commit v).frames =
      (v.above.reverse.map Frame.committed ++ .void :: v.below).dropWhile Frame.isVoid := by
  rw [commit, dropVoids_frames, pile_eq, List.map_reverse]

end FrameStack

/-- Frames of a region that was closed for good: tidy, without choices, on what lay below it. -/
theorem Settled.region {F K L : List Frame} {lo : Nat} (hF : Tidy lo F)
    (h : Settled (F.map Frame.committed ++ .void :: K) L) :
    ∃ G K', L = G ++ K' ∧ Settled K K' ∧ Tidy lo G ∧
      (∀ f ∈ G, f = .void ∨ ∃ f' ∈ F, f = f'.committed) ∧
      ∀ p (r : Machine.Registers), r.undoAll p G = r.undoAll p F := by
  have hcommitted : ∀ f ∈ F.map Frame.committed, ∃ f' ∈ F, f = f'.committed := by
    intro f hf
    obtain ⟨f', hf', rfl⟩ := List.mem_map.mp hf
    exact ⟨f', hf', rfl⟩
  rcases h.of_append with ⟨G, hG, rfl⟩ | ⟨hv, hK⟩
  · have hG' := hG
    obtain ⟨vs, hvs, he⟩ := hG
    refine ⟨G ++ [.void], K, by simp, Settled.refl K, ?_, ?_, ?_⟩
    · exact (Tidy.dropVoids hvs (he ▸ hF.committed)).append (Tidy.single trivial)
    · intro f hf
      rcases List.mem_append.mp hf with hf | hf
      · exact Or.inr (hcommitted f (by rw [he]; simp [hf]))
      · exact Or.inl (List.mem_singleton.mp hf)
    · intro p r
      rw [Machine.Registers.undoAll_append, Machine.Registers.undoAll_settled p hG',
        Machine.Registers.undoAll_committed]
      rfl
  · have hundo : ∀ p (r : Machine.Registers), r.undoAll p F = r := by
      intro p r
      rw [← Machine.Registers.undoAll_committed, Machine.Registers.undoAll_voids p hv]
    obtain ⟨vs, hvs, he⟩ := hK
    cases vs with
    | nil =>
      refine ⟨[.void], K, he.symm, Settled.refl K, Tidy.single trivial, ?_, ?_⟩
      · intro f hf
        exact Or.inl (List.mem_singleton.mp hf)
      · intro p r
        rw [hundo]
        rfl
    | cons v vs =>
      simp only [List.cons_append, List.cons.injEq] at he
      refine ⟨[], L, rfl, ⟨vs, fun f hf => hvs f (by simp [hf]), he.2⟩, .nil lo, by simp, ?_⟩
      intro p r
      rw [hundo]
      rfl

end RegexMachine
