import RegexMachine.Proofs.Effects

/-!
Calls on the stack and their returns. When an invocation returns its frames stay, between the call that
began it and the record of its return. They fade when a region is closed for good: what is left of a
choice is void.
-/
namespace RegexMachine

theorem cons_append_inj {α : Type} {f g : α} {F G K L : List α} (h : f :: F ++ K = g :: G ++ L) :
    f = g ∧ F ++ K = G ++ L := List.cons.inj h

/-- Frames in which every return has its call. -/
inductive Balanced : List Frame → Prop
  | nil : Balanced []
  | frame {f : Frame} {F : List Frame} (hf : FrameStack.isCallFrame f = false) (hF : Balanced F) :
    Balanced (f :: F)
  | call {G F : List Frame} (sub : Nat) (undo : CallState) (back : Addr) (sub' : Nat)
    (saved : CallState) (hG : Balanced G) (hF : Balanced F) :
    Balanced (.returned sub undo :: (G ++ .call back sub' saved :: F))

namespace Balanced
open Machine

variable {F G K L : List Frame} {q : Frame → Bool} {level : Nat} {m : Frame}

/-- A search inside an invocation that has returned passes over the frames of others. -/
theorem locates (hG : Balanced G) (h : Locates q (level + 1) F m) (he : G ++ L = F ++ m :: K) :
    ∃ F', F = G ++ F' ∧ L = F' ++ m :: K ∧ Locates q (level + 1) F' m := by
  induction hG generalizing F L level with
  | nil => exact ⟨F, rfl, he, h⟩
  | frame hf hG ih =>
    cases h with
    | returned sub undo h =>
      cases (cons_append_inj he).1
      cases hf
    | call back sub saved h =>
      cases (cons_append_inj he).1
      cases hf
    | other hf' h =>
      obtain ⟨rfl, hrest⟩ := cons_append_inj he
      obtain ⟨F', rfl, hL, hF'⟩ := ih h hrest
      exact ⟨F', rfl, hL, hF'⟩
  | call sub undo back sub' saved hG hG' ih ih' =>
    cases h with
    | returned _ _ hinner =>
      obtain ⟨hsame, hrest⟩ := cons_append_inj he
      cases hsame
      rw [List.append_assoc] at hrest
      obtain ⟨F₁, rfl, hF₁, hcall⟩ := ih hinner hrest
      cases hcall with
      | call _ _ _ houter =>
        obtain ⟨hsame, hbelow⟩ := cons_append_inj hF₁
        cases hsame
        obtain ⟨F', rfl, hL, hF'⟩ := ih' houter hbelow
        exact ⟨F', by simp, hL, hF'⟩
      | returned => cases (cons_append_inj hF₁).1
      | other hf =>
        cases (cons_append_inj hF₁).1
        cases hf
    | call => cases (cons_append_inj he).1
    | other hf =>
      cases (cons_append_inj he).1
      cases hf

theorem callFrom (hG : Balanced G) (level : Nat) (K : List Frame) :
    FrameStack.callFrom level (G ++ K) = FrameStack.callFrom level K := by
  induction hG generalizing level K with
  | nil => rfl
  | @frame f F hf hF ih =>
    cases f with
    | call => cases hf
    | returned => cases hf
    | _ => exact ih level K
  | call sub undo back sub' saved hG hF ih ih' =>
    rw [List.cons_append, List.append_assoc, FrameStack.callFrom, ih, List.cons_append,
      FrameStack.callFrom, if_neg (Nat.succ_ne_zero _), Nat.add_sub_cancel, ih']

/-- The call of a return is the first one that is not that of another return. -/
theorem split_unique {back sub back' sub' : Nat} {saved saved' : CallState} (hF : Balanced F)
    (hG : Balanced G) (h : F ++ .call back sub saved :: K = G ++ .call back' sub' saved' :: L) :
    F = G ∧ Frame.call back sub saved = .call back' sub' saved' ∧ K = L := by
  induction hF generalizing G K L back sub back' sub' saved saved' with
  | nil =>
    cases hG with
    | nil => exact ⟨rfl, List.cons.inj h⟩
    | frame hf =>
      cases (List.cons.inj h).1
      cases hf
    | call => cases (List.cons.inj h).1
  | frame hf hF ih =>
    cases hG with
    | nil =>
      cases (List.cons.inj h).1
      cases hf
    | frame hf' hG =>
      obtain ⟨rfl, htail⟩ := cons_append_inj h
      obtain ⟨rfl, hrest⟩ := ih hG htail
      exact ⟨rfl, hrest⟩
    | call =>
      cases (List.cons.inj h).1
      cases hf
  | call sub undo back sub' saved hF hF' ih ih' =>
    cases hG with
    | nil => cases (List.cons.inj h).1
    | frame hf' =>
      cases (List.cons.inj h).1
      cases hf'
    | call sub₂ undo₂ back₂ sub₂' saved₂ hG hG' =>
      obtain ⟨hsame, htail⟩ := cons_append_inj h
      cases hsame
      rw [List.append_assoc, List.append_assoc] at htail
      obtain ⟨rfl, hsame, hbelow⟩ := ih hG htail
      cases hsame
      obtain ⟨rfl, hrest⟩ := ih' hG' hbelow
      exact ⟨rfl, hrest⟩

theorem append (hF : Balanced F) (hG : Balanced G) : Balanced (F ++ G) := by
  induction hF with
  | nil => exact hG
  | frame hf hF ih => exact .frame hf ih
  | call sub undo back sub' saved hF hF' ih ih' =>
    rw [List.cons_append, List.append_assoc]
    exact .call sub undo back sub' saved hF ih'

/-- A call among them has its return above it, with nothing unfinished in between. -/
theorem returned {back sub : Nat} {saved : CallState}
    (h : Balanced (F ++ .call back sub saved :: K)) :
    ∃ H sub' undo G, F = H ++ .returned sub' undo :: G ∧ Balanced G := by
  generalize hL : F ++ .call back sub saved :: K = L at h
  induction h generalizing F K with
  | nil => simp at hL
  | frame hf hF ih =>
    cases F with
    | nil =>
      cases (List.cons.inj hL).1
      cases hf
    | cons f F =>
      obtain ⟨rfl, hrest⟩ := List.cons.inj hL
      obtain ⟨H, sub', undo, G, rfl, hG⟩ := ih hrest
      exact ⟨f :: H, sub', undo, G, rfl, hG⟩
  | @call G₁ F₁ sub₁ undo₁ back₁ sub₂ saved₁ hG₁ hF₁ ih ih' =>
    cases F with
    | nil => cases (List.cons.inj hL).1
    | cons f F =>
      obtain ⟨rfl, hrest⟩ := List.cons.inj hL
      rcases List.append_eq_append_iff.mp hrest with ⟨M, rfl, hM⟩ | ⟨M, rfl, hM⟩
      · cases M with
        | nil => exact ⟨[], sub₁, undo₁, F, by simp, by simpa using hG₁⟩
        | cons m M =>
          obtain ⟨rfl, -⟩ := List.cons.inj hM
          obtain ⟨H, sub', undo, G, rfl, hG⟩ := ih rfl
          exact ⟨.returned sub₁ undo₁ :: H, sub', undo, G, rfl, hG⟩
      · cases M with
        | nil => exact ⟨[], sub₁, undo₁, G₁, by simp, hG₁⟩
        | cons m M =>
          obtain ⟨rfl, hbelow⟩ := List.cons.inj hM
          obtain ⟨H, sub', undo, G, rfl, hG⟩ := ih' hbelow.symm
          exact ⟨.returned sub₁ undo₁ :: (G₁ ++ .call back₁ sub₂ saved₁ :: H), sub', undo, G,
            by simp, hG⟩

end Balanced

/-! ## Frames that fade -/

/-- What becomes of a frame when a region is closed. -/
def Frame.Fades (f f' : Frame) : Prop :=
  f' = f ∨ (f' = .void ∧ FrameStack.isCallFrame f = false ∧
    ∀ (p : Program) (r : Machine.Registers), r.undo p f = r)

namespace Frame
variable {f f' : Frame}

theorem fades_committed (f : Frame) : f.Fades f.committed := by
  unfold committed
  split
  · refine Or.inr ⟨rfl, ?_, fun p r => Machine.Registers.undo_of_isChoice p r f ‹_›⟩
    cases f <;> first | rfl | simp_all [isChoice]
  · exact Or.inl rfl

theorem Fades.becomes (h : f.Fades f') (p : Program) : f.Becomes p f' := by
  rcases h with rfl | ⟨rfl, -, hundo⟩
  · exact .refl p _
  · exact becomes_void fun r => hundo p r

theorem Fades.trans {g : Frame} (h : f.Fades f') (h' : f'.Fades g) : f.Fades g := by
  rcases h' with rfl | ⟨rfl, hcall, hundo⟩
  · exact h
  · rcases h with rfl | ⟨rfl, h⟩
    · exact Or.inr ⟨rfl, hcall, hundo⟩
    · exact Or.inr ⟨rfl, h⟩

theorem Fades.eq_of_call (h : f.Fades f') (hf : FrameStack.isCallFrame f = true) : f' = f := by
  rcases h with rfl | ⟨-, hcall, -⟩
  · rfl
  · rw [hf] at hcall
    cases hcall

theorem Fades.isCallFrame_eq (h : f.Fades f') :
    FrameStack.isCallFrame f' = FrameStack.isCallFrame f := by
  rcases h with rfl | ⟨rfl, hf, -⟩
  · rfl
  · exact hf.symm

end Frame

/-- Stacks whose frames have faded. -/
abbrev Fade : List Frame → List Frame → Prop := List.Forall₂ Frame.Fades

namespace Fade
variable {F G K L : List Frame} {p : Program}

theorem refl (K : List Frame) : Fade K K := List.forall₂_same.mpr fun _ _ => Or.inl rfl

theorem committed (F : List Frame) : Fade F (F.map Frame.committed) :=
  List.forall₂_map_right_iff.mpr (List.forall₂_same.mpr fun f _ => f.fades_committed)

theorem trans (h : Fade F G) (h' : Fade G K) : Fade F K := by
  induction h generalizing K with
  | nil => exact h'
  | cons hf _ ih =>
    cases h' with
    | cons hg hrest => exact .cons (hf.trans hg) (ih hrest)

theorem undoAll (h : Fade F G) (r : Machine.Registers) : r.undoAll p G = r.undoAll p F :=
  Machine.Become.undoAll (h.imp fun _ _ hf => hf.becomes p) r

theorem split (h : Fade (F ++ K) L) : ∃ F' K', L = F' ++ K' ∧ Fade F F' ∧ Fade K K' :=
  ⟨L.take F.length, L.drop F.length, (List.take_append_drop ..).symm,
    by simpa using List.forall₂_take F.length h, by simpa using List.forall₂_drop F.length h⟩

/-- A call stays as it is. -/
theorem around {back sub : Nat} {saved : CallState}
    (h : Fade (F ++ .call back sub saved :: K) L) :
    ∃ F' K', L = F' ++ .call back sub saved :: K' ∧ Fade F F' ∧ Fade K K' := by
  obtain ⟨F', L', rfl, hF, hL⟩ := h.split
  cases hL with
  | cons hcall hK =>
    cases hcall.eq_of_call rfl
    exact ⟨F', _, rfl, hF, hK⟩

/-- A call on top stays on top. -/
theorem onCall {back sub : Nat} {saved : CallState} (h : Fade (.call back sub saved :: K) L) :
    ∃ M, L = .call back sub saved :: M ∧ Fade K M := by
  obtain ⟨F, M, rfl, hnone, hM⟩ := Fade.around (F := []) h
  cases hnone
  exact ⟨M, rfl, hM⟩

end Fade

theorem Balanced.fade {F G : List Frame} (hF : Balanced F) (h : Fade F G) : Balanced G := by
  induction hF generalizing G with
  | nil =>
    cases h
    exact .nil
  | frame hf hF ih =>
    cases h with
    | cons hfade hrest => exact .frame (hfade.isCallFrame_eq.trans hf) (ih hrest)
  | call sub undo back sub' saved hF hF' ih ih' =>
    cases h with
    | cons hreturned hrest =>
      cases hreturned.eq_of_call rfl
      obtain ⟨F', K', rfl, hfade, hbelow⟩ := Fade.around hrest
      exact .call _ _ _ _ _ (ih hfade) (ih' hbelow)

end RegexMachine
