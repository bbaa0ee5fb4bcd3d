import RegexMachine.Proofs.Expansion

/-!
Stacks that a program and its expanded form build side by side. The loop leaves an alternative at
every place on the way, the instruction perhaps at some of them only. The others are idle: they
resume where the literal ahead does not match.
-/
namespace RegexMachine

/-- The same frame, resuming at where its address has moved. -/
def Frame.moveAddr (f : Addr → Addr) : Frame → Frame
  | alternative ip pos => alternative (f ip) pos
  | stepBack ip pos more => stepBack (f ip) pos more
  | absent ip start stop => absent (f ip) start stop
  | call back sub saved => call (f back) sub saved
  | g => g

/-- The address where a frame resumes, or to which it returns. -/
def Frame.place? : Frame → Option Nat
  | alternative ip _ => some ip
  | stepBack ip _ _ => some ip
  | absent ip _ _ => some ip
  | call back _ _ => some back
  | _ => none

theorem Frame.committed_moveAddr (f : Addr → Addr) (g : Frame) :
    (g.moveAddr f).committed = g.committed.moveAddr f := by
  cases g <;> rfl

theorem Frame.isVoid_moveAddr (f : Addr → Addr) (g : Frame) : (g.moveAddr f).isVoid = g.isVoid := by
  cases g <;> rfl

namespace Sweep
open Machine

variable {w : Sweep} {t : Subject} {tight : Bool} {f : Frame} {K L : List Frame}

/-- The start of a region above an alternative that will be dropped. -/
def owns (w : Sweep) : Frame → Bool
  | .look mark _ => w.before.isSome && w.program.unwinds mark
  | _ => false

/-- A frame that only the loop leaves. -/
def Idle (w : Sweep) (t : Subject) (f : Frame) : Prop :=
  ∃ b, w.before = some b ∧ (f = .void ∨ ∃ pos i, f = .alternative (w.place + 3) pos ∧
    w.program.code[w.place + 1]? = some i ∧ i.BeginsWith b ∧ t.bytes[pos]? ≠ some b)

/-- The stacks of a program and of its expanded form: the same frames, and idle ones between those of
the latter, though not on the top where that is `tight`. -/
inductive Laid (w : Sweep) (t : Subject) : Bool → List Frame → List Frame → Prop
  | nil (tight : Bool) : Laid w t tight [] []
  | frame {tight : Bool} {f : Frame} {K L : List Frame}
    (hplace : ∀ x, f.place? = some x → w.isTight x = false) (h : Laid w t (w.owns f) K L) :
    Laid w t tight (f :: K) (f.moveAddr w.moved :: L)
  | idle {f : Frame} {K L : List Frame} (hf : w.Idle t f) (h : Laid w t false K L) :
    Laid w t false K (f :: L)

/-! ## Registers -/

theorem subroutine_expanded (w : Sweep) (sub : Nat) :
    w.expanded.tables.subroutines[sub]? = (w.program.tables.subroutines[sub]?).map fun s =>
      { s with entry := w.moved s.entry } := Array.getElem?_map ..

theorem setCallState_expanded (w : Sweep) (r : Registers) (sub : Nat) (c : CallState) :
    r.setCallState w.expanded sub c = r.setCallState w.program sub c := by
  unfold Registers.setCallState
  rw [subroutine_expanded]
  cases w.program.tables.subroutines[sub]? <;> rfl

theorem undo_expanded (w : Sweep) (r : Registers) (f : Frame) :
    r.undo w.expanded (f.moveAddr w.moved) = r.undo w.program f := by
  cases f with
  | returned sub c => simp only [Frame.moveAddr, Registers.undo, setCallState_expanded]
  | _ => rfl

theorem called_expanded (w : Sweep) (r : Registers) (sub : Nat) :
    r.called w.expanded sub = r.called w.program sub := by
  have hsize : w.expanded.tables.subroutines.size = w.program.tables.subroutines.size :=
    Array.size_map ..
  unfold Registers.called
  simp only [subroutine_expanded, hsize]
  cases w.program.tables.subroutines[sub]? <;> rfl

namespace Laid

theorem loosen (h : Laid w t tight K L) : Laid w t false K L := by
  cases h with
  | nil => exact .nil false
  | frame hplace h => exact .frame hplace h
  | idle hf h => exact .idle hf h

/-- A frame with no address that stands on both stacks. -/
theorem mark (hf : f.place? = none) (hmove : f.moveAddr w.moved = f) (hown : w.owns f = false)
    (h : Laid w t false K L) : Laid w t tight (f :: K) (f :: L) := by
  have hframe : Laid w t tight (f :: K) (f.moveAddr w.moved :: L) :=
    .frame (fun x hx => by rw [hf] at hx; cases hx) (by rw [hown]; exact h)
  rwa [hmove] at hframe

/-- On the top of a tight stack stands the same frame. -/
theorem top (h : Laid w t tight K L) (htight : tight = true ∨ w.before = none) :
    (K = [] ∧ L = []) ∨
      ∃ f K' L', K = f :: K' ∧ L = f.moveAddr w.moved :: L' ∧ Laid w t false K' L' := by
  cases h with
  | nil => exact Or.inl ⟨rfl, rfl⟩
  | frame _ h => exact Or.inr ⟨_, _, _, rfl, rfl, h.loosen⟩
  | idle hf _ =>
    obtain ⟨b, hb, -⟩ := hf
    rcases htight with htight | hnone
    · cases htight
    · rw [hb] at hnone
      cases hnone

/-! ## Regions that are closed for good -/

/-- Void frames that are taken off the first stack become idle. -/
theorem dropVoids_left {b : UInt8} (hb : w.before = some b) (h : Laid w t tight K L) :
    Laid w t false (K.dropWhile Frame.isVoid) L := by
  induction h with
  | nil => exact .nil false
  | @frame _ f K L hplace h ih =>
    cases hf : f.isVoid with
    | false =>
      rw [List.dropWhile_cons_of_neg (by simp [hf])]
      exact .frame hplace h
    | true =>
      rw [List.dropWhile_cons_of_pos hf]
      cases f with
      | void => exact .idle ⟨b, hb, Or.inl rfl⟩ ih
      | _ => cases hf
  | idle hf _ ih => exact .idle hf ih

theorem dropVoids (h : Laid w t tight K L) :
    Laid w t false (K.dropWhile Frame.isVoid) (L.dropWhile Frame.isVoid) := by
  induction h with
  | nil => exact .nil false
  | @frame _ f K L hplace h ih =>
    cases hf : f.isVoid with
    | false =>
      rw [List.dropWhile_cons_of_neg (by simp [hf]),
        List.dropWhile_cons_of_neg (by simp [Frame.isVoid_moveAddr, hf])]
      exact .frame hplace h
    | true =>
      rw [List.dropWhile_cons_of_pos hf,
        List.dropWhile_cons_of_pos (by rw [Frame.isVoid_moveAddr, hf])]
      exact ih
  | @idle f K L hf h ih =>
    obtain ⟨b, hb, rfl | ⟨pos, i, rfl, hi⟩⟩ := hf
    · rw [List.dropWhile_cons_of_pos rfl]
      exact ih
    · rw [List.dropWhile_cons_of_neg Bool.false_ne_true]
      exact .idle ⟨b, hb, Or.inr ⟨pos, i, rfl, hi⟩⟩ (h.dropVoids_left hb)

/-- A marker that both stacks have, with what lies above and below it. -/
structure View (w : Sweep) (t : Subject) (tight : Bool) (v v' : List Frame × Frame × List Frame) :
    Prop where
  marker : v'.2.1 = v.2.1.moveAddr w.moved
  below : Laid w t (w.owns v.2.1) v.2.2 v'.2.2
  closed : Laid w t tight (v.1.map Frame.committed ++ .void :: v.2.2)
    (v'.1.map Frame.committed ++ .void :: v'.2.2)
  changed : ∀ c, v'.1.any (changed c) = v.1.any (changed c)

theorem owns_committed (w : Sweep) (f : Frame) : w.owns f.committed = w.owns f := by
  cases f <;> rfl

theorem changed_moveAddr (c : Captures) (g : Addr → Addr) (f : Frame) :
    changed c (f.moveAddr g) = changed c f := by
  cases f <;> rfl

variable {v v' : List Frame × Frame × List Frame}

/-- One more frame above a marker. -/
theorem View.frame (hplace : ∀ x, f.place? = some x → w.isTight x = false)
    (h : View w t (w.owns f) v v') :
    View w t tight (f :: v.1, v.2) (f.moveAddr w.moved :: v'.1, v'.2) where
  marker := h.marker
  below := h.below
  closed := by
    have hplace' : ∀ x, f.committed.place? = some x → w.isTight x = false := by
      intro x hx
      cases f <;> first | exact hplace x hx | cases hx
    rw [List.map_cons, List.map_cons, Frame.committed_moveAddr]
    exact .frame hplace' (by rw [owns_committed]; exact h.closed)
  changed c := by simp only [List.any_cons, changed_moveAddr, h.changed c]

theorem View.idle (hf : w.Idle t f) (h : View w t false v v') :
    View w t false v (f :: v'.1, v'.2) where
  marker := h.marker
  below := h.below
  closed := by
    obtain ⟨b, hb, hvoid⟩ := hf
    have hcommitted : f.committed = .void := by
      rcases hvoid with rfl | ⟨pos, i, rfl, -⟩ <;> rfl
    rw [List.map_cons, hcommitted]
    exact .idle ⟨b, hb, Or.inl rfl⟩ h.closed
  changed c := by
    obtain ⟨b, hb, rfl | ⟨pos, i, rfl, -⟩⟩ := hf
    · exact h.changed c
    · exact h.changed c

/-- Both stacks have the marker that is looked for, or neither has. -/
theorem locate {q : Frame → Bool} (hq : ∀ f, q (f.moveAddr w.moved) = q f)
    (hidle : ∀ f, w.Idle t f → q f = false) (h : Laid w t tight K L) (level : Nat) :
    Option.Rel (View w t tight) (Machine.locate q level K) (Machine.locate q level L) := by
  induction h generalizing level with
  | nil => exact .none
  | @frame tight f K L hplace h ih =>
    have below (level : Nat) : Option.Rel (View w t tight)
        ((Machine.locate q level K).map fun v => (f :: v.1, v.2))
        ((Machine.locate q level L).map fun v => (f.moveAddr w.moved :: v.1, v.2)) := by
      have hrel := ih level
      revert hrel
      generalize Machine.locate q level K = a, Machine.locate q level L = b
      intro hrel
      cases hrel with
      | none => exact .none
      | some h => exact .some (h.frame hplace)
    have here (level : Nat) : Option.Rel (View w t tight)
        (if (level = 0 && q f) = true then some ([], f, K) else
          (Machine.locate q level K).map fun v => (f :: v.1, v.2))
        (if (level = 0 && q (f.moveAddr w.moved)) = true then some ([], f.moveAddr w.moved, L) else
          (Machine.locate q level L).map fun v => (f.moveAddr w.moved :: v.1, v.2)) := by
      rw [hq f]
      split
      · exact .some ⟨rfl, h, .mark rfl rfl rfl h.loosen, fun _ => rfl⟩
      · exact below level
    cases f with
    | returned sub undo => exact below (level + 1)
    | call back sub saved =>
      simp only [Machine.locate, Frame.moveAddr]
      split
      · exact .none
      · exact below (level - 1)
    | _ => exact here level
  | @idle f K L hf h ih =>
    have hnot := hidle f hf
    have hlocate : Machine.locate q level (f :: L) =
        (Machine.locate q level L).map fun v => (f :: v.1, v.2) := by
      obtain ⟨b, hb, rfl | ⟨pos, i, rfl, -⟩⟩ := hf <;> simp [Machine.locate, hnot]
    rw [hlocate]
    have hrel := ih level
    revert hrel
    generalize Machine.locate q level K = a, Machine.locate q level L = b
    intro hrel
    cases hrel with
    | none => exact .none
    | some h => exact .some (h.idle hf)

/-! ## What is undone -/

/-- What is left above the start of a region is undone alike. -/
theorem unwound (mark level : Nat) (r : Registers) (h : Laid w t tight K L) :
    (∃ what, Machine.unwound w.program mark level K r = .error what ∧
      Machine.unwound w.expanded mark level L r = .error what) ∨
    ∃ K' L' r', Machine.unwound w.program mark level K r = .ok (K', r') ∧
      Machine.unwound w.expanded mark level L r = .ok (L', r') ∧
      Laid w t (w.before.isSome && w.program.unwinds mark) K' L' := by
  induction h generalizing level r with
  | nil => exact Or.inl ⟨.look, rfl, rfl⟩
  | @frame tight f K L hplace h ih =>
    have hundo := undo_expanded w r f
    cases hlook : level == 0 && FrameStack.isLook mark f with
    | true =>
      cases f with
      | look mark' pos =>
        have hlook' : (level == 0 && FrameStack.isLook mark (.look mark' pos)) = true := hlook
        obtain ⟨-, hmark⟩ := Bool.and_eq_true_iff.mp hlook
        obtain rfl : mark' = mark := by simpa [FrameStack.isLook] using hmark
        refine Or.inr ⟨K, L, r, ?_, ?_, h⟩ <;> simp [Machine.unwound, Frame.moveAddr, hlook']
      | _ => simp [FrameStack.isLook] at hlook
    | false =>
      cases f with
      | returned sub undo =>
        simp only [Machine.unwound, Frame.moveAddr, FrameStack.isLook, Bool.and_false,
          Bool.false_eq_true, ↓reduceIte] at hundo ⊢
        rw [hundo]
        exact ih _ _
      | call back sub saved =>
        simp only [Machine.unwound, Frame.moveAddr, FrameStack.isLook, Bool.and_false,
          Bool.false_eq_true, ↓reduceIte] at hundo ⊢
        rw [hundo]
        split
        · exact Or.inl ⟨.matchingCall, rfl, rfl⟩
        · exact ih _ _
      | _ =>
        simp only [FrameStack.isLook] at hlook
        simp only [Machine.unwound, Frame.moveAddr, FrameStack.isLook, hlook, Bool.false_eq_true,
          ↓reduceIte]
        exact ih _ _
  | @idle f K L hf h ih =>
    obtain ⟨b, hb, rfl | ⟨pos, i, rfl, -⟩⟩ := hf
    · simpa [Machine.unwound, FrameStack.isLook, Registers.undo] using ih level r
    · simpa [Machine.unwound, FrameStack.isLook, Registers.undo] using ih level r

/-- Both invocations return to the same place. -/
theorem callFrom (level : Nat) (h : Laid w t tight K L) :
    FrameStack.callFrom level L =
        (FrameStack.callFrom level K).map (fun (back, sub, saved) => (w.moved back, sub, saved)) ∧
      ∀ back sub saved, FrameStack.callFrom level K = some (back, sub, saved) →
        w.isTight back = false := by
  induction h generalizing level with
  | nil => exact ⟨rfl, nofun⟩
  | @frame tight f K L hplace h ih =>
    cases f with
    | call back sub saved =>
      simp only [FrameStack.callFrom, Frame.moveAddr]
      split
      · refine ⟨rfl, fun _ _ _ heq => ?_⟩
        cases heq
        exact hplace back rfl
      · exact ih (level - 1)
    | returned sub undo => exact ih (level + 1)
    | _ => exact ih level
  | @idle f K L hf h ih =>
    obtain ⟨b, hb, rfl | ⟨pos, i, rfl, -⟩⟩ := hf
    · exact ih level
    · exact ih level

end Laid
end Sweep
end RegexMachine
