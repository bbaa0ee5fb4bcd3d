import Mathlib.Data.List.Forall2
import RegexMachine.Proofs.Leavings

/-!
What frames record, and what comes back when they are undone. A step either puts frames on the
stack, which record what it changes, or takes frames off and undoes what they recorded. Only the
groups whose instructions leave no records are changed for good.
-/
namespace RegexMachine

/-- All instructions of a group leave records. -/
def Program.Restores (p : Program) (g : Nat) : Prop :=
  ∀ (x : Addr) undo, p.code[x]? = some (.groupStart g undo) ∨
    p.code[x]? = some (.groupEnd g undo) → undo = true

namespace Captures

theorem ext_slots {c d : Captures} (hsize : d.slots.size = c.slots.size)
    (hstart : ∀ k, d.start? k = c.start? k) (hspan : ∀ k, d.span? k = c.span? k)
    (hhistory : d.history = c.history) : d = c := by
  obtain ⟨slots, history⟩ := c
  obtain ⟨slots', history'⟩ := d
  obtain rfl : history' = history := hhistory
  congr 1
  refine Array.ext hsize fun k hk hk' => ?_
  have h1 := hstart k
  have h2 := hspan k
  simp only [start?, span?, slot?, Array.getElem?_eq_getElem hk, Array.getElem?_eq_getElem hk',
    Option.bind_some] at h1 h2
  exact congrArg₂ Slot.mk h1 h2

theorem span?_setStart (c : Captures) (g k : Nat) (start : Option Nat) :
    (c.setStart g start).span? k = c.span? k := by
  rw [span?, slot?_setStart]
  split
  · subst k
    simp only [span?]
    cases c.slot? g <;> rfl
  · rfl

/-- Starts of groups leave everything else as it is. -/
theorem setStarts_spec (pairs : List (Nat × Option Nat)) (c : Captures) :
    let d := pairs.foldl (fun c e => c.setStart e.1 e.2) c
    d.slots.size = c.slots.size ∧ d.history = c.history ∧ (∀ k, d.span? k = c.span? k) ∧
      ∀ k, (∀ e ∈ pairs, e.1 ≠ k) → d.start? k = c.start? k := by
  induction pairs generalizing c with
  | nil => exact ⟨rfl, rfl, fun _ => rfl, fun _ _ => rfl⟩
  | cons e pairs ih =>
    obtain ⟨hsize, hhistory, hspan, hstart⟩ := ih (c.setStart e.1 e.2)
    refine ⟨by simpa using hsize, hhistory, fun k => (hspan k).trans (span?_setStart ..),
      fun k hk => (hstart k fun f hf => hk f (List.mem_cons_of_mem _ hf)).trans ?_⟩
    rw [start?, slot?_setStart, if_neg fun h => hk e (by simp) h.symm]
    rfl

/-- What starts are set to does not depend on other groups. -/
theorem slot?_setStarts_congr (pairs : List (Nat × Option Nat)) {c d : Captures} {k : Nat}
    (h : d.slot? k = c.slot? k) :
    (pairs.foldl (fun c e => c.setStart e.1 e.2) d).slot? k =
      (pairs.foldl (fun c e => c.setStart e.1 e.2) c).slot? k := by
  induction pairs generalizing c d with
  | nil => exact h
  | cons e pairs ih =>
    refine ih ?_
    rw [slot?_setStart, slot?_setStart]
    split
    · subst k
      rw [h]
    · exact h

end Captures

namespace Machine

/-! ## Registers -/

namespace Registers

/-- Registers that agree in all that backtracking restores. -/
structure Agrees (p : Program) (r r' : Registers) : Prop where
  size : r'.captures.slots.size = r.captures.slots.size
  slot : ∀ g, p.Restores g → r'.captures.slot? g = r.captures.slot? g
  history : r'.captures.history = r.captures.history
  counts : r'.counts = r.counts
  keep : r'.keep = r.keep
  depth : r'.depth = r.depth

variable {p : Program} {r r' r'' : Registers} {sub : Nat} {s : Subroutine}

theorem Agrees.refl (r : Registers) : r.Agrees p r := ⟨rfl, fun _ _ => rfl, rfl, rfl, rfl, rfl⟩

theorem Agrees.of_eq (h : r' = r) : r.Agrees p r' := by
  subst h
  exact .refl _

theorem Agrees.trans (h : r.Agrees p r') (h' : r'.Agrees p r'') : r.Agrees p r'' where
  size := h'.size.trans h.size
  slot g hg := (h'.slot g hg).trans (h.slot g hg)
  history := h'.history.trans h.history
  counts := h'.counts.trans h.counts
  keep := h'.keep.trans h.keep
  depth := h'.depth.trans h.depth

theorem Agrees.fits (h : r.Agrees p r') (hr : r.Fits p) : r'.Fits p :=
  ⟨h.size.trans hr.slots, (congrArg Array.size h.counts).trans hr.counts⟩

theorem Agrees.setCallState (h : r.Agrees p r') (sub : Nat) (c : CallState) :
    (r.setCallState p sub c).Agrees p (r'.setCallState p sub c) := by
  unfold Registers.setCallState
  split
  · exact h
  · rename_i inside _
    have hspec := Captures.setStarts_spec (inside.captures.toList.zip c.starts)
    obtain ⟨hsize, hhistory, -⟩ := hspec r.captures
    obtain ⟨hsize', hhistory', -⟩ := hspec r'.captures
    exact {
      size := hsize'.trans (h.size.trans hsize.symm)
      slot := fun g hg => Captures.slot?_setStarts_congr _ (h.slot g hg)
      history := hhistory'.trans (h.history.trans hhistory.symm)
      counts := congrArg (writeFrom · _ _) h.counts
      keep := h.keep
      depth := h.depth }

/-- Undoing the same gives what agrees again. -/
theorem Agrees.undo (h : r.Agrees p r') (f : Frame) : (r.undo p f).Agrees p (r'.undo p f) := by
  cases f with
  | capture g slot history =>
    refine ⟨by simpa [Registers.undo, Captures.restore] using h.size, fun k hk => ?_, rfl, h.counts,
      h.keep, h.depth⟩
    have hset : ∀ c : Captures, (c.restore g slot history).slot? k = (c.setSlot g slot).slot? k :=
      fun _ => rfl
    change (r'.captures.restore g slot history).slot? k = (r.captures.restore g slot history).slot? k
    rw [hset, hset, Captures.slot?_setSlot, Captures.slot?_setSlot, h.size, h.slot k hk]
  | count loop rounds =>
    exact ⟨h.size, h.slot, h.history, congrArg (·.setIfInBounds loop rounds) h.counts, h.keep,
      h.depth⟩
  | keep start => exact ⟨h.size, h.slot, h.history, h.counts, rfl, h.depth⟩
  | call back sub saved =>
    exact ⟨h.size, h.slot, h.history, h.counts, h.keep, congrArg (· - 1) h.depth⟩
  | returned sub c =>
    have hset := h.setCallState sub c
    exact ⟨hset.size, hset.slot, hset.history, hset.counts, hset.keep,
      congrArg (· + 1) h.depth⟩
  | _ => exact h

theorem Agrees.undoAll (h : r.Agrees p r') (F : List Frame) :
    (r.undoAll p F).Agrees p (r'.undoAll p F) := by
  induction F generalizing r r' with
  | nil => exact h
  | cons f F ih => exact ih (h.undo f)

theorem undoAll_choices {C : List Frame} (hC : ∀ f ∈ C, f.isChoice = true) (r : Registers) :
    r.undoAll p C = r := by
  induction C generalizing r with
  | nil => rfl
  | cons f C ih =>
    rw [undoAll_cons, undo_of_isChoice _ _ _ (hC f (by simp))]
    exact ih (fun g hg => hC g (List.mem_cons_of_mem _ hg)) r

/-- Undoing makes no more room and no less. -/
theorem size_undo (r : Registers) (f : Frame) :
    (r.undo p f).captures.slots.size = r.captures.slots.size ∧
      (r.undo p f).counts.size = r.counts.size := by
  cases f with
  | capture g slot h => exact ⟨by simp [undo, Captures.restore], rfl⟩
  | count loop rounds => exact ⟨rfl, by simp [undo]⟩
  | returned sub c =>
    simp only [undo, setCallState]
    split
    · exact ⟨rfl, rfl⟩
    · exact ⟨(Captures.setStarts_spec _ _).1, size_writeFrom ..⟩
  | _ => exact ⟨rfl, rfl⟩

theorem fits_undoAll (F : List Frame) : (r.undoAll p F).Fits p ↔ r.Fits p := by
  induction F generalizing r with
  | nil => exact Iff.rfl
  | cons f F ih =>
    obtain ⟨hslots, hcounts⟩ := size_undo (p := p) r f
    rw [undoAll_cons, ih]
    exact ⟨fun h => ⟨hslots ▸ h.slots, hcounts ▸ h.counts⟩,
      fun h => ⟨hslots.trans h.slots, hcounts.trans h.counts⟩⟩

/-- What is put back, outside the groups and loops of a subroutine. -/
theorem setCallState_outside (hs : p.tables.subroutines[sub]? = some s) (c : CallState)
    (hlen : c.counts.length = s.loops.stop - s.loops.first) (r : Registers) :
    let d := r.setCallState p sub c
    (d.captures.slots.size = r.captures.slots.size ∧ d.captures.history = r.captures.history ∧
      (∀ k, d.captures.span? k = r.captures.span? k) ∧
      ∀ k, k ∉ s.captures.toList → d.captures.start? k = r.captures.start? k) ∧
    d.counts.size = r.counts.size ∧
    (∀ id, ¬ (s.loops.first ≤ id ∧ id < s.loops.stop) → d.counts[id]? = r.counts[id]?) ∧
    d.keep = r.keep := by
  unfold Registers.setCallState
  rw [hs]
  obtain ⟨hsize, hhistory, hspan, hstart⟩ :=
    Captures.setStarts_spec (s.captures.toList.zip c.starts) r.captures
  refine ⟨⟨hsize, hhistory, hspan, fun k hk => hstart k fun e he hek => hk ?_⟩,
    size_writeFrom .., fun id hid => ?_, rfl⟩
  · exact hek ▸ (List.of_mem_zip he).1
  · by_cases hlt : id < r.counts.size
    · rw [getElem?_writeFrom _ _ _ _ hlt, if_neg (by omega)]
    · rw [Array.getElem?_eq_none (Nat.not_lt.mp hlt), Array.getElem?_eq_none (by
        rw [size_writeFrom]
        exact Nat.not_lt.mp hlt)]

/-- Undoing a return gives exactly the registers before it. -/
theorem undo_returned (hs : p.tables.subroutines[sub]? = some s) (hfits : s.Fits p.tables)
    (hr : r.Fits p) (hdepth : r.depth ≠ 0) {c : CallState}
    (hlen : c.counts.length = s.loops.stop - s.loops.first) :
    ({ r.setCallState p sub c with depth := r.depth - 1 } : Registers).undo p
      (.returned sub (r.saved s)) = r := by
  obtain ⟨⟨hsize, hhistory, hspan, hstart⟩, hcount, hcounts, hkeep⟩ :=
    setCallState_outside hs c hlen r
  let m : Registers := { r.setCallState p sub c with depth := r.depth - 1 }
  have hm : m.Fits p := ⟨hsize.trans hr.slots, hcount.trans hr.counts⟩
  have hput := putBack_saved hs hfits hr hm
  have hlen' : (r.saved s).counts.length = s.loops.stop - s.loops.first := by
    have := hr.counts
    have := hfits.size
    simp only [saved, Array.length_toList, Array.size_extract]
    omega
  obtain ⟨⟨-, hhistory', hspan', -⟩, -, -, hkeep'⟩ := setCallState_outside hs (r.saved s) hlen' m
  have hcaptures : (m.setCallState p sub (r.saved s)).captures = r.captures := by
    refine Captures.ext_slots (hput.slots.trans hsize) (fun k => ?_)
      (fun k => (hspan' k).trans (hspan k)) (hhistory'.trans hhistory)
    rw [hput.start k]
    split
    · rfl
    · exact hstart k ‹_›
  have hcounts' : (m.setCallState p sub (r.saved s)).counts = r.counts := by
    apply Array.ext_getElem?
    intro id
    rw [hput.counts id]
    split
    · rfl
    · exact hcounts id ‹_›
  have hkeeps : (m.setCallState p sub (r.saved s)).keep = r.keep := hkeep'.trans hkeep
  have hdepth' : m.depth + 1 = r.depth := Nat.sub_add_cancel (Nat.pos_of_ne_zero hdepth)
  let d := m.setCallState p sub (r.saved s)
  change (⟨d.captures, d.counts, d.keep, m.depth + 1⟩ : Registers) = r
  rw [hdepth', hcaptures, hcounts', hkeeps]

end Registers

end Machine

/-! ## Frames -/

namespace Frame
open Machine

/-- What a frame holds belongs to a program: it can be undone. -/
def Fits (p : Program) : Frame → Prop
  | .capture g _ _ => g < p.tables.captures + 1
  | .count id _ => id < p.tables.loops.size
  | .guard site _ => site < p.tables.guards
  | .call _ sub c => ∃ s, p.tables.subroutines[sub]? = some s ∧
      c.counts.length = s.loops.stop - s.loops.first
  | .returned sub c => ∃ s, p.tables.subroutines[sub]? = some s ∧
      c.counts.length = s.loops.stop - s.loops.first
  | _ => True

/-- Where a frame resumes, if it is one that does. -/
def back? : Frame → Option Addr
  | .alternative ip _ => some ip
  | .stepBack ip _ _ => some ip
  | .absent ip _ _ => some ip
  | _ => none

/-- Whether a frame resumes when it is reached. -/
def resumes (e : Setting) : Frame → Bool
  | .alternative _ _ => true
  | .stepBack _ pos _ => (e.subject.prev? pos).isSome
  | .absent _ start stop => ((e.subject.prev? stop).filter (start ≤ ·)).isSome
  | _ => false

/-- The second frame stands where the first stood: the same one, what is left of it, or the first
moved on to its next place. -/
structure Becomes (p : Program) (f f' : Frame) : Prop where
  undo : ∀ r : Registers, r.undo p f' = r.undo p f
  back : f'.back? = none ∨ f'.back? = f.back?
  fits : f.Fits p → f'.Fits p

theorem Becomes.refl (p : Program) (f : Frame) : f.Becomes p f :=
  ⟨fun _ => rfl, Or.inr rfl, id⟩

theorem Becomes.trans {p : Program} {f g h : Frame} (hfg : f.Becomes p g)
    (hgh : g.Becomes p h) : f.Becomes p h where
  undo r := (hgh.undo r).trans (hfg.undo r)
  back := hgh.back.elim Or.inl fun hb => hb ▸ hfg.back
  fits := hgh.fits ∘ hfg.fits

theorem becomes_void {p : Program} {f : Frame} (h : ∀ r : Registers, r.undo p f = r) :
    f.Becomes p .void := ⟨fun r => (h r).symm, Or.inl rfl, fun _ => trivial⟩

theorem becomes_committed (p : Program) (f : Frame) : f.Becomes p f.committed := by
  refine ⟨fun r => Registers.undo_committed p r f, ?_, fun h => ?_⟩
  · cases f <;> exact Or.inl rfl
  · cases f <;> first | exact h | trivial

end Frame

namespace Machine

/-- Stacks whose frames stand in the same places. -/
abbrev Become (p : Program) : List Frame → List Frame → Prop := List.Forall₂ (Frame.Becomes p)

theorem become_refl (p : Program) (K : List Frame) : Become p K K :=
  List.forall₂_same.mpr fun f _ => .refl p f

theorem Become.undoAll {p : Program} {K L : List Frame} (h : Become p K L) (r : Registers) :
    r.undoAll p L = r.undoAll p K := by
  induction h generalizing r with
  | nil => rfl
  | cons hf _ ih => rw [Registers.undoAll_cons, Registers.undoAll_cons, hf.undo, ih]

/-- A view in which everything belongs to a program. -/
structure View.Fits (p : Program) (c : View) : Prop where
  regs : c.regs.Fits p
  frames : ∀ f ∈ c.frames, f.Fits p

/-! ## Effects -/

/-- Choices on top of records. -/
def Recorded (F : List Frame) : Prop :=
  ∃ C R, F = C ++ R ∧ (∀ f ∈ C, f.isChoice = true) ∧ ∀ f ∈ R, f.back? = none

/-- What a step does to the stack and to the registers. -/
inductive Passes (p : Program) (c d : View) : Prop
  /-- Frames are put on the stack, and undo what has changed. -/
  | adds (F : List Frame) (hd : d.frames = F ++ c.frames) (hF : Recorded F)
      (hfits : ∀ f ∈ F, f.Fits p) (hr : c.regs.Agrees p (d.regs.undoAll p F))
  /-- Frames are taken off and undone. -/
  | takes (A L : List Frame) (hc : c.frames = A ++ L) (hd : Become p L d.frames)
      (hr : (c.regs.undoAll p A).Agrees p d.regs)

namespace Passes

variable {p : Program} {c d : View}

theorem fits (h : Passes p c d) (hc : c.Fits p) : d.Fits p := by
  cases h with
  | adds F hd _ hfits hr =>
    refine ⟨(Registers.fits_undoAll F).mp (hr.fits hc.regs), fun f hf => ?_⟩
    rw [hd] at hf
    exact (List.mem_append.mp hf).elim (hfits f) (hc.frames f)
  | takes A L hcf hd hr =>
    refine ⟨hr.fits ((Registers.fits_undoAll A).mpr hc.regs), fun f hf => ?_⟩
    obtain ⟨i, hi, rfl⟩ := List.getElem_of_mem hf
    have hlen := hd.length_eq
    exact (hd.get (hlen ▸ hi) hi).fits (hc.frames _ (by simp [hcf]))

/-- Neither the stack nor the registers have changed. -/
theorem stays (hf : d.frames = c.frames) (hr : c.regs.Agrees p d.regs) : Passes p c d :=
  .adds [] hf ⟨[], [], rfl, nofun, nofun⟩ nofun hr

/-- A choice, or a marker of what has not been changed, was put on the stack. -/
theorem pushes {f : Frame} (hf : d.frames = f :: c.frames) (hfits : f.Fits p)
    (hr : c.regs.Agrees p (d.regs.undo p f)) : Passes p c d := by
  refine .adds [f] hf ?_ (fun g hg => List.mem_singleton.mp hg ▸ hfits) hr
  cases hb : f.back? with
  | none => exact ⟨[], [f], rfl, nofun, fun g hg => List.mem_singleton.mp hg ▸ hb⟩
  | some a =>
    refine ⟨[f], [], rfl, fun g hg => List.mem_singleton.mp hg ▸ ?_, nofun⟩
    cases f <;> first | rfl | cases hb

end Passes

end Machine
end RegexMachine
