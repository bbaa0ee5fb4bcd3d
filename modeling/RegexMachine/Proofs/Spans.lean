import RegexMachine.Proofs.CallDepth
import RegexMachine.Proofs.SoundHints

/-!
Positions and spans lie inside the subject. Whatever a state of an attempt holds, in its registers or
on its stack, no position in it is beyond the end of the subject, and no span ends before it starts.
-/
namespace RegexMachine

/-- A span of a text of this size. -/
structure Span.Within (size : Nat) (s : Span) : Prop where
  ordered : s.start ≤ s.stop
  stop_le : s.stop ≤ size

namespace Captures

def Within (size : Nat) (c : Captures) : Prop := ∀ g s, c.span? g = some s → s.Within size

variable {size g : Nat} {c : Captures} {slot : Slot}

theorem within_none (size n : Nat) : (Captures.none n).Within size := by
  intro g s h
  simp only [span?, slot?, Captures.none, Array.getElem?_replicate] at h
  split at h <;> cases h

theorem Within.setSlot (h : c.Within size) (hslot : ∀ s, slot.span = some s → s.Within size) :
    (c.setSlot g slot).Within size := by
  intro k s hk
  rw [span?, slot?_setSlot] at hk
  split at hk
  · exact hslot s hk
  · exact h k s hk

theorem Within.closed {span : Span} (h : c.Within size) (hspan : span.Within size) (log : Bool) :
    (c.closed g span log).Within size := by
  intro k s hk
  rw [span?, slot?_closed] at hk
  split at hk
  · cases hk
    exact hspan
  · exact h k s hk

theorem Within.of_slot (h : c.Within size) (hslot : c.slot? g = some slot) {s : Span}
    (hs : slot.span = some s) : s.Within size := h g s (by rw [span?, hslot, Option.bind_some, hs])

end Captures

namespace Frame

/-- Wherever a frame resumes, and whatever it puts back, lies inside the subject. -/
def Within (size : Nat) : Frame → Prop
  | .alternative _ y => y ≤ size
  | .stepBack _ y _ => y ≤ size
  | .absent _ start stop => ∀ z, start ≤ z → z ≤ stop → z ≤ size
  | .look _ y => y ≤ size
  | .capture _ slot _ => ∀ s, slot.span = some s → s.Within size
  | _ => True

theorem Within.committed {size : Nat} {f : Frame} (h : f.Within size) : f.committed.Within size := by
  unfold Frame.committed
  split
  · trivial
  · exact h

end Frame

namespace Machine

namespace Registers
variable {p : Program} {r : Registers} {f : Frame} {F : List Frame} {size : Nat}

/-- What a call saves and a return puts back are neither spans nor the history. -/
theorem setCallState_spans (r : Registers) (p : Program) (sub : Nat) (c : CallState) :
    (r.setCallState p sub c).captures.history = r.captures.history ∧
      ∀ g, (r.setCallState p sub c).captures.span? g = r.captures.span? g := by
  unfold setCallState
  split
  · exact ⟨rfl, fun _ => rfl⟩
  · rename_i inside _
    obtain ⟨-, hhistory, hspan, -⟩ :=
      Captures.setStarts_spec (inside.captures.toList.zip c.starts) r.captures
    exact ⟨hhistory, hspan⟩

theorem within_undo (hr : r.captures.Within size) (hf : f.Within size) :
    (r.undo p f).captures.Within size := by
  cases f with
  | capture g slot history => exact hr.setSlot hf
  | returned sub c => exact fun g s hs => hr g s ((setCallState_spans r p sub c).2 g ▸ hs)
  | _ => exact hr

theorem within_undoAll (hr : r.captures.Within size) (hF : ∀ f ∈ F, f.Within size) :
    (r.undoAll p F).captures.Within size := by
  induction F generalizing r with
  | nil => exact hr
  | cons f F ih =>
    obtain ⟨hf, hF⟩ := List.forall_mem_cons.mp hF
    exact ih (within_undo hr hf) hF

end Registers

/-- A state that holds no position and no span beyond a subject of this size. -/
structure View.Within (size : Nat) (c : View) : Prop where
  pos : c.pos ≤ size
  captures : c.regs.captures.Within size
  frames : ∀ f ∈ c.frames, f.Within size

variable {p : Program} {l : Compile.Layout} {root : Node Measured} {e : Setting} {i : Instr}
  {c d : View} {st s : State} {pos : Nat}

theorem Leads.within {a b x y : Nat} (h : Leads e i a x b y) (hx : x ≤ e.subject.size) :
    y ≤ e.subject.size := Nat.le_trans h.le (Nat.max_le.mpr ⟨hx, Nat.le_refl _⟩)

theorem LeftBy.within {f : Frame} (h : LeftBy e i c f) (hc : c.Within e.subject.size) :
    f.Within e.subject.size := by
  cases f with
  | alternative b y => exact Leads.within h hc.pos
  | stepBack b y more => exact (h y (Nat.le_refl y)).within hc.pos
  | absent b start stop => exact fun z hz hz' => (h z hz hz').within hc.pos
  | look mark y => exact h.2 ▸ hc.pos
  | capture g slot history => exact fun s hs => hc.captures.of_slot h.2 hs
  | _ => trivial

/-- A group that ends ends inside the subject, and not before it was entered. -/
theorem Sets.within {F : List Frame} {captures : Captures} (h : Sets e i c F captures)
    (hc : c.Within e.subject.size) (hclose : ∀ g start, i.ended? = some g →
      c.regs.captures.start? g = some start → start ≤ c.pos) : captures.Within e.subject.size := by
  cases h with
  | keeps => exact hc.captures
  | opens hi hslot => exact hc.captures.setSlot fun s hs => hc.captures.of_slot hslot hs
  | @closes g undo slot start hi hslot hstart =>
    have hentered : c.regs.captures.start? g = some start := by
      rw [Captures.start?, hslot, Option.bind_some, hstart]
    exact hc.captures.closed ⟨hclose g start hi.ended? hentered, hc.pos⟩ _

theorem Resuming.within {g : Frame} {a : Addr} {y : Nat} {top : List Frame}
    (h : Resuming e g a y top) {size : Nat} (hg : g.Within size) :
    y ≤ size ∧ ∀ f ∈ top, f.Within size := by
  cases h with
  | alternative => exact ⟨hg, nofun⟩
  | stepBack hp htop =>
    have hle : y ≤ size := Nat.le_trans (Nat.le_of_lt (Subject.prev?_lt hp)) hg
    rcases htop with rfl | ⟨more', rfl⟩
    · exact ⟨hle, nofun⟩
    · exact ⟨hle, fun f hf => List.mem_singleton.mp hf ▸ hle⟩
  | @absent a start stop y top hp htop =>
    obtain ⟨hprev, hstart⟩ := Option.filter_eq_some_iff.mp hp
    have hlt := Subject.prev?_lt hprev
    have hle : y ≤ size := hg y (of_decide_eq_true hstart) (Nat.le_of_lt hlt)
    rcases htop with rfl | rfl
    · exact ⟨hle, nofun⟩
    · exact ⟨hle, fun f hf => List.mem_singleton.mp hf ▸ fun z _ hz => Nat.le_trans hz hle⟩

/-- An instruction goes nowhere beyond the subject if no group ends before it was entered. -/
theorem Effect.within (h : Effect e i c d) (hc : c.Within e.subject.size)
    (hclose : ∀ g start, i.ended? = some g → c.regs.captures.start? g = some start →
      start ≤ c.pos) : d.Within e.subject.size := by
  cases h with
  | goes F hto hstart hd hF hrec hfits hr hsets =>
    refine ⟨hto.within hc.pos, hsets.within hc hclose, fun f hf => ?_⟩
    rw [hd] at hf
    exact (List.mem_append.mp hf).elim (fun hf => (hF f hf).within hc) (hc.frames f)
  | calls t sub s hi hs hd =>
    subst hd
    exact ⟨hc.pos, hc.captures, List.forall_mem_cons.mpr ⟨trivial, hc.frames⟩⟩
  | returns back sub saved s hi hcall hs hdepth hd =>
    subst hd
    exact ⟨hc.pos, fun g span hspan => hc.captures g span
      ((c.regs.setCallState_spans e.program sub saved).2 g ▸ hspan),
      List.forall_mem_cons.mpr ⟨trivial, hc.frames⟩⟩
  | resumes A g L top hcut hg hstart hd hr =>
    obtain ⟨hA, hgL⟩ := List.forall_mem_append.mp (hcut ▸ hc.frames)
    obtain ⟨hwithin, hL⟩ := List.forall_mem_cons.mp hgL
    obtain ⟨hle, htop⟩ := hg.within hwithin
    exact ⟨hle, hr ▸ Registers.within_undoAll hc.captures hA,
      hd ▸ List.forall_mem_append.mpr ⟨htop, hL⟩⟩
  | closes q F m K hcut hF hm hip hstart hd hr =>
    obtain ⟨hwithin, hmK⟩ := List.forall_mem_append.mp (hcut ▸ hc.frames)
    obtain ⟨hmarker, hK⟩ := List.forall_mem_cons.mp hmK
    refine ⟨?_, hr ▸ hc.captures, fun f hf => ?_⟩
    · rcases hm with ⟨mark, -, rfl⟩ | ⟨mark, -, -, hpos⟩
      · exact hmarker
      · exact hpos ▸ hc.pos
    · rw [hd] at hf
      rcases List.mem_append.mp ((List.dropWhile_sublist _).mem hf) with hf | hf
      · obtain ⟨g, hg, rfl⟩ := List.mem_map.mp hf
        exact (hwithin g hg).committed
      · rcases List.mem_cons.mp hf with rfl | hf
        · trivial
        · exact hK f hf
  | unwinds mark y F K hi hcut hF hd =>
    subst hd
    obtain ⟨hwithin, hK⟩ := List.forall_mem_append.mp (hcut ▸ hc.frames)
    exact ⟨hc.pos, Registers.within_undoAll hc.captures hwithin, (List.forall_mem_cons.mp hK).2⟩
  | drops f K hi hcut hf hd =>
    subst hd
    exact ⟨hc.pos, hc.captures, (List.forall_mem_cons.mp (hcut ▸ hc.frames)).2⟩

/-! ## States of an attempt -/

theorem AttemptAt.visited (h : AttemptAt e st pos s) (he : e.program = p) : Visited p e s := by
  induction h with
  | begin => exact .attempt he st pos
  | step n _ hstep ih => exact .step n ih hstep

/-- A group does not end before it was entered. -/
theorem Visited.close (hp : p.Compiled l root) (h : Visited p e s)
    (hi : e.program.code[s.ip]? = some i) {g start : Nat} (hg : i.ended? = some g)
    (hstart : s.regs.captures.start? g = some start) : start ≤ s.pos :=
  (h.safe hp 1).1.close i g start hi hg hstart

/-- No state of an attempt that begins inside the subject holds anything outside it. -/
theorem AttemptAt.within (hp : p.Compiled l root) (he : e.program = p)
    (hpos : pos ≤ e.subject.size) (h : AttemptAt e st pos s) : s.view.Within e.subject.size := by
  induction h with
  | begin =>
    rw [view_emit]
    exact ⟨hpos, Captures.within_none _ _, nofun⟩
  | step n h hstep ih =>
    have hvisited := h.visited he
    obtain ⟨i, hi, heffect⟩ := hvisited.effect hp (hvisited.fits hp) hstep
    exact heffect.within ih fun g start => hvisited.close hp hi

end Machine
end RegexMachine
