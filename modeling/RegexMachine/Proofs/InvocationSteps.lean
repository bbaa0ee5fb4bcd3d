import RegexMachine.Proofs.Invocations

/-!
Every step leaves invocations nested. Closing a region takes nothing from them but choices, an
invocation that returns has changed nothing of its caller, and a frame that resumes goes on with the
invocation that left it.
-/
namespace RegexMachine.Machine

/-- The invocations that calls begin change no groups or loops but those of their subroutines. -/
def Scoped (e : Setting) : Prop :=
  ∀ (a : Addr) t sub s, e.program.code[a]? = some (.call t sub) →
    e.program.tables.subroutines[sub]? = some s →
    ∀ x b y i, Reach e t x b y → e.program.code[b]? = some i →
      (∀ g, i.Saves g → g ∈ s.captures.toList) ∧
      ∀ id, i.Counts id → s.loops.first ≤ id ∧ id < s.loops.stop

/-- The positions at which calls were made, after a step from a state. -/
def View.chart (c : View) (γ : Nat → Nat) (n : Nat) : Nat :=
  if n < c.frames.length then γ n else c.pos

theorem View.chart_of_lt {c : View} {γ : Nat → Nat} {n : Nat} (h : n < c.frames.length) :
    c.chart γ n = γ n := if_pos h

variable {e : Setting} {kind : Nat → Prop} {γ : Nat → Nat} {Γ : Ground} {A : Invocation}
  {r r' : Registers} {i : Instr} {c d : View} {s : Subroutine} {F G H K L : List Frame} {f m : Frame}

namespace Registers

/-- Undoing what an instruction has left puts back the starts that it has changed. -/
theorem start?_undoAll_leftBy {g : Nat} (hF : ∀ f ∈ F, LeftBy e i c f)
    (hr : r.captures.start? g = c.regs.captures.start? g) :
    (r.undoAll e.program F).captures.start? g = c.regs.captures.start? g := by
  induction F generalizing r with
  | nil => exact hr
  | cons f F ih =>
    refine ih (fun f' hf' => hF f' (List.mem_cons_of_mem _ hf')) ?_
    have hf := hF f (by simp)
    cases f with
    | capture k slot history =>
      change (r.captures.restore k slot history).start? g = _
      rw [Captures.start?_restore]
      split
      · obtain ⟨rfl, -⟩ := ‹_ ∧ _›
        rw [Captures.start?, hf.2]
        rfl
      · exact hr
    | call => exact hf.elim
    | returned => exact hf.elim
    | _ => exact hr

/-- What a return puts back for a caller whose registers a subroutine has spared. -/
theorem like_putBack {s : Subroutine} {r₀ r₁ d : Registers} (hput : PutBack s r₀ r d)
    (hspares : Spares kind s r r₁) (hlike : Like kind r₁ { r₀ with depth := r₁.depth }) :
    Like kind d { r₁ with depth := d.depth } where
  slots := hspares.slots.trans hput.slots.symm
  start g hg := by
    rw [hput.start]
    split
    · exact (hlike.start g hg).symm
    · exact hspares.start g hg ‹_›
  counts := by
    refine Array.ext_getElem? fun id => ?_
    rw [hput.counts]
    split
    · exact congrArg (·[id]?) hlike.counts.symm
    · exact hspares.counts id ‹_›
  depth := rfl

/-- An invocation may undo what it has left without touching anything but its subroutine's. -/
theorem spares_undo (hs : ∀ a x i, A.places a x → e.program.code[a]? = some i →
      (∀ g, i.Saves g → g ∈ s.captures.toList) ∧
      ∀ id, i.Counts id → s.loops.first ≤ id ∧ id < s.loops.stop)
    (hf : A.Owns e f) : Spares kind s r (r.undo e.program f) := by
  cases f with
  | capture g slot history =>
    obtain ⟨a, x, i, ha, hi, hg⟩ := hf
    have hmem := (hs a x i ha hi).1 g hg
    refine ⟨by simp [undo, Captures.restore], fun k _ hk => ?_, rfl, fun _ _ => rfl, rfl⟩
    change (r.captures.restore g slot history).start? k = _
    rw [Captures.start?_restore, if_neg]
    rintro ⟨rfl, -⟩
    exact hk hmem
  | count id n =>
    obtain ⟨a, x, i, ha, hi, hid⟩ := hf
    have hmem := (hs a x i ha hi).2 id hid
    refine ⟨rfl, fun _ _ _ => rfl, by simp [undo], fun k hk => ?_, rfl⟩
    change (r.counts.setIfInBounds id n)[k]? = _
    rw [Array.getElem?_setIfInBounds_ne]
    rintro rfl
    exact hk hmem
  | keep => exact ⟨rfl, fun _ _ _ => rfl, rfl, fun _ _ => rfl, rfl⟩
  | call => exact hf.elim
  | returned => exact hf.elim
  | _ => exact .refl r

end Registers

namespace Held

/-! ## What lies above the ground -/

/-- Below an invocation that has returned, its caller goes on with the registers it had. -/
theorem popReturned {sub back sub' : Nat} {undo saved : CallState}
    (h : Held e kind γ Γ A r (.returned sub undo :: (G ++ .call back sub' saved :: K)))
    (hG : Balanced G) (hK : Γ.frames.length ≤ K.length) :
    r.Like kind
        (r.undoAll e.program (.returned sub undo :: (G ++ [.call back sub' saved]))) ∧
      Held e kind γ Γ A
        (r.undoAll e.program (.returned sub undo :: (G ++ [.call back sub' saved]))) K := by
  generalize hL : Frame.returned sub undo :: (G ++ .call back sub' saved :: K) = L at h
  cases h with
  | ground =>
    rw [← hL] at hK
    simp only [List.length_cons, List.length_append] at hK
    omega
  | own hf =>
    cases hL
    exact hf.elim
  | call => cases hL
  | returned hG' hcallee hlike h =>
    obtain ⟨hsame, hrest⟩ := List.cons.inj hL
    cases hsame
    obtain ⟨rfl, hsame, rfl⟩ := hG.split_unique hG' hrest
    cases hsame
    exact ⟨hlike, h⟩

/-- An invocation of a subroutine has changed none of its caller's registers. -/
theorem spares (hs : ∀ a x i, A.places a x → e.program.code[a]? = some i →
      (∀ g, i.Saves g → g ∈ s.captures.toList) ∧
      ∀ id, i.Counts id → s.loops.first ≤ id ∧ id < s.loops.stop)
    (hG : Balanced G) (hK : Γ.frames.length ≤ K.length) (h : Held e kind γ Γ A r (G ++ K)) :
    Registers.Spares kind s r (r.undoAll e.program G) ∧
      Held e kind γ Γ A (r.undoAll e.program G) K := by
  induction hG generalizing r with
  | nil => exact ⟨.refl r, h⟩
  | @frame f F hf hF ih =>
    obtain ⟨howns, hrest⟩ := h.top (by simp; omega) hf
    obtain ⟨hspares, hheld⟩ := ih hrest
    exact ⟨(Registers.spares_undo hs howns).trans hspares, hheld⟩
  | @call G F sub undo back sub' saved hG hF ih ih' =>
    rw [List.cons_append, List.append_assoc, List.cons_append] at h
    obtain ⟨hlike, hrest⟩ := h.popReturned hG (by simp; omega)
    obtain ⟨hspares, hheld⟩ := ih' hrest
    simp only [Registers.undoAll_cons, Registers.undoAll_append, Registers.undoAll_nil]
      at hlike hspares hheld ⊢
    exact ⟨(hlike.spares s).trans hspares, hheld⟩

/-- Frames above the ground may fade. -/
theorem fade (h : Held e kind γ Γ A r (F ++ Γ.frames)) (hF : Fade F G) :
    Held e kind γ Γ A r (G ++ Γ.frames) := by
  generalize hL : F ++ Γ.frames = L at h
  induction h generalizing F G with
  | ground h =>
    obtain rfl : F = [] := by simpa using hL
    cases hF
    exact .ground h
  | @own A r f K hf h ih =>
    obtain ⟨F₁, rfl⟩ := h.above
    obtain rfl : F = f :: F₁ := List.append_cancel_right hL
    cases hF with
    | cons hfade hrest =>
      rcases hfade with rfl | ⟨rfl, -, hundo⟩
      · exact .own hf (ih hrest rfl)
      · refine .own trivial ?_
        have hheld := ih hrest rfl
        rwa [hundo] at hheld
  | @call A r K a t sub s saved hcode hplace hs hsaved hdepth h ih =>
    obtain ⟨F₁, rfl⟩ := h.above
    obtain rfl : F = .call (a + 1) sub saved :: F₁ := List.append_cancel_right hL
    cases hF with
    | cons hfade hrest =>
      cases hfade.eq_of_call rfl
      have hheld := ih hrest rfl
      have hlen := hrest.length_eq
      simp only [List.length_append, hlen] at hplace ⊢
      rw [← List.length_append] at hplace ⊢
      exact .call hcode hplace hs hsaved hdepth hheld
  | @returned A B r G₁ K sub undo back sub' saved hG hcallee hlike h ih ih' =>
    obtain ⟨F₁, rfl⟩ := h.above
    obtain rfl : F = .returned sub undo :: (G₁ ++ .call back sub' saved :: F₁) :=
      List.append_cancel_right (hL.trans (by simp))
    cases hF with
    | cons hfade hrest =>
      cases hfade.eq_of_call rfl
      obtain ⟨G', F', rfl, hG', hF'⟩ := Fade.around hrest
      have hcallee' := ih hrest (by simp)
      have hheld := ih' hF' rfl
      have hundo : r.undoAll e.program (.returned sub undo :: (G' ++ [.call back sub' saved])) =
          r.undoAll e.program (.returned sub undo :: (G₁ ++ [.call back sub' saved])) := by
        simp only [Registers.undoAll_cons, Registers.undoAll_append, hG'.undoAll]
      rw [List.append_assoc, List.cons_append] at hcallee'
      rw [List.cons_append, List.append_assoc, List.cons_append]
      rw [← hundo] at hlike hheld
      exact .returned (hG.fade hG') hcallee' hlike hheld

/-- Void frames may be taken off firm ground. -/
theorem dropVoids (hΓ : Γ.Firm) (h : Held e kind γ Γ A r (F ++ Γ.frames)) :
    Held e kind γ Γ A r ((F ++ Γ.frames).dropWhile Frame.isVoid) := by
  induction F with
  | nil =>
    have hsolid : Γ.frames.dropWhile Frame.isVoid = Γ.frames := by
      rcases hΓ with hnone | ⟨back, sub, saved, K, htop⟩
      · rw [hnone]
        rfl
      · rw [htop]
        rfl
    rwa [List.nil_append, hsolid]
  | cons f F ih =>
    by_cases hf : f.isVoid = true
    · rw [List.cons_append, List.dropWhile_cons_of_pos hf]
      have hvoid : f = .void := by cases f <;> first | rfl | cases hf
      subst hvoid
      exact ih (h.top (by simp) rfl).2
    · rw [List.cons_append, List.dropWhile_cons_of_neg hf]
      exact h

/-- A choice lies above firm ground, and so do the frames below it unless the stack gets lower than
the ground. -/
theorem length_le (hΓ : Γ.Firm) (h : Held e kind γ Γ A r (F ++ f :: K))
    (hf : f.isChoice = true) (hlow : Γ.frames.length ≤ K.length + 1) : Γ.frames.length ≤ K.length := by
  rcases hΓ with hnone | ⟨back, sub, saved, L, htop⟩
  · simp [hnone]
  · obtain ⟨G, hG⟩ := h.above
    by_contra hlt
    -- Otherwise the choice would be the call on top of the ground.
    have hsame : f :: K = Γ.frames := List.append_inj_right' hG (by rw [List.length_cons]; omega)
    rw [htop] at hsame
    cases (List.cons.inj hsame).1
    cases hf

/-- A frame above the ground that resumes goes on with the invocation that has left it. -/
theorem resume {a : Addr} {pos : Nat} {top : List Frame} (h : Held e kind γ Γ A r (F ++ f :: K))
    (hf : Resuming e f a pos top) (hK : Γ.frames.length ≤ K.length) :
    ∃ B, Held e kind γ Γ B (r.undoAll e.program F) (top ++ K) ∧ B.places a pos := by
  obtain ⟨B, hB⟩ := h.popAll (by simp; omega)
  obtain ⟨howns, hheld⟩ := hB.top hK (by cases hf <;> rfl)
  obtain ⟨hresumes, htop⟩ := howns.resuming hf
  rw [Registers.undo_of_isChoice _ _ _ hf.isChoice] at hheld
  refine ⟨B, .push htop ?_, hresumes⟩
  rwa [Registers.undoAll_choices hf.top_choices]

end Held

/-! ## Steps -/

/-- What a step makes of nested invocations that does not take the ground away. -/
inductive Advances (e : Setting) (kind : Nat → Prop) (γ : Nat → Nat) (Γ : Ground) (c d : View) :
    Prop
  | inside (B : Invocation) (h : Held e kind γ Γ B d.regs d.frames) (hplace : B.places d.ip d.pos)
  /-- The invocation of the ground has returned. -/
  | leaves (H : List Frame) (sub : Nat) (undo : CallState) (hc : c.frames = H ++ Γ.frames)
    (hH : Balanced H) (hcall : FrameStack.callFrom 0 Γ.frames ≠ none)
    (hd : d.frames = .returned sub undo :: c.frames)
    (hr : d.regs.undo e.program (.returned sub undo) = c.regs)

/-- Undoing the frames that an instruction leaves gives back what was there, but for groups that it
has opened without a record. -/
theorem Registers.like_undoAll {F : List Frame} (hF : ∀ f ∈ F, LeftBy e i c f)
    (hkind : ∀ g, kind g → e.program.Restores g ∨ ∀ undo, i ≠ .groupStart g undo)
    (hr : c.regs.Agrees e.program (d.regs.undoAll e.program F))
    (hopen : ∀ g, (∀ undo, i ≠ .groupStart g undo) →
      d.regs.captures.start? g = c.regs.captures.start? g) :
    c.regs.Like kind (d.regs.undoAll e.program F) := by
  refine ⟨hr.like.slots, fun g hg => ?_, hr.like.counts, hr.like.depth⟩
  rcases hkind g hg with hrestores | hother
  · exact hr.like.start g hrestores
  · exact Registers.start?_undoAll_leftBy hF (hopen g hother)

theorem Held.step (hsubs : ∀ s ∈ e.program.tables.subroutines, s.Fits e.program.tables)
    (hscoped : Scoped e) (hroot : Γ.root.Goes e) (hfits : c.Fits e.program)
    (hkind : ∀ g, kind g → e.program.Restores g ∨ ∀ undo, i ≠ .groupStart g undo)
    (hi : e.program.code[c.ip]? = some i) (hplace : A.places c.ip c.pos)
    (heffect : Effect e i c d) (hΓ : Γ.Firm) (hlow : Γ.frames.length ≤ d.frames.length)
    (h : Held e kind γ Γ A c.regs c.frames) : Advances e kind (c.chart γ) Γ c d := by
  have hgoes := h.goes hroot
  have hnow : Held e kind (c.chart γ) Γ A c.regs c.frames := h.chart fun n hn => View.chart_of_lt hn
  cases heffect with
  | goes F hto hstart hd hF hrec hfitsF hr hsets =>
    have hlike := Registers.like_undoAll hF hkind hr fun _ => hsets.start?_eq
    refine .inside A ?_ (hgoes.leads _ _ _ _ _ hplace hi hto)
    rw [hd]
    exact .push (fun f hf => Invocation.owns_leftBy hgoes hplace hi (hF f hf)) (hnow.like hlike)
  | calls t sub s hcall hs hd =>
    subst hd hcall
    have hchart : c.chart γ c.frames.length = c.pos := if_neg (Nat.lt_irrefl _)
    have hundo : ({ c.regs with depth := c.regs.depth + 1 } : Registers).undo e.program
        (.call (c.ip + 1) sub (c.regs.saved s)) = c.regs := rfl
    refine .inside (.ofCall e t (c.chart γ c.frames.length) sub)
      (.call hi (by rwa [hchart]) hs ⟨c.regs, ?_, rfl⟩ (Nat.succ_ne_zero _) ?_) ?_
    · rw [hundo]
      exact .refl _
    · rw [hundo]
      exact hnow
    · rw [hchart]
      exact .entry t c.pos
  | returns back sub saved s hret hcall hs hdepth hd =>
    have hsub := hsubs s (Array.mem_of_getElem? hs)
    obtain ⟨s', hs', hlen⟩ := hfits.frames _ (callFrom_mem hcall)
    obtain rfl : s = s' := Option.some.inj (hs.symm.trans hs')
    have hundo := Registers.undo_returned hs hsub hfits.regs hdepth hlen
    subst hd hret
    rcases hnow.current hcall with ⟨G, K, B, hframes, hcallee⟩ | ⟨H, hframes, hH, -, -⟩
    · obtain ⟨hG, ⟨a, t, rfl, hcode, hfrom, rfl⟩, ⟨s', r₀, hs', rfl, hr₀⟩, hnotzero, hcaller⟩ := hcallee
      obtain rfl : s = s' := Option.some.inj (hs.symm.trans hs')
      have hK : Γ.frames.length ≤ K.length := by
        obtain ⟨F, rfl⟩ := hcaller.above
        simp
      -- The callee has spared what is not its own, and what is its own is put back.
      have hspares := (Held.spares (hscoped _ _ _ _ hcode hs _) hG
        (by simp; omega) (hframes ▸ hnow)).1
      have hput := Registers.putBack_saved hs hsub
        (hr₀.fits ((Registers.fits_undoAll _).mpr hfits.regs)) hfits.regs
      have hlike : Registers.Like kind
          { c.regs.setCallState e.program sub (r₀.saved s) with depth := c.regs.depth - 1 }
          (c.regs.undoAll e.program (G ++ [.call (a + 1) sub (r₀.saved s)])) := by
        rw [Registers.undoAll_append] at hr₀ ⊢
        have hback := Registers.like_putBack hput hspares
          ⟨hr₀.slots, hr₀.start, hr₀.counts, rfl⟩
        exact ⟨hback.slots, hback.start, hback.counts, congrArg (· - 1) hspares.depth⟩
      have hundoAll : ∀ F, ({ c.regs.setCallState e.program sub (r₀.saved s) with
          depth := c.regs.depth - 1 } : Registers).undoAll e.program
          (.returned sub (c.regs.saved s) :: F) = c.regs.undoAll e.program F := fun F => by
        rw [Registers.undoAll_cons, hundo]
      refine .inside B ?_ ((hcaller.goes hroot).call _ _ _ _ _ _ hfrom hcode hplace hi)
      rw [hframes]
      refine .returned (B := .ofCall e t (c.chart γ K.length) sub) hG ?_ ?_ ?_
      · rw [hundo, ← hframes]
        exact hnow
      · rw [hundoAll]
        exact hlike
      · rw [hundoAll]
        exact hcaller
    · rw [hframes, hH.callFrom] at hcall
      exact .leaves H sub _ hframes hH (by simp [hcall]) rfl hundo
  | resumes A' g L top hc hg hstart hd hr =>
    rw [hc] at hnow
    have htop := hg.length_top
    rw [hd, List.length_append] at hlow
    obtain ⟨B, hheld, hplace'⟩ := hnow.resume hg (hnow.length_le hΓ hg.isChoice (by omega))
    exact .inside B (by rwa [hd, hr]) hplace'
  | closes q F m K hc hF hm hip hstart hd hr =>
    have hvoid : ∀ (p : Program) (r : Registers), r.undo p m = r := by
      rcases hm with ⟨mark, -, rfl⟩ | ⟨mark, -, rfl, -⟩ <;> exact fun _ _ => rfl
    rw [hc] at hnow
    obtain ⟨howns, hheld⟩ := hnow.found hΓ hF
    refine .inside A ?_ ?_
    · obtain ⟨K₁, rfl⟩ := hheld.above
      rw [← List.cons_append, ← List.append_assoc] at hnow hd
      have hfade : Fade (F ++ m :: K₁) (F.map Frame.committed ++ .void :: K₁) :=
        List.rel_append (Fade.committed F)
          (.cons (Or.inr ⟨rfl, howns.not_call, hvoid⟩) (Fade.refl K₁))
      rw [hd, hr]
      exact (hnow.fade hfade).dropVoids hΓ
    · rw [hip]
      rcases hm with ⟨mark, rfl, rfl⟩ | ⟨mark, rfl, rfl, hpos⟩
      · obtain ⟨a, ha, hcode⟩ := howns
        exact hgoes.leads _ _ _ _ _ ha hcode ⟨Or.inr ⟨c.ip, hi, rfl⟩, rfl⟩
      · exact hgoes.leads _ _ _ _ _ hplace hi ⟨rfl, hpos⟩
  | unwinds mark pos F K hunwind hc hF hd =>
    subst hd hunwind
    rw [hc] at hnow
    exact .inside A (hnow.found hΓ hF).2 (hgoes.leads _ _ _ _ _ hplace hi ⟨rfl, rfl⟩)
  | drops f K hdrop hc hf hd =>
    subst hd hdrop
    rw [hc] at hnow
    have hheld := (hnow.top hlow (by cases f <;> first | rfl | cases hf)).2
    rw [Registers.undo_of_isChoice _ _ _ hf] at hheld
    exact .inside A hheld (hgoes.leads _ _ _ _ _ hplace hi ⟨rfl, rfl⟩)

end RegexMachine.Machine
