import RegexMachine.Proofs.Charts
import RegexMachine.Proofs.Resumption

/-!
What a caller finds when an invocation has returned. The frames of the invocation stay on the stack,
and backtracking may enter it again. Until then nothing that its caller does reaches them, except that
closing a region for good makes all their choices void, and none of them is resumed after that.
-/
namespace RegexMachine

/-! ## Lookups -/

/-- What a lookup for a marker finds on frames, with the frames above and below it. -/
def FrameStack.found? (q : Frame → Bool) (frames : List Frame) : Option (FrameView frames) :=
  viewFrom q frames [] 0 frames (List.nil_append frames)

/-- The frames above a frame, that, and the frames below. -/
def FrameView.parts {K : List Frame} (v : FrameView K) : List Frame × Frame × List Frame :=
  (v.above, v.frame, v.below)

/-- Two lookups find the same frame: as far from the top, or with the same frames below it. -/
def FrameView.Same {K L : List Frame} (v : FrameView K) (w : FrameView L) : Prop :=
  v.frame = w.frame ∧ (v.above = w.above ∨ v.below = w.below)

namespace FrameStack

/-- The frames that a lookup passes on the way to what it finds, that, and the frames below. -/
def seek (q : Frame → Bool) : (level : Nat) → List Frame → Option (List Frame × Frame × List Frame)
  | _, [] => none
  | level, .returned sub undo :: K => (seek q (level + 1) K).map fun v => (.returned sub undo :: v.1, v.2)
  | level, .call back sub saved :: K =>
    if level = 0 then none
    else (seek q (level - 1) K).map fun v => (.call back sub saved :: v.1, v.2)
  | level, f :: K =>
    if level = 0 && q f then some ([], f, K) else (seek q level K).map fun v => (f :: v.1, v.2)

variable {q : Frame → Bool} {f : Frame} {A G K L X Y : List Frame} {level : Nat}

theorem seek_other (hf : isCallFrame f = false) : seek q level (f :: K) =
    if level = 0 && q f then some ([], f, K) else (seek q level K).map fun v => (f :: v.1, v.2) := by
  cases f <;> first | rfl | cases hf

/-- The lookups of the machine seek so. -/
theorem viewFrom_seek (q : Frame → Bool) {frames above : List Frame}
    (h : above.reverse ++ K = frames) :
    (viewFrom q frames above level K h).map FrameView.parts =
      (seek q level K).map fun v => (v.1.reverse ++ above, v.2) := by
  induction K generalizing above level with
  | nil => rfl
  | cons f K ih =>
    have hbelow : ∀ level, (viewFrom q frames (f :: above) level K (by simpa using h)).map
        FrameView.parts =
          ((seek q level K).map fun v => (f :: v.1, v.2)).map fun v => (v.1.reverse ++ above, v.2) := by
      intro level
      rw [ih, Option.map_map]
      simp [Function.comp_def]
    have hother : isCallFrame f = false →
        (if level = 0 && q f then some (⟨above, f, K, h⟩ : FrameView frames)
          else viewFrom q frames (f :: above) level K (by simpa using h)).map
            FrameView.parts =
          (seek q level (f :: K)).map fun v => (v.1.reverse ++ above, v.2) := by
      intro hf
      rw [seek_other hf]
      split
      · rfl
      · exact hbelow level
    cases f with
    | returned sub undo => exact hbelow (level + 1)
    | call back sub saved =>
      simp only [viewFrom, seek]
      split
      · rfl
      · exact hbelow (level - 1)
    | _ => exact hother rfl

theorem found?_seek (q : Frame → Bool) (K : List Frame) :
    (found? q K).map FrameView.parts =
      (seek q 0 K).map fun v => (v.1.reverse, v.2) :=
  (viewFrom_seek q (show [].reverse ++ K = K from rfl)).trans (by simp)

/-- An invocation that has returned is passed over. -/
theorem seek_inside (hG : Balanced G) (level : Nat) (K : List Frame) :
    seek q (level + 1) (G ++ K) = (seek q (level + 1) K).map fun v => (G ++ v.1, v.2) := by
  induction hG generalizing level K with
  | nil => simp
  | frame hf hF ih =>
    rw [List.cons_append, seek_other hf, ih, Option.map_map]
    rfl
  | call sub undo back sub' saved hG hF ih ih' =>
    rw [List.cons_append, List.append_assoc, seek, ih, List.cons_append, seek,
      if_neg (Nat.succ_ne_zero _), Nat.add_sub_cancel, ih']
    simp [Function.comp_def]

theorem seek_returned (hG : Balanced G) (level : Nat) (K : List Frame) {sub sub' : Nat}
    {back : Addr} {undo saved : CallState} :
    seek q level (.returned sub undo :: (G ++ .call back sub' saved :: K)) =
      (seek q level K).map fun v => (.returned sub undo :: (G ++ .call back sub' saved :: v.1), v.2) := by
  rw [seek, seek_inside hG, seek, if_neg (Nat.succ_ne_zero _), Nat.add_sub_cancel]
  simp [Function.comp_def]

theorem rel_map {α β α' β' : Type} {R : α → β → Prop} {S : α' → β' → Prop} {f : α → α'} {g : β → β'}
    {a : Option α} {b : Option β} (h : Option.Rel R a b) (hfg : ∀ x y, R x y → S (f x) (g y)) :
    Option.Rel S (a.map f) (b.map g) := by
  cases h with
  | none => exact .none
  | some h => exact .some (hfg _ _ h)

theorem rel_of_map {α β α' β' : Type} {S : α' → β' → Prop} {f : α → α'} {g : β → β'} {a : Option α}
    {b : Option β} (h : Option.Rel S (a.map f) (b.map g)) :
    Option.Rel (fun x y => S (f x) (g y)) a b := by
  cases a <;> cases b <;> cases h <;> constructor
  assumption

/-- What two lookups find, with the frames above and below it, is the same. -/
def SameSought (v w : List Frame × Frame × List Frame) : Prop :=
  v.2.1 = w.2.1 ∧ (v.1 = w.1 ∨ v.2.2 = w.2.2)

/-- Whatever frames come to lie above, lookups pass over an invocation that has returned. -/
theorem seek_over (hG : Balanced G) (A K : List Frame) (level : Nat) {sub sub' : Nat}
    {back : Addr} {undo saved : CallState} :
    Option.Rel SameSought
      (seek q level (A ++ .returned sub undo :: (G ++ .call back sub' saved :: K)))
      (seek q level (A ++ K)) := by
  induction A generalizing level with
  | nil =>
    rw [List.nil_append, List.nil_append, seek_returned hG]
    cases seek q level K with
    | none => exact .none
    | some v => exact .some ⟨rfl, Or.inr rfl⟩
  | cons f A ih =>
    have hbelow : ∀ level, Option.Rel SameSought
        ((seek q level (A ++ .returned sub undo :: (G ++ .call back sub' saved :: K))).map
          fun v => (f :: v.1, v.2))
        ((seek q level (A ++ K)).map fun v => (f :: v.1, v.2)) := fun level =>
      rel_map (ih level) fun _ _ h => ⟨h.1, h.2.imp_left (congrArg (f :: ·))⟩
    have hother : isCallFrame f = false → Option.Rel SameSought
        (seek q level (f :: (A ++ .returned sub undo :: (G ++ .call back sub' saved :: K))))
        (seek q level (f :: (A ++ K))) := by
      intro hf
      rw [seek_other hf, seek_other hf]
      split
      · exact .some ⟨rfl, Or.inl rfl⟩
      · exact hbelow level
    cases f with
    | returned => exact hbelow (level + 1)
    | call =>
      simp only [List.cons_append, seek]
      split
      · exact .none
      · exact hbelow (level - 1)
    | _ => exact hother rfl

/-- So do those of the machine. -/
theorem found?_over (q : Frame → Bool) (hG : Balanced G) (A K : List Frame) {sub sub' : Nat}
    {back : Addr} {undo saved : CallState} :
    Option.Rel FrameView.Same
      (found? q (A ++ .returned sub undo :: (G ++ .call back sub' saved :: K)))
      (found? q (A ++ K)) := by
  refine rel_of_map (f := FrameView.parts) (g := FrameView.parts) (S := SameSought) ?_
  rw [found?_seek, found?_seek]
  exact rel_map (seek_over hG A K 0) fun _ _ h => ⟨h.1, h.2.imp_left (congrArg List.reverse)⟩

end FrameStack

namespace Machine

variable {e : Setting} {kind : Nat → Prop} {i : Instr} {c d : View} {q : Frame → Bool}
  {f g m : Frame} {A B F G H K L M : List Frame} {level : Nat}

/-! ## What a step does to an invocation that has returned -/

/-- Below a return a lookup is inside the invocation that has returned. -/
theorem Locates.beneath {sub : Nat} {undo : CallState}
    (h : Locates q level (F ++ .returned sub undo :: B) m) : ∃ level, Locates q (level + 1) B m := by
  generalize hX : F ++ .returned sub undo :: B = X at h
  induction h generalizing F with
  | here => simp at hX
  | returned sub' undo' h ih =>
    cases F with
    | nil =>
      cases hX
      exact ⟨_, h⟩
    | cons f F => exact ih (List.cons.inj hX).2
  | call back sub' saved h ih =>
    cases F with
    | nil => cases hX
    | cons f F => exact ih (List.cons.inj hX).2
  | other hf h ih =>
    cases F with
    | nil =>
      cases (List.cons.inj hX).1
      cases hf
    | cons f F => exact ih (List.cons.inj hX).2

/-- One of two frames on a stack lies below the other. -/
theorem split_cases (h : A ++ g :: L = F ++ f :: M) (hne : g ≠ f) :
    (∃ G, F = A ++ g :: G ∧ L = G ++ f :: M) ∨ ∃ B, A = F ++ f :: B ∧ M = B ++ g :: L := by
  rcases List.append_eq_append_iff.mp h with ⟨G, rfl, hG⟩ | ⟨B, rfl, hB⟩
  · cases G with
    | nil => exact absurd (List.cons.inj hG).1 hne
    | cons g' G =>
      obtain ⟨rfl, rfl⟩ := List.cons.inj hG
      exact Or.inl ⟨G, rfl, rfl⟩
  · cases B with
    | nil => exact absurd (List.cons.inj hB).1.symm hne
    | cons f' B =>
      obtain ⟨rfl, rfl⟩ := List.cons.inj hB
      exact Or.inr ⟨B, rfl, rfl⟩

/-- What a step makes of a stack on which an invocation has returned, with frames above its return. -/
inductive Overlies (e : Setting) (kind : Nat → Prop) (c d : View) (F : List Frame) (f : Frame)
    (M : List Frame) : Prop
  /-- Only the frames above the return have changed. -/
  | keeps (F' : List Frame) (hd : d.frames = F' ++ f :: M)
    (hr : (c.regs.undoAll e.program F).Like kind (d.regs.undoAll e.program F'))
  /-- A frame below the return has resumed. -/
  | resumes (A : List Frame) (g : Frame) (L top : List Frame) (hM : M = A ++ g :: L)
    (hg : Resuming e g d.ip d.pos top) (hd : d.frames = top ++ L)
    (hr : d.regs = (c.regs.undoAll e.program (F ++ [f])).undoAll e.program A)
  /-- A region has been closed that was open below the return. -/
  | closes (F' : List Frame) (q : Frame → Bool) (level : Nat) (B : List Frame) (m : Frame)
    (L : List Frame) (hM : M = B ++ m :: L) (hB : Locates q (level + 1) B m) (hm : m.Fades .void)
    (hd : d.frames = F' ++ f :: (B.map Frame.committed ++ .void :: L))
  /-- A region has been unwound that was open below the return. -/
  | unwinds (q : Frame → Bool) (level : Nat) (B : List Frame) (m : Frame) (hM : M = B ++ m :: d.frames)
    (hB : Locates q (level + 1) B m)

theorem Effect.over (hsubs : ∀ s ∈ e.program.tables.subroutines, s.Fits e.program.tables)
    (hfits : c.Fits e.program)
    (hkind : ∀ g, kind g → e.program.Restores g ∨ ∀ undo, i ≠ .groupStart g undo)
    (heffect : Effect e i c d) {sub : Nat} {undo : CallState}
    (hc : c.frames = F ++ .returned sub undo :: M) : Overlies e kind c d F (.returned sub undo) M := by
  cases heffect with
  | goes G hto hstart hd hG hrec hfitsG hr hsets =>
    refine .keeps (G ++ F) (by rw [hd, hc, List.append_assoc]) ?_
    rw [Registers.undoAll_append]
    exact (Registers.like_undoAll hG hkind hr fun _ => hsets.start?_eq).undoAll F
  | calls t sub' s hcall hs hd =>
    subst hd
    exact .keeps (.call (c.ip + 1) sub' (c.regs.saved s) :: F) (by rw [hc]; rfl) (.refl _)
  | returns back sub' saved s hret hcall hs hdepth hd =>
    obtain ⟨s', hs', hlen⟩ := hfits.frames _ (callFrom_mem hcall)
    obtain rfl : s = s' := Option.some.inj (hs.symm.trans hs')
    subst hd
    refine .keeps (.returned sub' (c.regs.saved s) :: F) (by rw [hc]; rfl) ?_
    rw [Registers.undoAll_cons, Registers.undo_returned hs (hsubs s (Array.mem_of_getElem? hs))
      hfits.regs hdepth hlen]
    exact .refl _
  | resumes A g L top hcut hg hstart hd hr =>
    rcases split_cases (hcut.symm.trans hc) (by rintro rfl; cases hg) with ⟨G, rfl, rfl⟩ | ⟨B, rfl, rfl⟩
    · refine .keeps (top ++ G) (by rw [hd, List.append_assoc]) (.of_eq ?_)
      rw [hr, Registers.undoAll_append, Registers.undoAll_choices hg.top_choices,
        Registers.undoAll_append, Registers.undoAll_cons, Registers.undo_of_isChoice _ _ _ hg.isChoice]
    · refine .resumes B g L top rfl hg hd ?_
      rw [hr, ← Registers.undoAll_append, List.append_assoc]
      rfl
  | closes q B m L hcut hB hm hip hstart hd hr =>
    have hvoid : ∀ (p : Program) (r : Registers), r.undo p m = r := by
      rcases hm with ⟨mark, -, rfl⟩ | ⟨mark, -, rfl, -⟩ <;> exact fun _ _ => rfl
    have hcall : FrameStack.isCallFrame m = false := by
      rcases hm with ⟨mark, -, rfl⟩ | ⟨mark, -, rfl, -⟩ <;> rfl
    have hne : m ≠ .returned sub undo := by
      rintro rfl
      cases hcall
    have hstop : ∀ X N : List Frame, (X ++ .returned sub undo :: N).dropWhile Frame.isVoid =
        X.dropWhile Frame.isVoid ++ .returned sub undo :: N := by
      intro X N
      rw [List.dropWhile_append]
      split
      · rename_i hnone
        rw [List.isEmpty_iff.mp hnone]
        rfl
      · rfl
    rcases split_cases (hcut.symm.trans hc) hne with ⟨G, rfl, rfl⟩ | ⟨B', rfl, rfl⟩
    · refine .keeps ((B.map Frame.committed ++ .void :: G).dropWhile Frame.isVoid) ?_ (.of_eq ?_)
      · rw [hd, ← hstop]
        simp
      · rw [Registers.undoAll_settled _ (Settled.dropVoids _), Registers.undoAll_append,
          Registers.undoAll_append, Registers.undoAll_committed, Registers.undoAll_cons,
          Registers.undoAll_cons, hvoid, hr]
        rfl
    · obtain ⟨level, hlevel⟩ := hB.beneath
      refine .closes ((F.map Frame.committed).dropWhile Frame.isVoid) q level B' m L rfl hlevel
        (Or.inr ⟨rfl, hcall, hvoid⟩) ?_
      rw [hd, ← hstop]
      simp [Frame.committed, Frame.isChoice]
  | unwinds mark pos B K hunwind hcut hB hd =>
    subst hd
    rcases split_cases (hcut.symm.trans hc) (by simp) with ⟨G, rfl, rfl⟩ | ⟨B', rfl, rfl⟩
    · refine .keeps G rfl (.of_eq ?_)
      rw [Registers.undoAll_append]
      rfl
    · obtain ⟨level, hlevel⟩ := hB.beneath
      exact .unwinds _ level B' _ rfl hlevel
  | drops g L hdrop hcut hg hd =>
    subst hd
    cases F with
    | nil =>
      cases (List.cons.inj (hcut.symm.trans hc)).1
      cases hg
    | cons g' F =>
      obtain ⟨rfl, rfl⟩ := List.cons.inj (hcut.symm.trans hc)
      refine .keeps F rfl (.of_eq ?_)
      rw [Registers.undoAll_cons, Registers.undo_of_isChoice _ _ _ hg]

/-! ## From a call on -/

/-- What has become of an invocation since it stood on firm ground: it or what it has called runs, or
it has returned and its caller goes on. Then either nothing below its return has changed, and undoing
the frames above gives what it returned with, or a region has been closed that its caller had opened
before, and none of its frames can be resumed. -/
inductive Since (e : Setting) (kind : Nat → Prop) (Γ : Ground) (c : View) : Prop
  | inside (γ : Nat → Nat) (A : Invocation) (h : Held e kind γ Γ A c.regs c.frames)
    (hplace : A.places c.ip c.pos)
  | left (F H L : List Frame) (sub : Nat) (undo : CallState)
    (hc : c.frames = F ++ .returned sub undo :: (H ++ L)) (hH : Balanced H) (hL : Fade Γ.frames L)
    (hback : (∀ f ∈ H, f.isChoice = false) ∨ L = Γ.frames ∧ ∃ γ A, Held e kind γ Γ A
      (c.regs.undoAll e.program (F ++ [.returned sub undo])) (H ++ Γ.frames))

theorem Since.step {Γ : Ground} {back sub : Nat} {saved : CallState}
    (hsubs : ∀ s ∈ e.program.tables.subroutines, s.Fits e.program.tables) (hscoped : Scoped e)
    (hroot : Γ.root.Goes e) (hΓ : Γ.frames = .call back sub saved :: K) (hfits : c.Fits e.program)
    (hkind : ∀ g, kind g → e.program.Restores g ∨ ∀ undo, i ≠ .groupStart g undo)
    (hi : e.program.code[c.ip]? = some i) (heffect : Effect e i c d)
    (hlow : Γ.frames.length ≤ d.frames.length) (h : Since e kind Γ c) : Since e kind Γ d := by
  have hfirm : Γ.Firm := Or.inr ⟨back, sub, saved, K, hΓ⟩
  cases h with
  | inside γ A h hplace =>
    cases h.step hsubs hscoped hroot hfits hkind hi hplace heffect hfirm hlow with
    | inside B h hplace => exact .inside _ B h hplace
    | leaves H sub' undo hc hH hcall hd hr =>
      refine .left [] H Γ.frames sub' undo (by rw [hd, hc]; rfl) hH (Fade.refl _)
        (Or.inr ⟨rfl, γ, A, ?_⟩)
      rw [hc] at h
      rwa [List.nil_append, Registers.undoAll_cons, Registers.undoAll_nil, hr]
  | left F H L sub' undo hc hH hL hback =>
    have hlen : L.length = Γ.frames.length := hL.length_eq.symm
    obtain ⟨K', rfl, -⟩ := Fade.onCall (hΓ ▸ hL)
    cases heffect.over hsubs hfits hkind hc with
    | keeps F' hd hr =>
      refine .left F' H _ sub' undo hd hH hL (hback.imp_right ?_)
      rintro ⟨hsame, γ, A, h⟩
      refine ⟨hsame, γ, A, h.like ?_⟩
      rw [Registers.undoAll_append, Registers.undoAll_append]
      exact hr.undoAll _
    | resumes B g M top hM hg hd hr =>
      have htop := hg.length_top
      have hne : g ≠ .call back sub saved := by
        rintro rfl
        cases hg
      rcases split_cases hM.symm hne with ⟨G, rfl, rfl⟩ | ⟨B', rfl, rfl⟩
      · rcases hback with hnone | ⟨hsame, γ, A, h⟩
        · have := hnone g (by simp)
          rw [hg.isChoice] at this
          cases this
        · rw [← hsame, List.append_assoc, List.cons_append] at h
          obtain ⟨C, hheld, hplace⟩ := h.resume hg (by simp [hlen])
          exact .inside γ C (by rwa [hd, hr]) hplace
      · -- What lies below the call cannot have resumed.
        rw [hd, List.length_append, ← hlen] at hlow
        simp at hlow
        omega
    | closes F' q level B m M hM hB hm hd =>
      obtain ⟨B', rfl, hB', -⟩ := hH.locates hB hM
      refine .left F' (H.map Frame.committed) (B'.map Frame.committed ++ .void :: M) sub' undo
        (by rw [hd]; simp) (hH.fade (Fade.committed H)) (hL.trans ?_) (Or.inl (by simp))
      rw [hB']
      exact List.rel_append (Fade.committed B') (.cons hm (Fade.refl M))
    | unwinds q level B m hM hB =>
      obtain ⟨B', rfl, hB', -⟩ := hH.locates hB hM
      have := congrArg List.length hB'
      simp at this
      simp at hlen
      omega

/-! ## A call that is returned from -/

theorem openCalls_lt {level : Nat} : ∀ {K : List Frame}, ∀ c ∈ openCalls level K, c.2 < K.length := by
  intro K
  induction K generalizing level with
  | nil => nofun
  | cons f K ih =>
    intro c hc
    have hbelow : ∀ level, c ∈ openCalls level K → c.2 < (f :: K).length := fun _ h =>
      Nat.lt_succ_of_lt (ih c h)
    cases f with
    | returned => exact hbelow _ hc
    | call =>
      rw [openCalls] at hc
      split at hc
      · rcases List.mem_cons.mp hc with rfl | hc
        · exact Nat.lt_succ_self _
        · exact hbelow 0 hc
      · exact hbelow _ hc
    | _ => exact hbelow _ hc

/-- An open call is one of the frames on top, or it is open below them. -/
theorem openCalls_over {level : Nat} (F X : List Frame) :
    ∀ c ∈ openCalls level (F ++ X), X.length ≤ c.2 ∨ ∃ level, c ∈ openCalls level X := by
  induction F generalizing level with
  | nil => exact fun c hc => Or.inr ⟨level, hc⟩
  | cons f F ih =>
    intro c hc
    cases f with
    | returned => exact ih c hc
    | call =>
      rw [List.cons_append, openCalls] at hc
      split at hc
      · rcases List.mem_cons.mp hc with rfl | hc
        · exact Or.inl (by simp)
        · exact ih c hc
      · exact ih c hc
    | _ => exact ih c hc

/-- A call that has been returned from is not open. -/
theorem openCalls_returned (hH : Balanced H) (F : List Frame) {level sub sub' : Nat} {back : Addr}
    {undo saved : CallState} :
    K.length ∉ (openCalls level (F ++ .returned sub undo :: (H ++ .call back sub' saved :: K))).map
      Prod.snd := by
  intro hmem
  obtain ⟨c, hc, hheight⟩ := List.mem_map.mp hmem
  rcases openCalls_over F _ c hc with hle | ⟨level, hc⟩
  · simp at hle
    omega
  · rw [openCalls, hH.openCalls, openCalls, if_neg (Nat.succ_ne_zero _)] at hc
    have := openCalls_lt c hc
    omega

theorem not_open {Γ : Ground} {back sub sub' : Nat} {saved undo : CallState}
    (hΓ : Γ.frames = .call back sub saved :: K)
    (hc : c.frames = F ++ .returned sub' undo :: (H ++ L)) (hH : Balanced H) (hL : Fade Γ.frames L) :
    K.length ∉ (openCalls 0 c.frames).map Prod.snd := by
  rw [hΓ] at hL
  obtain ⟨M, rfl, hM⟩ := Fade.onCall hL
  rw [hc, hM.length_eq]
  exact openCalls_returned hH F

/-- What runs above the ground has been called, unless it is what the ground is about. -/
theorem Held.called {γ : Nat → Nat} {Γ : Ground} {A : Invocation} {r : Registers}
    (h : Held e kind γ Γ A r K) : A = Γ.root ∨ ∃ (a : Addr) (t x sub : Nat) (s : Subroutine),
      e.program.code[a]? = some (.call t sub) ∧ e.program.tables.subroutines[sub]? = some s ∧
        A = .ofCall e t x sub := by
  induction h with
  | ground => exact Or.inl rfl
  | own _ _ ih => exact ih
  | call hcode _ hs => exact Or.inr ⟨_, _, _, _, _, hcode, hs, rfl⟩
  | returned _ _ _ _ _ ih => exact ih

/-- A return that answers the call on top of the ground leaves the invocation that the ground is about,
since calls that were made later lie higher on the stack. -/
theorem Held.answers {γ : Nat → Nat} {Γ : Ground} {A : Invocation} {r : Registers} {back sub : Nat}
    {saved : CallState} (h : Held e kind γ Γ A r L)
    (hfrom : FrameStack.callFrom 0 L = some (back, sub, saved)) (hΓ : Γ.frames = f :: K)
    (hanswers : (openCalls 0 L).head?.map Prod.snd = some K.length) :
    ∃ H, L = H ++ Γ.frames ∧ Balanced H ∧ A = Γ.root ∧ Γ.regs.Like kind (r.undoAll e.program H) := by
  rcases h.current hfrom with ⟨G, M, B, hframes, hcallee⟩ | hground
  · rw [hframes, hcallee.balanced.openCalls, openCalls, if_pos rfl] at hanswers
    have hheight : M.length = K.length := Option.some.inj hanswers
    obtain ⟨F, hF⟩ := hcallee.caller.above
    have hlen := congrArg List.length hF
    rw [hΓ] at hlen
    simp at hlen
    omega
  · exact hground

/-- Since an invocation returned that was called at a height of the stack, a group has been opened
again by an instruction that leaves no record of it. -/
def Reopened (e : Setting) (height : Nat) (t u : State) (g : Nat) : Prop :=
  ∃ w w' n, Staying e (height + 1) t w ∧ height ∉ (openCalls 0 w.stack.frames).map Prod.snd ∧
    e.program.code[w.ip]? = some (.groupStart g false) ∧ Machine.step (inner n) e w = .ok () w' ∧
    height + 1 ≤ w'.stack.frames.length ∧ Staying e (height + 1) w' u

/-- What a caller finds after its call in a state when it goes on in another one: the address behind
the call, the depth of calls, which is the number of calls on the stack less that of returns, the
rounds of all loops and the starts of all groups of a kind. Whatever happens as long as the invocation
is not entered again, lookups find the frames that they would find without what it has left. -/
structure Intact (e : Setting) (kind : Nat → Prop) (s v : State) : Prop where
  ip : v.ip = s.ip + 1
  depth : v.regs.depth = s.regs.depth
  calls : v.regs.depth + v.stack.frames.countP Frame.isReturn = v.stack.frames.countP Frame.isCall
  counts : v.regs.counts = s.regs.counts
  start : ∀ g, kind g → v.regs.captures.start? g = s.regs.captures.start? g
  lookup : ∃ F, v.stack.frames = F ++ s.stack.frames ∧
    ∀ w, Staying e v.stack.frames.length v w → ∃ A G K, w.stack.frames = A ++ (G ++ K) ∧ Fade F G ∧
      Fade s.stack.frames K ∧ ∀ q, Option.Rel FrameView.Same (FrameStack.found? q w.stack.frames)
        (FrameStack.found? q (A ++ K))

variable {p : Program} {l : Compile.Layout} {root : Node Measured} {s t u v w : State}

theorem Staying.cons {h n : Nat} (hstep : Machine.step (inner n) e s = .ok () t)
    (ht : h ≤ t.stack.frames.length) (hrun : Staying e h t u) : Staying e h s u := by
  induction hrun with
  | here => exact .step n .here hstep ht
  | step m _ hstep' hu ih => exact .step m ih hstep' hu

/-- As long as an invocation that has returned is not entered again, the frames below its return only
fade. -/
theorem Staying.returned (hp : p.Compiled l root) (hs : Visited p e s) {sub : Nat} {undo : CallState}
    (hframes : s.stack.frames = .returned sub undo :: M) (hrun : Staying e (M.length + 1) s t) :
    ∃ A N, t.stack.frames = A ++ .returned sub undo :: N ∧ Fade M N := by
  induction hrun with
  | here => exact ⟨[], M, hframes, Fade.refl M⟩
  | @step t u n hrun hstep hu ih =>
    obtain ⟨A, N, hA, hN⟩ := ih
    have hlen := hN.length_eq
    have hvisited := hrun.visited hs
    obtain ⟨i, hi, heffect⟩ := hvisited.effect hp (hvisited.fits hp) hstep
    have hover : Overlies e (fun _ => False) t.view u.view A (.returned sub undo) N :=
      heffect.over (compiled_fits hp hvisited.program) (hvisited.fits hp) nofun hA
    change M.length + 1 ≤ u.view.frames.length at hu
    change ∃ A N, u.view.frames = A ++ .returned sub undo :: N ∧ Fade M N
    cases hover with
    | keeps F' hd hr => exact ⟨F', N, hd, hN⟩
    | resumes B g L top hM hg hd hr =>
      have htop := hg.length_top
      rw [hd, List.length_append, hlen, hM] at hu
      simp at hu
      omega
    | closes F' q level B m L hM hB hm hd =>
      refine ⟨F', _, hd, hN.trans ?_⟩
      rw [hM]
      exact List.rel_append (Fade.committed B) (.cons hm (Fade.refl L))
    | unwinds q level B m hM hB =>
      have := congrArg List.length hM
      simp at this
      omega

/-- Until it is entered again, lookups pass over what an invocation has left that has returned. -/
theorem Staying.lookups (hp : p.Compiled l root) (hs : Visited p e s) {sub sub' : Nat} {back : Addr}
    {undo saved : CallState} (hH : Balanced H)
    (hframes : s.stack.frames = .returned sub undo :: (H ++ .call back sub' saved :: L)) :
    ∃ F, s.stack.frames = F ++ L ∧
      ∀ w, Staying e s.stack.frames.length s w → ∃ A G K, w.stack.frames = A ++ (G ++ K) ∧ Fade F G ∧
        Fade L K ∧ ∀ q, Option.Rel FrameView.Same (FrameStack.found? q w.stack.frames)
          (FrameStack.found? q (A ++ K)) := by
  refine ⟨.returned sub undo :: (H ++ [.call back sub' saved]), by rw [hframes]; simp, fun w hstay => ?_⟩
  rw [hframes] at hstay
  obtain ⟨A, N, hw, hN⟩ := hstay.returned hp hs hframes
  obtain ⟨H', K, rfl, hH', hK⟩ := Fade.around hN
  refine ⟨A, .returned sub undo :: (H' ++ [.call back sub' saved]), K, by rw [hw]; simp,
    .cons (Or.inl rfl) (List.rel_append hH' (Fade.refl _)), hK, fun q => ?_⟩
  rw [hw]
  exact FrameStack.found?_over q (hH.fade hH') A K

theorem call_ok (hp : p.Compiled l root) (hs : Visited p e s) {target sub n : Nat}
    (hcall : e.program.code[s.ip]? = some (.call target sub))
    (hstep : Machine.step (inner n) e s = .ok () t) :
    ∃ r, e.program.tables.subroutines[sub]? = some r ∧ t.view = s.view.called target sub r := by
  rw [step_fetched _ e s _ hcall] at hstep
  exact ends_enterCall target sub (hs.fits hp) (compiled_fits hp hs.program) (view_fetched s e _)
    () t hstep

theorem ret_ok (hp : p.Compiled l root) (hs : Visited p e s) {n : Nat}
    (hret : e.program.code[s.ip]? = some .ret) (hstep : Machine.step (inner n) e s = .ok () t) :
    ∃ back sub saved r, FrameStack.callFrom 0 s.stack.frames = some (back, sub, saved) ∧
      e.program.tables.subroutines[sub]? = some r ∧ s.regs.depth ≠ 0 ∧
      t.view = s.view.left e.program back sub saved r := by
  rw [step_fetched _ e s _ hret] at hstep
  exact ends_leaveCall (hs.fits hp) (compiled_fits hp hs.program) (view_fetched s e _) () t hstep

/-- The ground on which an invocation stands that a call has begun. -/
def Ground.ofCall (e : Setting) (target sub : Nat) (s t : State) : Ground :=
  ⟨.ofCall e target s.pos sub, t.stack.frames, t.regs⟩

/-- What is known of the groups that a program opens: one that leaves a record always leaves one, and so
does one that is opened in code that a call enters. -/
structure Recording (p : Program) : Prop where
  always : ∀ (x : Addr) g, p.code[x]? = some (.groupStart g true) → p.Restores g
  called : ∀ e : Setting, e.program = p → ∀ (a : Addr) t x sub r b y g undo,
    p.code[a]? = some (.call t sub) → p.tables.subroutines[sub]? = some r → Reach e t x b y →
      p.code[b]? = some (.groupStart g undo) → p.Restores g

variable {scale : Scale} {strict : Prop}

theorem Staying.since (hp : Orderly p l root scale strict) (hrecords : Recording p)
    (hs : Visited p e s) {target sub n : Nat}
    (hcall : e.program.code[s.ip]? = some (.call target sub))
    (hstep : Machine.step (inner n) e s = .ok () t)
    (hrun : Staying e (s.stack.frames.length + 1) t w)
    (hrest : Staying e (s.stack.frames.length + 1) w u) :
    Since e (fun g => p.Restores g ∨ ¬ Reopened e s.stack.frames.length t u g)
      (.ofCall e target sub s t) w.view := by
  obtain ⟨r, hr, ht⟩ := call_ok hp.compiled hs hcall hstep
  have he := hs.program
  have hframes : t.stack.frames = .call (s.ip + 1) sub (s.regs.saved r) :: s.stack.frames :=
    congrArg View.frames ht
  induction hrun with
  | here =>
    have hip : t.ip = target := congrArg View.ip ht
    have hpos : t.pos = s.pos := congrArg View.pos ht
    refine .inside id _ (.ground (.refl _)) ?_
    change Reach e target s.pos t.ip t.pos
    rw [hip, hpos]
    exact .entry target s.pos
  | @step w w' m hrun hstep' hlow ih =>
    have hsince := ih (.cons hstep' hlow hrest)
    have hvisited := hrun.visited (hs.step n hstep)
    have hfits := hvisited.fits hp.compiled
    obtain ⟨i, hi, heffect⟩ := hvisited.effect hp.compiled hfits hstep'
    refine hsince.step (compiled_fits hp.compiled he) (hp.settings he).calls_scoped
      (Invocation.goes_ofCall ..) hframes hfits (fun g hg => ?_) hi heffect ?_
    · subst he
      refine or_iff_not_imp_right.mpr fun hopens => hg.elim id fun hkept => ?_
      simp only [ne_eq, not_forall, not_not] at hopens
      obtain ⟨undo, rfl⟩ := hopens
      cases undo with
      | true => exact hrecords.always w.ip g hi
      | false =>
        cases hsince with
        | inside γ A h hplace =>
          -- The code of what has been called leaves records.
          rcases h.called with rfl | ⟨a, t', x, sub', r', hcode, hr', rfl⟩
          · exact hrecords.called e rfl _ _ _ _ _ _ _ _ _ hcall hr hplace hi
          · exact hrecords.called e rfl _ _ _ _ _ _ _ _ _ hcode hr' hplace hi
        | left F H L sub' undo' hc hH hL hback =>
          refine absurd ⟨w, w', m, hrun, ?_, hi, hstep', hlow, hrest⟩ hkept
          exact not_open hframes hc hH hL
    · change t.stack.frames.length ≤ w'.stack.frames.length
      rwa [hframes]

/-- In compiled programs all instructions of a group leave records or none does, and all do in code that
a call enters. -/
theorem recording_of_ofTree {setting : Pattern.Setting} {options : Options} {tree : PatternTree Span}
    (h : (Compilation.ofTree setting options tree).1 = .ok p)
    (ht : ∀ g ∈ tree.root.groupNumbers, 0 < g ∧ g ≤ tree.captures) (hseparate : tree.root.Separate)
    (hordered : tree.root.Ordered) :
    ∃ l root scale, Orderly p l root scale False ∧ Recording p := by
  obtain ⟨a, scale, ha, horderly, hrestores⟩ := Compilation.ofTree_orderly h ht hseparate hordered
  obtain ⟨i, i', htidy, -⟩ := Compilation.ofTree_tidy h ha
  refine ⟨_, _, scale, horderly, fun x g hx => ?_, fun e he a t x sub r b y g undo hcall hr hreach hi => ?_⟩
  · have hmarked := htidy.marked _ (Array.mem_toList_iff.mpr (Array.mem_of_getElem? hx))
    exact htidy.restores hmarked.symm
  · subst he
    have hmem := Array.mem_of_getElem? hr
    rw [horderly.call_target hcall hr] at hreach
    obtain ⟨n, loops, hn, -, ⟨hret, -⟩ | hallows | ⟨hgroup, hsaves⟩⟩ :=
      horderly.sub_allows hmem hreach hi
    · cases hret
    · exact hrestores r hmem n hn g (Or.inr hallows)
    · exact hrestores r hmem n hn g (Or.inl ⟨hgroup, hsaves.1⟩)

/-- The pattern `(a|ab)\g<1>c`, whose second call is entered again when no `c` follows. -/
def reentering : Pattern.Setting :=
  ⟨#[40, 97, 124, 97, 98, 41, 92, 103, 60, 49, 62, 99], .native, .ascii, .standard⟩

theorem reentering_compiles :
    (Compilation.ofPattern reentering .empty .empty).result.toOption.isSome = true := by
  decide +kernel

/-- Its program. -/
def reenteringProgram : Program :=
  (Compilation.ofPattern reentering .empty .empty).result.toOption.get reentering_compiles

/-- A run of it on the text `aabc`. -/
def reenteringRun : Setting :=
  ⟨reenteringProgram, ⟨#[97, 97, 98, 99], .ascii, false, false⟩, ⟨0, 0, 1024, 0, 16384⟩, .empty, 0,
    fun _ => false, false⟩

/-- Where the run begins. -/
def reenteringStart : State :=
  (State.initial.enter reenteringRun 0 0).emit reenteringRun (.start 0)

theorem reentering_course : ((reenteringStart.stays? reenteringRun 0 7).bind fun calls =>
    (calls.after? (step (inner 0) reenteringRun)).bind fun called =>
      (called.stays? reenteringRun 6 9).bind fun returns =>
        returns.after? (step (inner 0) reenteringRun)).isSome = true := by
  decide +kernel

theorem calls_isSome : (reenteringStart.stays? reenteringRun 0 7).isSome = true :=
  (passes_of_bind reentering_course).fst

/-- In front of the second call. -/
def callsAgain : State := (reenteringStart.stays? reenteringRun 0 7).get calls_isSome

theorem called_isSome : (callsAgain.after? (step (inner 0) reenteringRun)).isSome = true :=
  (passes_of_bind (passes_of_bind reentering_course).snd).fst

/-- The call has been made. -/
def calledAgain : State := (callsAgain.after? (step (inner 0) reenteringRun)).get called_isSome

theorem returns_isSome : (calledAgain.stays? reenteringRun 6 9).isSome = true :=
  (passes_of_bind (passes_of_bind (passes_of_bind reentering_course).snd).snd).fst

/-- The invocation has returned once, was entered again and is about to return. -/
def returnsAgain : State := (calledAgain.stays? reenteringRun 6 9).get returns_isSome

theorem returned_isSome : (returnsAgain.after? (step (inner 0) reenteringRun)).isSome = true :=
  (passes_of_bind (passes_of_bind (passes_of_bind reentering_course).snd).snd).snd

/-- It has returned for the second time. -/
def returnedAgain : State := (returnsAgain.after? (step (inner 0) reenteringRun)).get returned_isSome

end Machine
end RegexMachine
