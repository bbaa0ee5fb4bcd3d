import RegexMachine.Proofs.Spans

/-!
Histories of groups. Where they are kept every group leaves a record of what it changes, so that
backtracking takes a completed span off the history when it takes the record off the stack. What is
left are the spans completed along the path that survives, and each group has the last of its own.
-/
namespace RegexMachine

namespace Captures

/-- Captures that have kept a history, and for each group the last span in it. -/
structure Tells (c : Captures) (h : History) : Prop where
  history : c.history = h
  span : ∀ g, c.span? g = (h.find? (·.1 == g)).map Prod.snd

variable {c d : Captures} {h : History} {g : Nat} {slot : Slot}

theorem tells_none (n : Nat) : (Captures.none n).Tells [] := by
  refine ⟨rfl, fun g => ?_⟩
  simp only [span?, slot?, Captures.none, Array.getElem?_replicate]
  split <;> rfl

/-- Where groups were entered last is no part of the history. -/
theorem Tells.of_spans (hc : c.Tells h) (hhistory : d.history = c.history)
    (hspan : ∀ g, d.span? g = c.span? g) : d.Tells h :=
  ⟨hhistory.trans hc.history, fun g => (hspan g).trans (hc.span g)⟩

theorem Tells.opened (hc : c.Tells h) (hslot : c.slot? g = some slot) (start : Option Nat) :
    (c.setSlot g { slot with start := start }).Tells h := by
  refine hc.of_spans rfl fun k => ?_
  rw [span?, slot?_setSlot]
  split
  · rename_i hk
    rw [hk.1, span?, hslot]
    rfl
  · rfl

theorem Tells.closed (hc : c.Tells h) (hslot : c.slot? g = some slot) (span : Span) :
    (c.closed g span true).Tells ((g, span) :: h) := by
  refine ⟨by rw [history_closed, if_pos rfl, hc.history], fun k => ?_⟩
  rw [span?, slot?_closed, List.find?_cons]
  by_cases hk : k = g
  · subst hk
    simp [slot?_lt hslot]
  · have hne : (g == k) = false := beq_false_of_ne fun h => hk h.symm
    rw [if_neg fun h => hk h.1, hne]
    exact hc.span k

end Captures

namespace Machine
open Compile

/-! ## What is undone -/

section
variable {p : Program} {r r' : Registers} {c d : View} {A K F N : List Frame}

/-- Where all groups are restored all captures are. -/
theorem Registers.Agrees.captures_eq (h : r.Agrees p r') (hall : ∀ g, p.Restores g) :
    r'.captures = r.captures := by
  have hslots : r'.captures.slots = r.captures.slots :=
    Array.ext_getElem? fun g => h.slot g (hall g)
  calc r'.captures = ⟨r'.captures.slots, r'.captures.history⟩ := rfl
    _ = ⟨r.captures.slots, r.captures.history⟩ := by rw [hslots, h.history]

/-- What a step has made of part of the stack can be undone as before, and gives what was there. -/
theorem Passes.undoes (h : Passes p c d) (hd : d.frames = A ++ K)
    (hle : K.length ≤ c.frames.length) :
    ∃ B L, c.frames = B ++ L ∧ L.length = K.length ∧
      (c.regs.undoAll p B).Agrees p (d.regs.undoAll p A) := by
  cases h with
  | adds F hadd hF hfits hr =>
    rcases List.append_eq_append_iff.mp (hadd.symm.trans hd) with ⟨B, rfl, hB⟩ | ⟨B, rfl, rfl⟩
    · refine ⟨B, K, hB, rfl, ?_⟩
      rw [Registers.undoAll_append]
      exact hr.undoAll B
    · obtain rfl : B = [] := List.length_eq_zero_iff.mp (by rw [List.length_append] at hle; omega)
      rw [List.append_nil] at hr
      exact ⟨[], c.frames, rfl, rfl, hr⟩
  | takes B L hc hbecome hr =>
    rw [hd] at hbecome
    have htop := List.forall₂_take_append _ _ _ hbecome
    have hbelow := List.forall₂_drop_append _ _ _ hbecome
    refine ⟨B ++ L.take A.length, L.drop A.length, ?_, hbelow.length_eq, ?_⟩
    · rw [hc, List.append_assoc, List.take_append_drop]
    · rw [Registers.undoAll_append, Become.undoAll htop]
      exact hr.undoAll _

theorem append_cut (h : F ++ N = A ++ K) (hlt : N.length < K.length) :
    ∃ B, B ≠ [] ∧ F = A ++ B := by
  rcases List.append_eq_append_iff.mp h with ⟨B, rfl, rfl⟩ | ⟨B, rfl, rfl⟩
  · rw [List.length_append] at hlt
    omega
  · refine ⟨B, ?_, rfl⟩
    rintro rfl
    exact absurd hlt (Nat.lt_irrefl _)

theorem append_cut_one {f : Frame} (h : f :: N = A ++ K) (hlt : N.length < K.length) : A = [] := by
  obtain ⟨B, hne, hB⟩ := append_cut (F := [f]) h hlt
  cases A with
  | nil => rfl
  | cons g A =>
    obtain ⟨-, hnil⟩ := List.cons.inj hB
    exact absurd (List.append_eq_nil_iff.mp hnil.symm).2 hne

end

/-! ## Completed spans -/

/-- A span that a group has completed, and the height of the stack at that time: the record that the
end of the group leaves stands there. -/
structure Completion where
  height : Nat
  group : Nat
  span : Span
deriving DecidableEq, Repr

def Completion.entry (x : Completion) : Nat × Span := (x.group, x.span)

/-- The span that an instruction completes. -/
def View.completion? (c : View) (i : Instr) : Option Completion :=
  i.ended?.bind fun g =>
    (c.regs.captures.start? g).map fun start => ⟨c.frames.length, g, ⟨start, c.pos⟩⟩

/-- The span that the next step completes. -/
def State.completion? (e : Setting) (s : State) : Option Completion :=
  (e.program.code[s.ip]?).bind s.view.completion?

/-- States that an attempt comes to, with the spans that groups have completed on the path there. What
backtracking gives up is no part of it: a span is left out from when the stack has come down to where
it was when the span was completed. -/
inductive Survives (e : Setting) (st : State) (pos : Nat) : State → List Completion → Prop
  | begin : Survives e st pos ((st.enter e 0 pos).emit e (.start pos)) []
  | step {s t : State} {path : List Completion} (n : Nat) (h : Survives e st pos s path)
    (hstep : Machine.step (inner n) e s = .ok () t) :
    Survives e st pos t
      ((path ++ (s.completion? e).toList).filter (·.height < t.stack.frames.length))

/-- The history of the spans on a path that were completed on a stack not as high as this. -/
def past (path : List Completion) (height : Nat) : History :=
  ((path.filter (·.height < height)).map Completion.entry).reverse

section
variable {path : List Completion} {x : Completion} {m n : Nat}

theorem past_filter (h : m ≤ n) : past (path.filter (·.height < n)) m = past path m := by
  rw [past, past, List.filter_filter]
  congr 2
  refine List.filter_congr fun x _ => ?_
  by_cases hx : x.height < m
  · simp [hx, Nat.lt_of_lt_of_le hx h]
  · simp [hx]

theorem past_of_below (h : ∀ x ∈ path, x.height < m) :
    past path m = (path.map Completion.entry).reverse := by
  rw [past, List.filter_eq_self.mpr fun x hx => decide_eq_true (h x hx)]

/-- What is completed next comes on top. -/
theorem past_append {next : Option Completion} (hnext : ∀ x ∈ next, x.height = n) (m : Nat) :
    past (path ++ next.toList) m =
      if n < m then (next.map Completion.entry).toList ++ past path m else past path m := by
  cases next with
  | none => simp
  | some x =>
    obtain rfl := hnext x rfl
    simp only [past, Option.toList_some, List.filter_append, List.map_append, List.reverse_append]
    by_cases hlt : x.height < m <;> simp [hlt]

/-- On a path that goes up the history of a lower stack is an earlier part of that of a higher one. -/
theorem past_suffix (hpath : path.Pairwise fun x y => x.height < y.height) (h : m ≤ n) :
    past path m <:+ past path n := by
  rw [past, past, List.reverse_suffix]
  refine List.IsPrefix.map _ ?_
  induction path with
  | nil => exact List.nil_prefix
  | cons x path ih =>
    obtain ⟨hx, hpath⟩ := List.pairwise_cons.mp hpath
    by_cases hm : x.height < m
    · rw [List.filter_cons_of_pos (by simpa using hm),
        List.filter_cons_of_pos (by simpa using Nat.lt_of_lt_of_le hm h)]
      exact List.cons_prefix_cons.mpr ⟨rfl, ih hpath⟩
    · have hnone : (x :: path).filter (·.height < m) = [] := by
        refine List.filter_eq_nil_iff.mpr fun y hy => ?_
        rcases List.mem_cons.mp hy with rfl | hy
        · simpa using hm
        · have := hx y hy
          simp
          omega
      rw [hnone]
      exact List.nil_prefix

end

theorem View.completion?_height {c : View} {i : Instr} :
    ∀ x ∈ c.completion? i, x.height = c.frames.length := by
  intro x hx
  obtain ⟨g, -, hx⟩ := Option.bind_eq_some_iff.mp hx
  obtain ⟨start, -, rfl⟩ := Option.map_eq_some_iff.mp hx
  rfl

theorem View.completion?_none {c : View} {i : Instr} (h : i.ended? = none) :
    c.completion? i = none := by rw [completion?, h, Option.bind_none]

/-! ## Coherence -/

/-- The captures tell what is on the path, and whatever part of the stack is undone they tell what was
on it when the stack was as high as the rest. -/
structure Told (p : Program) (path : List Completion) (c : View) : Prop where
  below : ∀ x ∈ path, x.height < c.frames.length
  sorted : path.Pairwise fun x y => x.height < y.height
  tells : ∀ A K, c.frames = A ++ K → (c.regs.undoAll p A).captures.Tells (past path K.length)

section
variable {e : Setting} {i : Instr} {c d : View} {h : History} {path : List Completion}
  {A K F : List Frame}

/-- Frames that record no group leave the captures as they are. -/
theorem Registers.captures_undoAll {r : Registers} (hF : ∀ f ∈ F, LeftBy e i c f)
    (hcapture : ∀ f ∈ F, f.isCapture = false) :
    (r.undoAll e.program F).captures = r.captures := by
  induction F generalizing r with
  | nil => rfl
  | cons f F ih =>
    obtain ⟨hf, hF⟩ := List.forall_mem_cons.mp hF
    obtain ⟨hc, hcapture⟩ := List.forall_mem_cons.mp hcapture
    rw [Registers.undoAll_cons, ih hF hcapture]
    cases f with
    | capture => cases hc
    | returned => exact hf.elim
    | _ => rfl

/-- With a history an instruction adds to it what it completes, before all but the topmost of the
frames that it leaves. -/
theorem Sets.tells {captures : Captures} (hsets : Sets e i c F captures)
    (hhistory : e.program.has .captureHistory = true) (hc : c.regs.captures.Tells h)
    (hF : ∀ f ∈ F, LeftBy e i c f) {B : List Frame} (hcut : F = A ++ B) (hB : B ≠ [])
    {r : Registers} (hr : r.captures = captures) :
    (r.undoAll e.program A).captures.Tells (((c.completion? i).map Completion.entry).toList ++ h) := by
  have hrecord {g : Nat} {slot : Slot} {undo : Bool}
      (hkept : c.regs.captures.kept g slot undo = A ++ B) : undo = true ∧ A = [] := by
    cases undo with
    | false => exact absurd (List.append_eq_nil_iff.mp hkept.symm).2 hB
    | true => exact ⟨rfl, append_cut_one (N := []) hkept (List.length_pos_iff.mpr hB)⟩
  cases hsets with
  | keeps hi hcapture =>
    subst hcut
    rw [View.completion?_none hi, Registers.captures_undoAll
      (fun f hf => hF f (List.mem_append_left _ hf))
      (fun f hf => hcapture f (List.mem_append_left _ hf)), hr]
    exact hc
  | opens hi hslot =>
    obtain ⟨-, rfl⟩ := hrecord hcut
    rw [View.completion?_none (hi ▸ rfl), Registers.undoAll_nil, hr]
    exact hc.opened hslot _
  | @closes g undo slot start hi hslot hstart =>
    obtain ⟨rfl, rfl⟩ := hrecord hcut
    have hentered : c.regs.captures.start? g = some start := by
      rw [Captures.start?, hslot, Option.bind_some, hstart]
    rw [View.completion?, hi.ended?, Option.bind_some, hentered, Registers.undoAll_nil, hr, hhistory]
    exact hc.closed hslot _

/-- Where a step makes the stack higher, what it puts there leaves the history as it was, but for
what it completes. -/
theorem Effect.tells (heffect : Effect e i c d) (hhistory : e.program.has .captureHistory = true)
    (hc : c.regs.captures.Tells h) (hd : d.frames = A ++ K) (hlt : c.frames.length < K.length) :
    (d.regs.undoAll e.program A).captures.Tells
      (((c.completion? i).map Completion.entry).toList ++ h) := by
  have hhigher : c.frames.length < d.frames.length := by
    rw [hd, List.length_append]
    omega
  cases heffect with
  | goes F hto hstart hadd hF hrec hfits hr hsets =>
    obtain ⟨B, hne, hcut⟩ := append_cut (hadd.symm.trans hd) hlt
    exact hsets.tells hhistory hc hF hcut hne rfl
  | calls t sub s hi hs hcalled =>
    subst hcalled hi
    obtain rfl := append_cut_one hd hlt
    exact hc
  | returns back sub saved s hi hcall hs hdepth hleft =>
    subst hleft hi
    obtain rfl := append_cut_one hd hlt
    obtain ⟨hkept, hspans⟩ := c.regs.setCallState_spans e.program sub saved
    exact hc.of_spans hkept hspans
  -- The others take frames off.
  | resumes A' g L top hcut hg hstart hframes hr =>
    have htop := hg.length_top
    rw [hcut, hframes] at hhigher
    simp only [List.length_append, List.length_cons] at hhigher
    omega
  | closes q F m L hcut hF hm hip hstart hframes hr =>
    have hdrop := (List.dropWhile_sublist (l := F.map Frame.committed ++ .void :: L)
      Frame.isVoid).length_le
    rw [hcut, hframes] at hhigher
    simp only [List.length_append, List.length_cons, List.length_map] at hhigher hdrop
    omega
  | unwinds mark pos F L hi hcut hF hd' =>
    subst hd'
    rw [hcut] at hhigher
    simp only [List.length_append, List.length_cons] at hhigher
    omega
  | drops f L hi hcut hf hd' =>
    subst hd'
    rw [hcut] at hhigher
    simp only [List.length_cons] at hhigher
    omega

/-- What a step makes of the path it makes of the history. -/
theorem Told.step (hsubs : ∀ r ∈ e.program.tables.subroutines, r.Fits e.program.tables)
    (hfits : c.Fits e.program) (hall : ∀ g, e.program.Restores g)
    (hhistory : e.program.has .captureHistory = true) (heffect : Effect e i c d)
    (hc : Told e.program path c) :
    Told e.program ((path ++ (c.completion? i).toList).filter (·.height < d.frames.length)) d := by
  refine ⟨fun x hx => of_decide_eq_true (List.mem_filter.mp hx).2, ?_, fun A K hd => ?_⟩
  · refine List.Pairwise.filter _ (List.pairwise_append.mpr ⟨hc.sorted, ?_, fun x hx y hy => ?_⟩)
    · cases c.completion? i <;> simp
    · exact View.completion?_height y (Option.mem_toList.mp hy) ▸ hc.below x hx
  have hle : K.length ≤ d.frames.length := by
    rw [hd, List.length_append]
    omega
  rw [past_filter hle, past_append View.completion?_height]
  split
  · rename_i hlt
    have hnow := hc.tells [] c.frames rfl
    rw [past_of_below hc.below, ← past_of_below fun x hx => Nat.lt_trans (hc.below x hx) hlt] at hnow
    exact heffect.tells hhistory hnow hd hlt
  · rename_i hlow
    obtain ⟨B, L, hcut, hlen, hagrees⟩ :=
      (heffect.passes hsubs hfits).undoes hd (Nat.le_of_not_lt hlow)
    rw [hagrees.captures_eq hall, ← hlen]
    exact hc.tells B L hcut

/-- A record holds the history as it is when it is cut to the length that it had then. -/
theorem Told.record {p : Program} (hc : Told p path c) {g : Nat} {slot : Slot}
    (hcut : c.frames = A ++ .capture g slot h :: K) : h <:+ c.regs.captures.history := by
  have hthen : h = past path K.length := by
    have := (hc.tells (A ++ [.capture g slot h]) K (by rw [hcut, List.append_assoc]; rfl)).history
    rwa [Registers.undoAll_append] at this
  have hnow : c.regs.captures.history = past path c.frames.length :=
    (hc.tells [] c.frames rfl).history
  rw [hthen, hnow]
  refine past_suffix hc.sorted ?_
  rw [hcut, List.length_append, List.length_cons]
  omega

end

/-! ## What is given up -/

/-- The record of a completed span is where the top of the stack was when the span was completed. -/
def Completion.Stands (x : Completion) (frames : List Frame) : Prop :=
  ∃ slot h, frames.reverse[x.height]? = some (.capture x.group slot h)

namespace Completion.Stands
variable {x : Completion} {A F K : List Frame} {f : Frame}

theorem lt (h : x.Stands K) : x.height < K.length := by
  obtain ⟨slot, history, h⟩ := h
  exact List.length_reverse ▸ (List.getElem?_eq_some_iff.mp h).1

theorem append_iff (A : List Frame) (hlt : x.height < K.length) :
    x.Stands (A ++ K) ↔ x.Stands K := by
  rw [Stands, Stands, List.reverse_append,
    List.getElem?_append_left (by rwa [List.length_reverse])]

theorem append (h : x.Stands K) (A : List Frame) : x.Stands (A ++ K) := (append_iff A h.lt).mpr h

/-- A frame that is no record has it below or above. -/
theorem split (h : x.Stands (A ++ f :: K)) (hf : f.isCapture = false) :
    x.Stands K ∨ K.length < x.height := by
  rcases Nat.lt_trichotomy x.height K.length with hlt | heq | hgt
  · rw [← List.singleton_append, ← List.append_assoc, append_iff _ hlt] at h
    exact .inl h
  · obtain ⟨slot, history, h⟩ := h
    rw [List.reverse_append, List.reverse_cons, List.append_assoc, heq,
      List.getElem?_append_right (by simp), List.length_reverse, Nat.sub_self] at h
    obtain rfl := Option.some.inj h
    cases hf
  · exact .inr hgt

theorem under (h : x.Stands (f :: K)) (hf : f.isCapture = false) : x.Stands K := by
  refine (h.split (A := []) hf).resolve_right fun hlow => ?_
  exact absurd (Nat.lt_of_lt_of_le hlow (Nat.le_of_lt_succ h.lt)) (Nat.lt_irrefl _)

theorem settled (h : x.Stands F) (hK : Settled F K) : x.Stands K := by
  obtain ⟨voids, hvoids, rfl⟩ := hK
  induction voids with
  | nil => exact h
  | cons v voids ih =>
    obtain ⟨hv, hrest⟩ := List.forall_mem_cons.mp hvoids
    exact ih hrest (h.under (hv ▸ rfl))

/-- A region that is closed keeps its records. -/
theorem closed (h : x.Stands (A ++ f :: K)) (hf : f.isCapture = false) :
    x.Stands (A.map Frame.committed ++ .void :: K) := by
  rcases h.split hf with hbelow | hlow
  · exact (hbelow.append [.void]).append _
  · obtain ⟨slot, history, h⟩ := h
    refine ⟨slot, history, ?_⟩
    have hle : ∀ f : Frame, (f :: K).reverse.length ≤ x.height := fun f => by
      rw [List.length_reverse]
      exact hlow
    rw [List.reverse_append, List.getElem?_append_right (hle _)] at h ⊢
    simp only [List.length_reverse, List.length_cons] at h ⊢
    rw [← List.map_reverse, List.getElem?_map, h]
    rfl

end Completion.Stands

/-- A step that goes back to before a span was completed: it resumes a choice that is lower on the
stack than the record of the span, or leaves a lookaround that was entered lower. -/
inductive Forsakes (e : Setting) (i : Instr) (c d : View) (height : Nat) : Prop
  | resumes (A : List Frame) (g : Frame) (K top : List Frame) (hc : c.frames = A ++ g :: K)
    (hlow : K.length < height) (hg : Resuming e g d.ip d.pos top) (hd : d.frames = top ++ K)
  | unwinds (mark pos : Nat) (A K : List Frame) (hi : i = .unwind mark)
    (hc : c.frames = A ++ .look mark pos :: K) (hlow : K.length < height) (hd : d.frames = K)

section
variable {e : Setting} {i : Instr} {c d : View} {x : Completion} {height : Nat}

theorem Forsakes.length_le (h : Forsakes e i c d height) : d.frames.length ≤ height := by
  cases h with
  | resumes A g K top hc hlow hg hd =>
    have htop := hg.length_top
    rw [hd, List.length_append]
    omega
  | unwinds mark pos A K hi hc hlow hd => exact hd ▸ Nat.le_of_lt hlow

/-- A record stands where it stood, or the step goes back to before it was made. -/
theorem Effect.stands (heffect : Effect e i c d) (h : x.Stands c.frames) :
    x.Stands d.frames ∨ Forsakes e i c d x.height := by
  cases heffect with
  | goes F hto hstart hadd => exact .inl (hadd ▸ h.append F)
  | calls t sub s hi hs hcalled => exact .inl (hcalled ▸ h.append [_])
  | returns back sub saved s hi hcall hs hdepth hleft => exact .inl (hleft ▸ h.append [_])
  | resumes A g K top hcut hg hstart hframes hr =>
    rw [hcut] at h
    rcases h.split (Frame.isCapture_of_isChoice hg.isChoice) with hbelow | hlow
    · exact .inl (hframes ▸ hbelow.append top)
    · exact .inr (.resumes A g K top hcut hlow hg hframes)
  | closes q F m K hcut hF hm hip hstart hframes hr =>
    have hm : m.isCapture = false := by
      rcases hm with ⟨_, -, rfl⟩ | ⟨_, -, rfl, -⟩ <;> rfl
    rw [hcut] at h
    exact .inl (hframes ▸ (h.closed hm).settled (.dropVoids _))
  | unwinds mark pos F K hi hcut hF hleft =>
    subst hleft
    rw [hcut] at h
    exact (h.split rfl).imp_right fun hlow => .unwinds mark pos F K hi hcut hlow rfl
  | drops f K hi hcut hf hleft =>
    subst hleft
    rw [hcut] at h
    exact .inl (h.under (Frame.isCapture_of_isChoice hf))

/-- What a step completes has its record there. -/
theorem Effect.completes (heffect : Effect e i c d) (hall : ∀ g, e.program.Restores g)
    (hi : e.program.code[c.ip]? = some i) (hx : c.completion? i = some x) :
    x.Stands d.frames ∨ Forsakes e i c d x.height := by
  obtain ⟨g, hended, hx⟩ := Option.bind_eq_some_iff.mp hx
  obtain ⟨start, -, rfl⟩ := Option.map_eq_some_iff.mp hx
  cases heffect with
  | goes F hto hstart hadd hF hrec hfits hr hsets =>
    generalize d.regs.captures = captures at hsets
    cases hsets with
    | keeps hnone =>
      rw [hnone] at hended
      cases hended
    | opens hopen =>
      subst hopen
      cases hended
    | @closes g' undo slot _ hends hslot =>
      obtain rfl : g' = g := Option.some.inj (hends.ended?.symm.trans hended)
      have hundo : undo = true := by
        rcases hends with rfl | ⟨-, hundo⟩
        · exact hall g' _ undo (.inr hi)
        · exact hundo
      subst hundo
      refine .inl ⟨slot, c.regs.captures.history, ?_⟩
      rw [hadd, List.reverse_append, List.getElem?_append_right (by simp), List.length_reverse,
        Nat.sub_self]
      rfl
  | resumes A f K top hcut hg hstart hframes hr =>
    refine .inr (.resumes A f K top hcut ?_ hg hframes)
    change K.length < c.frames.length
    rw [hcut, List.length_append, List.length_cons]
    omega
  -- No other instruction ends a group.
  | calls t sub s hcall => cases hcall ▸ hended
  | returns back sub saved s hret => cases hret ▸ hended
  | closes q F m K hcut hF hm =>
    rcases hm with ⟨mark, rfl, -⟩ | ⟨mark, rfl, -⟩ <;> cases hended
  | unwinds mark pos F K hunwind => cases hunwind ▸ hended
  | drops f K hdrop => cases hdrop ▸ hended

end

/-! ## Attempts -/

section
variable {p : Program} {l : Layout} {root : Node Measured} {e : Setting} {st s : State} {pos : Nat}
  {path : List Completion}

theorem Survives.attemptAt (h : Survives e st pos s path) : AttemptAt e st pos s := by
  induction h with
  | begin => exact .begin
  | step n _ hstep ih => exact .step n ih hstep

/-- There is a path to every state of an attempt. -/
theorem AttemptAt.survives (h : AttemptAt e st pos s) : ∃ path, Survives e st pos s path := by
  induction h with
  | begin => exact ⟨[], .begin⟩
  | step n _ hstep ih =>
    obtain ⟨path, h⟩ := ih
    exact ⟨_, .step n h hstep⟩

/-- In every state of an attempt the captures tell what is on the path. -/
theorem Survives.told (hp : p.Compiled l root) (he : e.program = p) (hall : ∀ g, p.Restores g)
    (hhistory : p.has .captureHistory = true) (h : Survives e st pos s path) :
    Told p path s.view := by
  subst he
  induction h with
  | begin =>
    refine ⟨nofun, .nil, fun A K hframes => ?_⟩
    rw [view_emit] at hframes ⊢
    obtain ⟨rfl, rfl⟩ := List.append_eq_nil_iff.mp hframes.symm
    exact Captures.tells_none _
  | @step s t path n h hstep ih =>
    have hvisited := h.attemptAt.visited rfl
    obtain ⟨i, hi, heffect⟩ := hvisited.effect hp (hvisited.fits hp) hstep
    have hcompletion : s.completion? e = s.view.completion? i := by
      rw [State.completion?, hi, Option.bind_some]
    rw [hcompletion]
    exact ih.step (compiled_fits hp rfl) (hvisited.fits hp) hall hhistory heffect

/-- Every span on the path has its record on the stack. -/
theorem Survives.stands (hp : p.Compiled l root) (he : e.program = p) (hall : ∀ g, p.Restores g)
    (h : Survives e st pos s path) : ∀ x ∈ path, x.Stands s.stack.frames := by
  subst he
  induction h with
  | begin => nofun
  | @step s t path n h hstep ih =>
    intro x hx
    have hvisited := h.attemptAt.visited rfl
    obtain ⟨i, hi, heffect⟩ := hvisited.effect hp (hvisited.fits hp) hstep
    obtain ⟨hx, hlt⟩ := List.mem_filter.mp hx
    refine Or.resolve_right ?_ fun hback : Forsakes e i s.view t.view x.height =>
      Nat.not_le_of_gt (of_decide_eq_true hlt) hback.length_le
    rcases List.mem_append.mp hx with hx | hx
    · exact heffect.stands (ih x hx)
    · rw [State.completion?, hi, Option.bind_some, Option.mem_toList] at hx
      exact heffect.completes hall hi hx

/-- A step adds to the path what it completes, and leaves out what it goes back to before. -/
theorem Survives.mem_step (hp : p.Compiled l root) (he : e.program = p) (hall : ∀ g, p.Restores g)
    (h : Survives e st pos s path) {r : Runner} {t : State} (hstep : Machine.step r e s = .ok () t) :
    ∃ i, p.code[s.ip]? = some i ∧ ∀ x,
      x ∈ (path ++ (s.completion? e).toList).filter (·.height < t.stack.frames.length) ↔
        (x ∈ path ∨ s.completion? e = some x) ∧ ¬ Forsakes e i s.view t.view x.height := by
  subst he
  have hvisited := h.attemptAt.visited rfl
  obtain ⟨i, hi, heffect⟩ := hvisited.effect hp (hvisited.fits hp) hstep
  refine ⟨i, hi, fun x => ?_⟩
  rw [List.mem_filter, List.mem_append, Option.mem_toList]
  refine and_congr_right fun hx => ⟨fun hlt hback => ?_, fun hback => ?_⟩
  · exact Nat.not_le_of_gt (of_decide_eq_true hlt) hback.length_le
  · refine decide_eq_true (Or.resolve_right ?_ hback : x.Stands t.view.frames).lt
    rcases hx with hx | hx
    · exact heffect.stands (h.stands hp rfl hall x hx)
    · rw [State.completion?, hi, Option.bind_some] at hx
      exact heffect.completes hall hi hx

/-- Wherever a record of a group stands, undoing it does the same to the history as cutting that to
the length it had when the record was made. -/
theorem Survives.record_truncates (hp : p.Compiled l root) (he : e.program = p)
    (hall : ∀ g, p.Restores g) (hhistory : p.has .captureHistory = true)
    (h : Survives e st pos s path) {g : Nat} {slot : Slot} {history : History}
    (hframe : .capture g slot history ∈ s.stack.frames) :
    s.regs.captures.history.drop (s.regs.captures.history.length - history.length) = history := by
  obtain ⟨A, K, hcut⟩ := List.append_of_mem hframe
  exact (List.suffix_iff_eq_drop.mp ((h.told hp he hall hhistory).record hcut)).symm

end

end Machine
end RegexMachine
