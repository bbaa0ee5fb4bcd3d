import RegexMachine.Proofs.RegionRuns

/-!
Capture groups. A group that backtracking restores leaves records of its slot; the fields of one on
the one path through a pattern are loose instead, and stale until the group is passed.
-/
namespace RegexMachine

namespace Captures

variable {X Y S : Stale} {c d : Captures} {g : Nat} {slot : Slot}

theorem restore_setSlot (h : c.slot? g = some slot) (s : Slot) :
    (c.setSlot g s).restore g slot c.history = c := by
  obtain ⟨hlt, hget⟩ := Array.getElem?_eq_some_iff.mp h
  simp only [restore, setSlot, Array.setIfInBounds_setIfInBounds, ← hget]
  simp [Array.setIfInBounds, hlt]

theorem restore_closed (h : c.slot? g = some slot) (span : Span) (log : Bool) :
    (c.closed g span log).restore g slot c.history = c := by
  have := restore_setSlot h ⟨some span.start, some span⟩
  cases log <;> exact this

/-- A group has been entered, here and there. -/
theorem Alike.enter (h : c.Alike X d) (hs : c.slot? g = some slot)
    (hXY : ∀ k b, X k b → Y k b ∨ (k = g ∧ b = false)) (p : Nat) :
    (c.setSlot g { slot with start := some p }).Alike Y (d.setStart g (some p)) where
  size := by simpa using h.size
  history := h.history
  start k hk := by
    rw [slot?_setSlot, slot?_setStart]
    by_cases hkg : k = g
    · subst hkg
      have hd : (d.slot? k).isSome := by
        have := slot?_lt hs
        simpa [slot?, ← h.size] using this
      obtain ⟨s, hs'⟩ := Option.isSome_iff_exists.mp hd
      simp [slot?_lt hs, hs']
    · rw [if_neg fun h => hkg h.1, if_neg hkg]
      exact h.start k fun hx => (hXY k _ hx).elim hk fun h => hkg h.1
  span k hk := by
    have hX : ¬ X k true := fun hx => (hXY k _ hx).elim hk fun h => Bool.noConfusion h.2
    rw [slot?_setSlot, slot?_setStart]
    by_cases hkg : k = g
    · subst hkg
      have hspan := h.span k hX
      rw [hs] at hspan
      rw [if_pos ⟨rfl, slot?_lt hs⟩, if_pos rfl, Option.map_map]
      exact hspan
    · rw [if_neg fun h => hkg h.1, if_neg hkg]
      exact h.span k hX
  opened k hk := by
    rw [slot?_setSlot]
    rw [slot?_setStart] at hk
    by_cases hkg : k = g
    · subst hkg
      rw [if_pos ⟨rfl, slot?_lt hs⟩]
      rfl
    · rw [if_neg hkg] at hk
      rw [if_neg fun h => hkg h.1]
      exact h.opened k hk

/-- A group has been entered, and its start is loose. -/
theorem alike_enter (hs : c.slot? g = some slot) (hX : X g false) (p : Nat) :
    (c.setSlot g { slot with start := some p }).Alike X c where
  size := by simp
  history := rfl
  start k hk := by
    rw [slot?_setSlot]
    by_cases hkg : k = g
    · exact absurd (hkg ▸ hX) hk
    · rw [if_neg fun h => hkg h.1]
  span k _ := by
    rw [slot?_setSlot]
    by_cases hkg : k = g
    · subst hkg
      simp [slot?_lt hs, hs]
    · rw [if_neg fun h => hkg h.1]
  opened k hk := by
    rw [slot?_setSlot]
    split
    · rfl
    · exact hk

/-- A group has been left, and its span is loose. -/
theorem alike_closed (hs : c.slot? g = some slot) {a : Nat} (ha : slot.start = some a)
    (hX : X g true) (p : Nat) : (c.closed g ⟨a, p⟩ false).Alike X c where
  size := by simp
  history := rfl
  start k _ := by
    rw [slot?_closed]
    by_cases hkg : k = g
    · subst hkg
      simp [slot?_lt hs, hs, ha]
    · rw [if_neg fun h => hkg h.1]
  span k hk := by
    rw [slot?_closed]
    by_cases hkg : k = g
    · exact absurd (hkg ▸ hX) hk
    · rw [if_neg fun h => hkg h.1]
  opened k hk := by
    rw [slot?_closed]
    split
    · rfl
    · exact hk

/-- A group is left, here and there. Where its start is stale its span will be. -/
theorem Alike.close (h : c.Alike X d) (hs : c.slot? g = some slot) {a b : Nat}
    (ha : slot.start = some a) (hb : (d.slot? g).bind Slot.start = some b)
    (hXS : ∀ k b, X k b → S k b ∨ (k = g ∧ b = true)) (hclosed : S g false → S g true) (p : Nat)
    (log : Bool) (hlog : log = true → ¬ S g false) :
    (c.closed g ⟨a, p⟩ log).Alike S (d.close g p log) := by
  have hstart : ¬ S g false → a = b := by
    intro hg
    have hX : ¬ X g false := fun hx => (hXS g _ hx).elim hg fun h => nomatch h.2
    have := h.start g hX
    rw [hs] at this
    obtain ⟨s, hs', hsb⟩ := Option.bind_eq_some_iff.mp hb
    rw [hs'] at this
    simpa [ha, hsb] using this
  have hclose : d.close g p log = d.closed g ⟨b, p⟩ log := by
    unfold Captures.close
    rw [hb]
  rw [hclose]
  have hlt := slot?_lt hs
  have hlt' : g < d.slots.size := h.size ▸ hlt
  refine ⟨?_, ?_, fun k hk => ?_, fun k hk => ?_, fun k hk => ?_⟩
  · simpa using h.size
  · cases log with
    | false => exact h.history
    | true =>
      obtain rfl := hstart (hlog rfl)
      exact congrArg ((g, (⟨a, p⟩ : Span)) :: ·) h.history
  · rw [slot?_closed, slot?_closed]
    by_cases hkg : k = g
    · subst hkg
      simp [hlt, hlt', hstart hk]
    · rw [if_neg fun h => hkg h.1, if_neg fun h => hkg h.1]
      exact h.start k fun hx => (hXS k _ hx).elim hk fun h => hkg h.1
  · rw [slot?_closed, slot?_closed]
    by_cases hkg : k = g
    · subst hkg
      simp [hlt, hlt', hstart fun hf => hk (hclosed hf)]
    · rw [if_neg fun h => hkg h.1, if_neg fun h => hkg h.1]
      exact h.span k fun hx => (hXS k _ hx).elim hk fun h => hkg h.1
  · rw [slot?_closed]
    rw [slot?_closed] at hk
    by_cases hkg : k = g
    · rw [if_pos ⟨hkg, hlt⟩]
      rfl
    · rw [if_neg fun h => hkg h.1] at hk ⊢
      exact h.opened k hk

end Captures

namespace Machine

variable {e : Setting} {B : Built} {μ : Memory} {φ : Promise} {z : Zone} {since : Option Nat} {S P X : Stale}
  {x y w : Addr} {t : Trail} {later : Nat → Prop} {fate : Fate} {part : Part} {f : Way}

/-- The fields of a group that are loose in its code. -/
def groupLoose (undone : Array Bool) (g : Nat) : Stale := fun k _ =>
  k = g ∧ undone.getD g true = false

/-- While a group is open its span is stale, unless backtracking restores it. -/
def spanLoose (undone : Array Bool) (g : Nat) : Stale := fun k b =>
  k = g ∧ b = true ∧ undone.getD g true = false

theorem fits_groupLoose (undone : Array Bool) (g : Nat) : (groupLoose undone g).Fits undone :=
  ⟨fun _ h => h, fun _ _ h => h.1 ▸ h.2⟩

theorem fits_spanLoose (undone : Array Bool) (g : Nat) : (spanLoose undone g).Fits undone :=
  ⟨(fun _ h => nomatch h.2.1), fun _ _ h => h.1 ▸ h.2.2⟩

/-- A record of a group brings its slot back. -/
theorem Restored.ungrouped {Good : Option Memo → Prop} {c c' d : Core} {g : Nat} {slot : Slot}
    (h : Restored Good X c' d)
    (hframes : c'.frames = .capture g slot c.regs.captures.history :: c.frames)
    (hcaptures : c'.regs.captures.restore g slot c.regs.captures.history = c.regs.captures)
    (hcounts : c'.regs.counts = c.regs.counts) (hkeep : c'.regs.keep = c.regs.keep)
    (hdepth : c'.regs.depth = c.regs.depth) (hstart : c'.start = c.start) :
    ∃ d', Point.Moves e (.failing d) (.failing d') ∧ d'.best = d.best ∧ Restored Good X c d' := by
  refine ⟨_, Point.moves_undo d (h.frames.trans hframes) rfl, rfl, rfl, ?_,
    h.start.trans hstart, h.memo⟩
  refine ⟨?_, h.regs.counts.trans hcounts, h.regs.keep.trans hkeep, h.regs.depth.trans hdepth⟩
  have := h.regs.captures.restore g slot c.regs.captures.history
  rwa [hcaptures] at this

/-- Where a group has been entered. -/
def Core.entered (c : Core) (ip : Addr) (g : Nat) (undo : Bool) (slot : Slot) : Core :=
  { c with
    ip := ip
    frames := savedSlot undo g slot c.regs.captures.history c.frames
    regs := { c.regs with
      captures := c.regs.captures.setSlot g { slot with start := some c.pos } } }

/-- Where a group that began at `start` has been left. -/
def Core.left (c : Core) (ip : Addr) (g : Nat) (undo log : Bool) (slot : Slot) (start : Nat) :
    Core :=
  { c with
    ip := ip
    frames := savedSlot undo g slot c.regs.captures.history c.frames
    regs := { c.regs with captures := c.regs.captures.closed g ⟨start, c.pos⟩ log } }

theorem loose_entered {undone : Array Bool} {g k : Nat} {b : Bool}
    (h : S.or (P.or (groupLoose undone g)) k b) :
    (S.or (spanLoose undone g)).or P k b ∨ (k = g ∧ b = false) := by
  rcases h with h | h | ⟨rfl, h⟩
  · exact Or.inl (Or.inl (Or.inl h))
  · exact Or.inl (Or.inr h)
  · cases b with
    | false => exact Or.inr ⟨rfl, rfl⟩
    | true => exact Or.inl (Or.inl (Or.inr ⟨rfl, rfl, h⟩))

theorem loose_inside {undone : Array Bool} {g k : Nat} {b : Bool}
    (h : (S.or (spanLoose undone g)).or P k b) : S.or (P.or (groupLoose undone g)) k b := by
  rcases h with (h | ⟨rfl, -, h⟩) | h
  · exact Or.inl h
  · exact Or.inr (Or.inr ⟨rfl, h⟩)
  · exact Or.inr (Or.inl h)

/-- After a group has been entered there is a record of its slot, or its fields are loose. -/
theorem Core.above_entered {undone : Array Bool} {p : Program} {c : Core} {ip : Addr} {g : Nat}
    {slot : Slot} (hs : c.regs.captures.slot? g = some slot) :
    Above p ⟨c, z, S.or (P.or (groupLoose undone g))⟩
      (c.entered ip g (undone.getD g true) slot) := by
  refine ⟨?_, fun _ _ => rfl, rfl⟩
  cases hu : undone.getD g true with
  | true =>
    refine ⟨[.capture g slot c.regs.captures.history], c.frames, rfl, .refl _, .single trivial,
      ?_, ?_⟩
    · intro f hf
      cases List.mem_singleton.mp hf
      trivial
    · refine ⟨?_, rfl, rfl, rfl⟩
      change Captures.Alike _ ((c.regs.captures.setSlot g _).restore g slot _) _
      rw [Captures.restore_setSlot hs]
      exact .refl _ _
  | false =>
    refine ⟨[], c.frames, rfl, .refl _, .nil _, by simp, ?_⟩
    exact ⟨Captures.alike_enter hs (Or.inr (Or.inr ⟨rfl, hu⟩)) c.pos, rfl, rfl, rfl⟩

/-- After a group has been left there is a record of its slot, or its span is loose. -/
theorem Core.above_left {undone : Array Bool} {p : Program} {c : Core} {ip : Addr} {g start : Nat}
    {log : Bool} {slot : Slot} (hs : c.regs.captures.slot? g = some slot)
    (ha : slot.start = some start) (hlog : log = true → undone.getD g true = true) :
    Above p ⟨c, z, S.or (spanLoose undone g)⟩
      (c.left ip g (undone.getD g true) log slot start) := by
  refine ⟨?_, fun _ _ => rfl, rfl⟩
  cases hu : undone.getD g true with
  | true =>
    refine ⟨[.capture g slot c.regs.captures.history], c.frames, rfl, .refl _, .single trivial,
      ?_, ?_⟩
    · intro f hf
      cases List.mem_singleton.mp hf
      trivial
    · refine ⟨?_, rfl, rfl, rfl⟩
      change Captures.Alike _ ((c.regs.captures.closed g _ log).restore g slot _) _
      rw [Captures.restore_closed hs]
      exact .refl _ _
  | false =>
    obtain rfl : log = false := by
      cases log with
      | false => rfl
      | true => simp [hu] at hlog
    refine ⟨[], c.frames, rfl, .refl _, .nil _, by simp, ?_⟩
    exact ⟨Captures.alike_closed hs ha (Or.inr ⟨rfl, rfl, hu⟩) c.pos, rfl, rfl, rfl⟩

/-- A failure in a group is one before it. -/
theorem Restored.unentered {Good : Option Memo → Prop} {undone : Array Bool} {c d : Core}
    {ip : Addr} {g : Nat} {slot : Slot} (hs : c.regs.captures.slot? g = some slot)
    (h : Restored Good ((S.or (spanLoose undone g)).or P)
      (c.entered ip g (undone.getD g true) slot) d) :
    ∃ d', Point.Reaches e (.failing d) (.failing d') ∧ d'.best = d.best ∧
      Restored Good (S.or (P.or (groupLoose undone g))) c d' := by
  have h : Restored Good (S.or (P.or (groupLoose undone g)))
      (c.entered ip g (undone.getD g true) slot) d :=
    ⟨h.frames, h.regs.mono fun _ _ => loose_inside, h.start, h.memo⟩
  cases hu : undone.getD g true with
  | true =>
    rw [hu] at h
    obtain ⟨d', hmove, hbest, hd'⟩ := h.ungrouped (e := e) rfl (Captures.restore_setSlot hs _) rfl
      rfl rfl rfl
    exact ⟨d', .single hmove, hbest, hd'⟩
  | false =>
    rw [hu] at h
    refine ⟨d, .refl, rfl, h.frames, h.regs.trans ?_, h.start, h.memo⟩
    exact ⟨Captures.alike_enter hs (Or.inr (Or.inr ⟨rfl, hu⟩)) c.pos, rfl, rfl, rfl⟩

/-- A failure after a group is one at its end. -/
theorem Restored.unleft {Good : Option Memo → Prop} {undone : Array Bool} {c d : Core}
    {ip : Addr} {g start : Nat} {log : Bool} {slot : Slot}
    (hs : c.regs.captures.slot? g = some slot) (ha : slot.start = some start)
    (hlog : log = true → undone.getD g true = true)
    (h : Restored Good S (c.left ip g (undone.getD g true) log slot start) d) :
    ∃ d', Point.Reaches e (.failing d) (.failing d') ∧ d'.best = d.best ∧
      Restored Good (S.or (spanLoose undone g)) c d' := by
  have h : Restored Good (S.or (spanLoose undone g))
      (c.left ip g (undone.getD g true) log slot start) d :=
    ⟨h.frames, h.regs.mono fun _ _ => Or.inl, h.start, h.memo⟩
  cases hu : undone.getD g true with
  | true =>
    rw [hu] at h
    obtain ⟨d', hmove, hbest, hd'⟩ := h.ungrouped (e := e) rfl (Captures.restore_closed hs _ _)
      rfl rfl rfl rfl
    exact ⟨d', .single hmove, hbest, hd'⟩
  | false =>
    obtain rfl : log = false := by
      cases log with
      | false => rfl
      | true => simp [hu] at hlog
    rw [hu] at h
    refine ⟨d, .refl, rfl, h.frames, h.regs.trans ?_, h.start, h.memo⟩
    exact ⟨Captures.alike_closed hs ha (Or.inr ⟨rfl, rfl, hu⟩) c.pos, rfl, rfl, rfl⟩

/-- At the end of a group its span is captured. -/
theorem group_closes {base : Base} {g : Nat} {u : Trail} {d : Core} (hB : Hosts e B)
    (hclose : B.code[w]? = some (.groupEnd g (B.layout.undone.getD g true)))
    (hS : S.Fits B.layout.undone)
    (hd : Arrives e μ.Good base (S.or (spanLoose B.layout.undone g)) w u d)
    (hopen : ((u.captures.slot? g).bind Slot.start).isSome) :
    Yields e μ.Good fate (w + 1) ⟨d, z, S.or (spanLoose B.layout.undone g)⟩ S (.going d)
      [{ u with captures := u.captures.close g u.pos B.scene.history }] := by
  obtain ⟨b, hb⟩ := Option.isSome_iff_exists.mp hopen
  obtain ⟨start, hstart⟩ := Option.isSome_iff_exists.mp (hd.follows.captures.opened g hopen)
  obtain ⟨slot, hslot, ha⟩ := Option.bind_eq_some_iff.mp hstart
  have hlogged : (B.layout.undone.getD g true && e.program.has .captureHistory) =
      B.scene.history := by
    rw [hB.history]
    cases hu : B.layout.undone.getD g true with
    | true => rfl
    | false => rw [hB.undone g hu, Bool.and_false]
  have hlog : B.scene.history = true → B.layout.undone.getD g true = true := by
    intro hh
    cases hu : B.layout.undone.getD g true with
    | true => rfl
    | false => rw [hB.undone g hu] at hh; cases hh
  have hmove : Point.Moves e (.going d) (.going
      (d.left (w + 1) g (B.layout.undone.getD g true) B.scene.history slot start)) := by
    have := moves_groupEnd hB.quiet (hB.fetch hclose hd.ip) hslot ha
    rwa [hd.ip, hlogged] at this
  refine .move (.single hmove) rfl (.result ⟨rfl, ?_, Core.above_left hslot ha hlog, hd.memo⟩
    fun d' hd' _ => ?_)
  · refine ⟨hd.follows.pos, hd.follows.inside, hd.follows.keep, ?_,
      (Captures.size_closed ..).trans hd.follows.groups, hd.follows.counts⟩
    have hfits : B.scene.history = true → ¬ S g false := by
      intro hh hs
      have := hS.undone g _ hs
      rw [hlog hh] at this
      cases this
    have := hd.follows.captures.close hslot ha hb (S := S) (fun k b h => h.imp_right fun h =>
      ⟨h.1, h.2.1⟩) (hS.closed g) u.pos B.scene.history hfits
    change ((d.regs.captures.closed g ⟨start, d.pos⟩ B.scene.history).Alike S _)
    rw [hd.follows.pos]
    exact this
  · obtain ⟨d'', hreach, hbest, hd''⟩ := Restored.unleft (e := e) hslot ha hlog hd'
    exact .move hreach hbest (.done hd'')

/-- A group gives the ways of its body, and captures where each began and ended. -/
theorem capture_gives {peek : Option UInt8} {g : Nat} (hB : Hosts e B)
    (hpart : Means e B μ none part P f) (hopens : f.Opens) :
    Means e B μ peek (B.CaptureAt g part) (P.or (groupLoose B.layout.undone g))
      (f.capture B.scene.history g) := by
  intro φ later z x y fate since S t h hz hS _ hφ c hc
  unfold Built.CaptureAt at h
  rw [hB.calls] at h
  obtain ⟨w, hopen, hbody, hclose, rfl⟩ := h
  have hlt : g < c.regs.captures.slots.size := by
    rw [hc.follows.groups]
    exact hB.groups _ _ _ hopen
  obtain ⟨slot, hslot⟩ : ∃ slot, c.regs.captures.slot? g = some slot :=
    ⟨_, Array.getElem?_eq_getElem hlt⟩
  let S' := S.or (spanLoose B.layout.undone g)
  let t' : Trail := { t with captures := t.captures.setStart g (some t.pos) }
  let c₁ := c.entered (x + 1) g (B.layout.undone.getD g true) slot
  have hmove : Point.Moves e (.going c) (.going c₁) := by
    have := moves_groupStart hB.quiet (hB.fetch hopen hc.ip) hslot
    rwa [hc.ip] at this
  have habove : Above e.program ⟨c, z, S.or (P.or (groupLoose B.layout.undone g))⟩ c₁ :=
    Core.above_entered hslot
  have hext : Extends e.program ⟨c, z, S.or (P.or (groupLoose B.layout.undone g))⟩
      ⟨c₁, z, S'.or P⟩ :=
    ⟨habove, Nat.le_refl _, Nat.le_refl _, fun _ _ => loose_inside⟩
  have hcaptures : c₁.regs.captures.Alike (S'.or P) t'.captures := by
    have ht' : t'.captures = t.captures.setStart g (some c.pos) := by rw [hc.follows.pos]
    rw [ht']
    exact hc.follows.captures.enter hslot (fun _ _ => loose_entered) c.pos
  have hready : Ready e μ.Good z since (S'.or P) (x + 1) t' c₁ :=
    ⟨rfl, ⟨hc.follows.pos, hc.follows.inside, hc.follows.keep, hcaptures,
      (Captures.size_setSlot ..).trans hc.follows.groups, hc.follows.counts⟩,
      standing_above hz rfl hc.standing habove, hc.began, hc.memo⟩
  have hgives : Gives e μ.Good fate z since (S'.or P) S' (x + 1) w t' (f t') :=
    hpart φ later z (x + 1) w fate since S' t' hbody hz (hS.or (fits_spanLoose _ g))
      (fun _ h => nomatch h) hφ
  refine .move (.single hmove) rfl ?_
  unfold Way.capture
  rw [List.map_eq_flatMap]
  refine ((hgives c₁ hready).bind (Nat.le_refl _) (Nat.le_refl _) (fun _ _ => Or.inl)
    (fun u hu d hd => ?_) fun u _ => ?_).rebase hext fun d hd _ => ?_
  · refine group_closes hB hclose hS hd ?_
    refine hopens t' u hu g ?_
    have hlt' : g < t.captures.slots.size := hc.follows.captures.size ▸ hlt
    have hget : t.captures.slot? g = some t.captures.slots[g] := Array.getElem?_eq_getElem hlt'
    rw [Captures.slot?_setStart, if_pos rfl, hget]
    rfl
  · exact fate.leads_single rfl
  · obtain ⟨d', hreach, hbest, hd'⟩ := Restored.unentered (e := e) hslot hd
    exact .move hreach hbest (.done hd')

end Machine
end RegexMachine
