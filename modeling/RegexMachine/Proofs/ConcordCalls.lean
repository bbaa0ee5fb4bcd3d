import RegexMachine.Proofs.ConcordRegions

/-!
Calls and the absent operator in concord. A call gives back the counts of all loops when it returns, so
that nothing of it is left but frames; the body of an absent operator is run by itself, and the two
runs of it are watched by an observer of their own.
-/
namespace RegexMachine.Machine

variable {e e' : Setting} {O : Observer e e'} {N n m hi hi' sub : Nat} {z z' ζ ζ' : Zone}
  {x x' y y' v v' w w' a a' : Nat} {b c c' d d' t : Core} {p p' : Program} {M : List Memento} {B B' : Built}
  {body body' : Part} {s s' : Subroutine}

/-! ## What a call saves -/

/-- Values that are written where they stand already. -/
theorem writeFrom_extract {a b : Array Nat} {i j : Nat} (hij : i ≤ j) (hj : j ≤ b.size)
    (hsize : a.size = b.size) (hout : ∀ k, k < i ∨ j ≤ k → a[k]? = b[k]?) :
    writeFrom a i (b.extract i j).toList = b := by
  have hlen : (b.extract i j).toList.length = j - i := by
    simp only [Array.length_toList, Array.size_extract]
    omega
  refine Array.ext_getElem? fun k => ?_
  by_cases hk : k < a.size
  · rw [getElem?_writeFrom _ _ _ _ hk, hlen]
    split
    · have hadd : i + (k - i) = k := by omega
      rw [Array.getElem?_toList, Array.getElem?_extract, if_pos (by omega), hadd]
    · exact hout k (by omega)
  · rw [Array.getElem?_eq_none (by rw [size_writeFrom]; omega), Array.getElem?_eq_none (by omega)]

/-- Counts of the loops of a subroutine. -/
def Registers.countsIn (r : Registers) (s : Subroutine) : List Nat :=
  (r.counts.extract s.loops.first s.loops.stop).toList

/-- What a call saves where everything exists but, it may be, the groups. -/
theorem called_eq {r : Registers} (hs : p.tables.subroutines[sub]? = some s) (hfits : s.Fits p.tables)
    (hroom : r.counts.size = p.tables.loops.size) : ∃ f : Fault, r.called p sub =
      match r.captures.starts? s.captures with
      | none => .error f
      | some starts => .ok ⟨starts, r.countsIn s⟩ := by
  have hsize := hfits.size
  refine ⟨.outside r.captures.slots.size (max r.captures.slots.size s.captures.first), ?_⟩
  simp only [Registers.called, hs]
  cases r.captures.starts? s.captures with
  | none => rfl
  | some starts =>
    simp only [if_neg (Nat.not_lt.mpr hfits.loops), if_neg (show ¬ r.counts.size < s.loops.stop by omega)]
    rfl

namespace Core

/-- The core in which a subroutine begins. -/
def calling (c : Core) (sub : Nat) (s : Subroutine) (starts : List (Option Nat)) (back : Addr) : Core :=
  { c with
    ip := s.entry
    frames := .call back sub ⟨starts, c.regs.countsIn s⟩ :: c.frames
    regs := { c.regs with depth := c.regs.depth + 1 } }

/-- The core after a return from it. -/
def returning (c : Core) (p : Program) (sub : Nat) (saved undo : CallState) (back : Addr) : Core :=
  { c with
    ip := back
    frames := .returned sub undo :: c.frames
    regs := { c.regs.setCallState p sub saved with depth := c.regs.depth - 1 } }

end Core

theorem callFrom_tidy {lo back : Nat} {F K : List Frame} {saved : CallState} (hF : Tidy lo F)
    (hf : c.frames = F ++ .call back sub saved :: K) :
    FrameStack.callFrom 0 c.frames = some (back, sub, saved) :=
  currentCall?_of_tidy (s := ⟨c.frames, c.frames.length, rfl⟩) hF hf

/-- The instruction that ends a call finds it below the frames of completed code. -/
theorem leaveCall_tidy {lo back : Nat} {F K : List Frame} {saved undo : CallState}
    (hf : c.frames = F ++ .call back sub saved :: K) (hF : Tidy lo F)
    (hundo : c.regs.called p sub = .ok undo) (hdepth : c.regs.depth ≠ 0) :
    c.leaveCall p = .ok (.going (c.returning p sub saved undo back)) := by
  simp only [Core.leaveCall, callFrom_tidy hF hf, hundo, if_neg hdepth]
  rfl

theorem leaveCall_broken {lo back : Nat} {F K : List Frame} {saved : CallState} {f : Fault}
    (hf : c.frames = F ++ .call back sub saved :: K) (hF : Tidy lo F)
    (hundo : c.regs.called p sub = .error f) : c.leaveCall p = Core.broken f := by
  simp only [Core.leaveCall, callFrom_tidy hF hf, hundo]

theorem counts_setCallState (hs : p.tables.subroutines[sub]? = some s) (r : Registers)
    (k : CallState) : (r.setCallState p sub k).counts = writeFrom r.counts s.loops.first k.counts := by
  simp only [Registers.setCallState, hs]

theorem uncounted_setCallState (hs : p.tables.subroutines[sub]? = some s) (r : Registers)
    (k : CallState) : (r.setCallState p sub k).uncounted =
      { r.uncounted with captures := r.uncounted.captures.setStarts s.captures k.starts } := by
  simp only [Registers.setCallState, hs]
  rfl

/-- After a call the counts are what they were, and its frames give back what it had changed. -/
theorem Spent.returned (hi : Nat) (z : Zone) {back : Nat} {starts : List (Option Nat)}
    (starts' : List (Option Nat))
    (hs : p.tables.subroutines[sub]? = some s) (hfits : s.Fits p.tables)
    (hroom : c.regs.counts.size = p.tables.loops.size)
    (h : Spent p s.loops.stop ⟨none, 0, s.loops.first⟩ M (c.calling sub s starts back) d) :
    let undo : CallState := ⟨starts', d.regs.countsIn s⟩
    let t := d.returning p sub ⟨starts, c.regs.countsIn s⟩ undo back
    t.regs.ledger = c.regs.ledger ∧
      (∀ r : Registers, r.ledger = t.regs.ledger →
        (r.undo p (.returned sub undo)).ledger = d.regs.ledger) ∧
      Spent p hi z (mementos p [.returned sub undo] ++ M ++ [.call]) c t := by
  intro undo t
  have hdepth : d.regs.depth = c.regs.depth + 1 := h.depth
  have hsize : d.regs.counts.size = c.regs.counts.size := h.size
  have hstop : s.loops.stop ≤ c.regs.counts.size := hroom ▸ hfits.size
  have hledger : t.regs.ledger = c.regs.ledger := by
    refine Prod.ext ?_ (congrArg (· - 1) hdepth :)
    exact (counts_setCallState hs _ _).trans (writeFrom_extract hfits.loops hstop hsize h.counts)
  have hundo : ∀ r : Registers, r.ledger = t.regs.ledger →
      (r.undo p (.returned sub undo)).ledger = d.regs.ledger := by
    intro r hr
    rw [hledger] at hr
    have hcounts : r.counts = c.regs.counts := congrArg Prod.fst hr
    have hopen : r.depth = c.regs.depth := congrArg Prod.snd hr
    refine Prod.ext ?_ ((congrArg (· + 1) hopen :).trans hdepth.symm)
    refine (counts_setCallState hs r undo).trans
      (writeFrom_extract hfits.loops (hsize ▸ hstop) ?_ fun k hk => ?_)
    · rw [hcounts, hsize]
    · rw [hcounts]
      exact (h.counts k hk).symm
  refine ⟨hledger, hundo, ?_⟩
  have hall : t.regs.counts = c.regs.counts := congrArg Prod.fst hledger
  obtain ⟨F, hf, hF, hM, hback⟩ := h.above rfl (by simp)
  let saved : CallState := ⟨starts, c.regs.countsIn s⟩
  refine ⟨by rw [hall], fun _ _ => by rw [hall], congrArg Prod.snd hledger,
    .returned sub undo :: (F ++ [.call back sub saved]), c.frames, ?_, .refl _, ?_, ?_, fun r hr => ?_⟩
  · change .returned sub undo :: d.frames = _
    rw [hf, List.cons_append, List.append_assoc]
    rfl
  · exact .call sub undo back sub saved hF (.nil _)
  · rw [← List.singleton_append, mementos_append, mementos_append, hM, List.append_assoc]
    rfl
  · rw [Registers.undoAll_cons, Registers.undoAll_append]
    have hinside := hback _ (hundo r hr)
    exact Prod.ext (congrArg Prod.fst hinside :) (congrArg (·.2 - 1) hinside :)

/-! ## Calls -/

/-- Two programs have a subroutine of a number for the same groups. -/
structure Shared (p p' : Program) (sub : Nat) (s s' : Subroutine) : Prop where
  left : p.tables.subroutines[sub]? = some s
  right : p'.tables.subroutines[sub]? = some s'
  fits : s.Fits p.tables
  fits' : s'.Fits p'.tables
  captures : s'.captures = s.captures

/-- A return brings back the starts of the same groups, whatever counts it brings back. -/
theorem Level.returning (hs : Shared p p' sub s s') (h : Level d d') (starts : List (Option Nat))
    (counts counts' : List Nat) (undo undo' : CallState) (back back' : Addr) :
    Level (d.returning p sub ⟨starts, counts⟩ undo back)
      (d'.returning p' sub ⟨starts, counts'⟩ undo' back') := by
  refine ⟨h.pos, ?_⟩
  change { (d'.regs.setCallState _ _ _).uncounted with depth := d'.regs.depth - 1 } =
    { (d.regs.setCallState _ _ _).uncounted with depth := d.regs.depth - 1 }
  rw [uncounted_setCallState hs.left, uncounted_setCallState hs.right, h.regs, h.depth, hs.captures]

/-- Both runs return from calls that they have made together. -/
theorem Awaits.returns {starts : List (Option Nat)} (hs : Shared e.program e'.program sub s s')
    (hwait : Awaits O n hi hi' z z' (x + 1) (x' + 1) c c') (hc : Abreast O n x x' c c')
    (hfree : O.Clears c.regs.depth x x' (x + 1) (x' + 1)) (hret : e.program.code[v]? = some .ret)
    (hret' : e'.program.code[v']? = some .ret) (hm : m ≤ n) (hd : Abreast O m v v' d d')
    (hspent : Spent e.program s.loops.stop ⟨none, 0, s.loops.first⟩ M (c.calling sub s starts (x + 1)) d)
    (hspent' : Spent e'.program s'.loops.stop ⟨none, 0, s'.loops.first⟩ M
      (c'.calling sub s' starts (x' + 1)) d') : O.sees m (.ok d) (.ok d') := by
  have hdepth : d.regs.depth = c.regs.depth + 1 := hspent.depth
  have hpos : d.regs.depth ≠ 0 := by omega
  have hpos' : d'.regs.depth ≠ 0 := by rwa [hd.depth]
  have hfree' : O.Clears d.regs.depth v v' (v + 1) (v' + 1) := hdepth ▸ hfree.deeper _ _ _ _
  have hstep {u u' : Except Ending Point} (h : d.leaveCall e.program = u)
      (h' : d'.leaveCall e'.program = u')
      (hnext : ∀ k < m, O.sees k (outcome e u) (outcome e' u')) : O.sees m (.ok d) (.ok d') :=
    hd.step hfree' (Nat.lt_succ_self v) (Nat.lt_succ_self v') hret hret' (fun _ => h) (fun _ => h') hnext
  obtain ⟨F, hf, hF, -, -⟩ := hspent.above rfl (by simp)
  obtain ⟨F', hf', hF', -, -⟩ := hspent'.above rfl (by simp)
  obtain ⟨f, hcalled⟩ := called_eq hs.left hs.fits hd.room
  obtain ⟨f', hcalled'⟩ := called_eq hs.right hs.fits' hd.room'
  rw [hd.level.captures, hs.captures] at hcalled'
  cases hstarts : d.regs.captures.starts? s.captures with
  | none =>
    simp only [hstarts] at hcalled hcalled'
    exact hstep (leaveCall_broken hf hF hcalled) (leaveCall_broken hf' hF' hcalled')
      fun k _ => O.ending ⟨_, rfl, _, rfl, trivial⟩
  | some starts' =>
    simp only [hstarts] at hcalled hcalled'
    refine hstep (leaveCall_tidy hf hF hcalled hpos) (leaveCall_tidy hf' hF' hcalled' hpos')
      fun k hk => ?_
    obtain ⟨hledger, hundo, hgone⟩ := hspent.returned hi z starts' hs.left hs.fits hc.room
    obtain ⟨hledger', hundo', hgone'⟩ := hspent'.returned hi' z' starts' hs.right hs.fits' hc.room'
    have hsame : mementos e'.program [.returned sub ⟨starts', d'.regs.countsIn s'⟩] =
        mementos e.program [.returned sub ⟨starts', d.regs.countsIn s⟩] := by
      simp [mementos, Frame.memento?, hs.left, hs.right, hs.captures]
    rw [hsame] at hgone'
    have hlevel := hd.level.returning hs starts (c.regs.countsIn s) (c'.regs.countsIn s')
      ⟨starts', d.regs.countsIn s⟩ ⟨starts', d'.regs.countsIn s'⟩ (x + 1) (x' + 1)
    have hroom : d.regs.counts.size = c.regs.counts.size := hspent.size
    have hroom' : d'.regs.counts.size = c'.regs.counts.size := hspent'.size
    have hsize := congrArg (·.1.size) hledger
    have hsize' := congrArg (·.1.size) hledger'
    exact hwait.here (by omega) ((hd.mono (Nat.le_of_lt hk)).push _ _ rfl rfl hlevel rfl rfl rfl rfl hsame
      (hsize.trans hroom.symm) (hsize'.trans hroom'.symm) hundo hundo') ⟨_, hgone, hgone'⟩

/-- Both runs enter a subroutine. -/
theorem Abreast.calling (hc : Abreast O n x x' c c') (hm : m ≤ n) (sub : Nat) (s s' : Subroutine)
    (starts : List (Option Nat)) : Abreast O m s.entry s'.entry (c.calling sub s starts (x + 1))
      (c'.calling sub s' starts (x' + 1)) := by
  have hlevel : Level (c.calling sub s starts (x + 1)) (c'.calling sub s' starts (x' + 1)) := by
    refine ⟨hc.level.pos, ?_⟩
    change { c'.regs.uncounted with depth := c'.regs.uncounted.depth + 1 } =
      { c.regs.uncounted with depth := c.regs.uncounted.depth + 1 }
    rw [hc.level.regs]
  have hback {r : Registers} {a : Core} (h : r.ledger = (a.regs.counts, a.regs.depth + 1)) :
      (r.counts, r.depth - 1) = a.regs.ledger :=
    Prod.ext (congrArg Prod.fst h :) (congrArg (·.2 - 1) h :)
  exact (hc.mono hm).push _ _ rfl rfl hlevel rfl rfl rfl rfl rfl rfl rfl
    (fun r h => hback (r := r) (a := c) h) fun r h => hback (r := r) (a := c') h

/-- Calls of a subroutine whose bodies are in concord in fewer steps. -/
theorem Concur.call (hpair : Partners e e') (hs : Shared e.program e'.program sub s s')
    (hbody : ∀ m < N, Concur O m s.loops.stop s'.loops.stop ⟨none, 0, s.loops.first⟩
      ⟨none, 0, s'.loops.first⟩ s.entry s'.entry v v')
    (hret : e.program.code[v]? = some .ret) (hret' : e'.program.code[v']? = some .ret)
    (hi₁ : e.program.code[x]? = some (.call s.entry sub))
    (hi₂ : e'.program.code[x']? = some (.call s'.entry sub)) :
    Concur O N hi hi' z z' x x' (x + 1) (x' + 1) := by
  intro n hn c c' hfree hc hwait
  have hstep {u u' : Except Ending Point} (h : c.enterCall e s.entry sub = u)
      (h' : c'.enterCall e' s'.entry sub = u')
      (hnext : ∀ m < n, O.sees m (outcome e u) (outcome e' u')) : O.sees n (.ok c) (.ok c') :=
    hc.step hfree (Nat.lt_succ_self x) (Nat.lt_succ_self x') hi₁ hi₂ (fun _ => h) (fun _ => h') hnext
  obtain ⟨f, hcalled⟩ := called_eq hs.left hs.fits hc.room
  obtain ⟨f', hcalled'⟩ := called_eq hs.right hs.fits' hc.room'
  rw [hc.level.captures, hs.captures] at hcalled'
  by_cases hlimit : e.limits.callDepth ≤ c.regs.depth
  · let v : Except Ending Point := .error (.broken (.limit (.callDepth e.limits.callDepth)))
    have hleft : c.enterCall e s.entry sub = v := by
      simp only [Core.enterCall, if_pos hlimit, v]
    have hright : c'.enterCall e' s'.entry sub = v := by
      simp only [Core.enterCall, hpair.callDepth, hc.depth, if_pos hlimit, v]
    exact hstep hleft hright fun m _ => O.ending ⟨_, rfl, rfl⟩
  cases hstarts : c.regs.captures.starts? s.captures with
  | none =>
    simp only [hstarts] at hcalled hcalled'
    have hleft : c.enterCall e s.entry sub = Core.broken f := by
      simp only [Core.enterCall, if_neg hlimit, hcalled]
    have hright : c'.enterCall e' s'.entry sub = Core.broken f' := by
      simp only [Core.enterCall, hpair.callDepth, hc.depth, if_neg hlimit, hcalled']
    exact hstep hleft hright fun m _ => O.ending ⟨_, rfl, _, rfl, trivial⟩
  | some starts =>
    simp only [hstarts] at hcalled hcalled'
    have hleft : c.enterCall e s.entry sub = .ok (.going (c.calling sub s starts (x + 1))) := by
      simp only [Core.enterCall, if_neg hlimit, hcalled, hc.ip, Core.calling]
    have hright : c'.enterCall e' s'.entry sub =
        .ok (.going (c'.calling sub s' starts (x' + 1))) := by
      have hlimit' : ¬ e.limits.callDepth ≤ c'.regs.depth := by rwa [hc.depth]
      simp only [Core.enterCall, hpair.callDepth, if_neg hlimit', hcalled', hc.ip', Core.calling]
    refine hstep hleft hright fun m hm => ?_
    have hb := hc.calling (Nat.le_of_lt hm) sub s s' starts
    refine hbody m (by omega) m (Nat.le_refl m) _ _ (hfree.deeper _ _ _ _) hb fun k hk d d' hd hg => ?_
    obtain ⟨M, hspent, hspent'⟩ := hg
    exact hwait.returns hs hc hfree hret hret' (by omega) hd hspent hspent'

/-! ## Groups -/

/-- A group is opened before its body and closed after it. -/
theorem Concur.group (hpair : Partners e e') {g : Nat} {undo : Bool} {i i' : Instr}
    (hi₁ : e.program.code[x]? = some (.groupStart g undo))
    (hi₂ : e'.program.code[x']? = some (.groupStart g undo))
    (h : Concur O N hi hi' z z' (x + 1) (x' + 1) w w') (hi₃ : e.program.code[w]? = some i)
    (hi₄ : e'.program.code[w']? = some i')
    (hend : i = .groupEnd g undo ∨ i = .groupEndRecursive g ∧ undo = true)
    (hend' : i' = .groupEnd g undo ∨ i' = .groupEndRecursive g ∧ undo = true) (hx : x + 1 ≤ w)
    (hx' : x' + 1 ≤ w') : Concur O N hi hi' z z' x x' (w + 1) (w' + 1) :=
  (Concur.groupStart hi₁ hi₂).andThen
    (h.andThen (.groupEnd hpair hend hend' hi₃ hi₄) hx (Nat.le_succ w) hx' (Nat.le_succ w'))
    (Nat.le_succ x) (Nat.le_succ_of_le hx) (Nat.le_succ x') (Nat.le_succ_of_le hx')

theorem ascends_capture {g : Nat} (hbody : Ascends body) : Ascends (B.CaptureAt g body) := by
  intro later z x y h
  unfold Built.CaptureAt at h
  split at h
  · obtain ⟨sub, -, -, rfl⟩ := h
    exact Nat.le_succ x
  · obtain ⟨w, -, hinside, -, rfl⟩ := h
    have hle : x + 1 ≤ w := hbody hinside
    exact Nat.le_succ_of_le (Nat.le_of_succ_le hle)

/-- A capture group, or a call of it. -/
theorem Siblings.capture (T : Siblings p p' B B' hi hi') (h : Accords p p' N hi hi' body body') (g : Nat)
    (hcall : Accords p p' N hi hi' (fun _ _ _ x y => B.CallAt g x y)
      fun _ _ _ x y => B'.CallAt g x y) :
    Accords p p' N hi hi' (B.CaptureAt g body) (B'.CaptureAt g body') := by
  by_cases hcalled : B.layout.calls.isCalled g = true
  · have hcapture {C : Built} {part : Part} (hl : C.layout = B.layout) {later : Nat → Prop} {z : Zone}
        {x y : Addr} (h : C.CaptureAt g part none later z x y) : C.CallAt g x y := by
      unfold Built.CaptureAt at h
      rwa [hl, if_pos hcalled] at h
    exact hcall.imp (fun _ _ _ _ => hcapture rfl) fun _ _ _ _ => hcapture T.layout
  refine ⟨ascends_capture h.ascends, ascends_capture h.ascends', ?_⟩
  rintro e e' O rfl rfl hpair later later' z z' x x' y y' hpart hpart'
  unfold Built.CaptureAt at hpart hpart'
  rw [if_neg hcalled, T.code] at hpart
  rw [T.layout, if_neg hcalled, T.code'] at hpart'
  obtain ⟨w, hstart, hinside, hend, rfl⟩ := hpart
  obtain ⟨w', hstart', hinside', hend', rfl⟩ := hpart'
  exact .group hpair hstart hstart' (h.concur O rfl rfl hpair hinside hinside') hend hend' (.inl rfl)
    (.inl rfl) (h.ascends hinside) (h.ascends' hinside')

/-! ## The absent operator -/

theorem Ending.Akin.late {u u' : Ending} (h : u.Akin u') (hlate : u' = .broken .late) :
    u = .broken .late := by
  subst hlate
  cases u with
  | accepted c =>
    obtain ⟨d, hd⟩ := h
    cases hd
  | exhausted c =>
    obtain ⟨d, hd⟩ := h
    cases hd
  | broken k =>
    obtain ⟨k', hk', hlike⟩ := h
    cases hk'
    cases k with
    | fault f =>
      obtain ⟨f', hf', -⟩ := hlike
      cases hf'
    | _ => exact congrArg Ending.broken (Eq.symm hlike)

/-- Endings are akin if they come from the same reason to stop. -/
theorem Ending.akin_at {k k' : Halt} :
    (Ending.at k c).Akin (Ending.at k' d) ↔ k.Like (fun _ _ => True) k' := by
  constructor
  · intro h
    cases k with
    | accepted =>
      obtain ⟨d', hd⟩ := h
      cases k' <;> cases hd
      rfl
    | exhausted =>
      obtain ⟨d', hd⟩ := h
      cases k' <;> cases hd
      rfl
    | _ =>
      obtain ⟨k'', hd, hlike⟩ := h
      cases k' <;> cases hd <;> exact hlike
  · intro h
    cases k with
    | fault f =>
      obtain ⟨f', rfl, -⟩ := h
      exact ⟨_, rfl, f', rfl, trivial⟩
    | accepted =>
      obtain rfl : k' = .accepted := h
      exact ⟨d, rfl⟩
    | exhausted =>
      obtain rfl : k' = .exhausted := h
      exact ⟨d, rfl⟩
    | _ =>
      rw [show k' = _ from h]
      exact ⟨_, rfl, rfl⟩

/-- One who waits for two runs to end, and is not interested in where they have been. -/
def endings (e e' : Setting) : Observer e e' where
  stop := none
  stop' := none
  sees n v v' := after n e v ≠ .broken .late → ∃ u, EndsAfter e' v' u ∧ (after n e v).Akin u
  left {n c v v'} hs h hlate := by
    cases n with
    | zero => exact absurd rfl hlate
    | succ n =>
      have hrun : after (n + 1) e (.ok c) = after n e v := (run_after n e c).trans (by rw [hs.2 n])
      rw [hrun] at hlate ⊢
      exact h n (Nat.lt_succ_self n) hlate
  right {n v c' v'} hs h hlate := by
    obtain ⟨u, hu, hakin⟩ := h hlate
    exact ⟨u, hu.ends (N := 0) fun n _ => hs.2 n, hakin⟩
  meet {n c c'} _ _ h hlate := by
    cases n with
    | zero => exact absurd rfl hlate
    | succ n =>
      have hrun : after (n + 1) e (.ok c) = after n e (c.step n e) := run_after n e c
      rw [hrun] at hlate ⊢
      obtain hstep | ⟨v', ⟨K, hK⟩, hsees⟩ := h n (Nat.lt_succ_self n)
      · rw [hstep] at hlate
        exact absurd rfl hlate
      · obtain ⟨u, hu, hakin⟩ := hsees hlate
        exact ⟨u, hu.ends hK, hakin⟩
  ending {n u u'} h hlate := ⟨u', endsAfter_error fun hu => hlate (h.late hu), h⟩

theorem Partners.upTo (h : Partners e e') (stop : Nat) : Partners (e.upTo stop 0) (e'.upTo stop 0) where
  quiet := ⟨h.quiet.retries, h.quiet.searchRetries, h.quiet.frames, fun _ => h.quiet.signal 0⟩
  quiet' := ⟨h.quiet'.retries, h.quiet'.searchRetries, h.quiet'.frames, fun _ => h.quiet'.signal 0⟩
  subject := congrArg (·.upTo stop) h.subject
  origin := h.origin
  callDepth := h.callDepth
  captures := h.captures
  history := h.history
  unset := h.unset

/-- Runs of two bodies end alike, where the bodies are in concord up to the ends of the runs. -/
theorem keeps_bodies {f f' : Setting} (hpair : Partners f f') (hn : n ≤ N)
    (hbody : Concur (endings f f') N hi hi' z z' a a' w w')
    (hend : f.program.code[w]? = some .absentEnd) (hend' : f'.program.code[w']? = some .absentEnd) :
    Keeps (fun _ _ => True) (fun _ _ => True) (inner n) inner f f' a a' := by
  intro pos s s' _ hlate
  let c := (s.enter f a pos).core
  let c' := (s'.enter f' a' pos).core
  have hcore : Ending.of (inner n f a pos s) = c.run n f := run_core hpair.quiet n _
  have hc : Abreast (endings f f') n a a' c c' := by
    refine ⟨rfl, rfl, ⟨rfl, ?_⟩, Array.size_replicate, Array.size_replicate,
      fun m _ d d' _ _ _ => (endings f f').ending ⟨_, rfl⟩⟩
    change (Registers.clear _ _).uncounted = (Registers.clear _ _).uncounted
    rw [hpair.captures]
    rfl
  have hclear (x x' y y' : Nat) (k : Nat) : (endings f f').Clears k x x' y y' :=
    ⟨fun _ _ h => (nomatch h), fun _ _ h => (nomatch h)⟩
  obtain ⟨u, hu, hakin⟩ := hbody n hn c c' (hclear _ _ _ _ _) hc
    (fun m _ d d' hd _ => hd.step (hclear _ _ _ _ _) (Nat.lt_succ_self w) (Nat.lt_succ_self w') hend
      hend' (fun _ => rfl) (fun _ => rfl) fun _ _ => (endings f f').ending ⟨_, rfl⟩)
    fun hrun => hlate (Ending.at_late.mp (hcore.trans hrun))
  refine (inner_stays hpair.quiet' hu (P := fun u => (c.run n f).Akin u) hakin).mono fun v hv => ?_
  rw [← hcore] at hv
  exact ⟨Ending.akin_at.mp hv, fun _ => trivial⟩

theorem fallback_absent (hpair : Partners e e') (hwait : Awaits O n hi hi' z z' a a' c c')
    (hc : Abreast O n x x' c c') (start stop : Nat) :
    Fallback O n (.absent a start stop :: c.frames) (.absent a' start stop :: c'.frames) c.regs.ledger
      c'.regs.ledger := by
  induction stop using Nat.strongRecOn with
  | ind stop ih =>
    intro m hm d d' hl hk hk'
    simp only [resumeFrom, hpair.subject]
    cases hprev : (e.subject.prev? stop).filter (start ≤ ·) with
    | none => exact hc.fallback m hm d d' hl hk hk'
    | some q =>
      have hlt : q < stop := Subject.prev?_lt (Option.filter_eq_some_iff.mp hprev).1
      have := hwait.tries (q := q) (decide (start < q)) hc hm rfl rfl
        (fun _ => (ih q hlt).mono hm) hl hk hk'
      simpa only [decide_eq_true_eq] using this

/-- An absent operator goes on after the longest text that is free of its body, and later after shorter
ones. -/
theorem Concur.absent (hpair : Partners e e') (hi₁ : e.program.code[x]? = some (.absent a))
    (hi₂ : e'.program.code[x']? = some (.absent a'))
    (hbody : ∀ stop, Concur (endings (e.upTo stop 0) (e'.upTo stop 0)) N hi hi' ζ ζ' a a' w w')
    (hend : e.program.code[w]? = some .absentEnd) (hend' : e'.program.code[w']? = some .absentEnd) :
    Concur O N hi hi' z z' x x' (x + 1) (x' + 1) := by
  intro n hn c c' hfree hc hwait
  obtain ⟨hs, hs'⟩ := hc.passes hfree (Nat.lt_succ_self x) (Nat.lt_succ_self x')
  refine O.meet hs hs' fun m hm => ?_
  rw [← hc.ip] at hi₁
  rw [← hc.ip'] at hi₂
  by_cases hlate : absentEnd (inner m) e a 0 c.pos = .error .late
  · exact .inl (step_late hi₁ hlate)
  right
  have hstays : Stays (fun k => absentEnd (inner k) e' a' 0 c.pos)
      (Mirrors (fun _ _ => True) (absentEnd (inner m) e a 0 c.pos)) :=
    absentEnd_follows (R := fun _ _ => True) hpair.subject trivial
      (fun stop => keeps_bodies (hpair.upTo stop) (by omega) (hbody stop) hend hend') hlate
  obtain ⟨K, v, hv, hK⟩ := hstays
  have hstep {f : Setting} {d : Core} {b : Addr} {k : Nat} {found : Except Halt (Option Nat)}
      (hi : f.program.code[d.ip]? = some (.absent b)) (h : absentEnd (inner k) f b 0 d.pos = found) :
      d.step k f = outcome f (d.takeAbsent found) := by
    simp only [Core.step, hi, Core.act, h, outcome]
    cases d.takeAbsent found with
    | error y => rfl
    | ok u => cases u <;> rfl
  refine ⟨outcome e' (c'.takeAbsent v), ⟨K, fun k hk => hstep hi₂ ?_⟩, ?_⟩
  · rw [hc.level.pos]
    exact hK k hk
  rw [hstep hi₁ rfl]
  cases hfound : absentEnd (inner m) e a 0 c.pos with
  | error k =>
    rw [hfound] at hv
    obtain ⟨k', rfl, hlike⟩ := hv
    exact O.ending (Ending.akin_at.mpr hlike)
  | ok found =>
    rw [hfound] at hv
    obtain rfl : v = .ok found := hv
    cases found with
    | none => exact hc.failing (Nat.le_of_lt hm)
    | some stop =>
      have := hwait.tries (q := stop) (decide (c.pos < stop)) hc (Nat.le_of_lt hm) rfl rfl
        (fun _ => (fallback_absent hpair hwait hc c.pos stop).mono (Nat.le_of_lt hm)) hc.level rfl rfl
      simpa only [Core.takeAbsent, outcome, decide_eq_true_eq, hc.level.pos, hc.ip, hc.ip'] using this

theorem Siblings.absent (T : Siblings p p' B B' hi hi') (h : Accords p p' N hi hi' body body') :
    Accords p p' N hi hi' (B.AbsentAt body) (B'.AbsentAt body') := by
  have hascends {B : Built} {body : Part} (hbody : Ascends body) : Ascends (B.AbsentAt body) := by
    rintro later z x y ⟨w, -, -, hinside, -, rfl⟩
    have hle : x + 2 ≤ w := hbody hinside
    exact Nat.le_succ_of_le (Nat.le_of_succ_le (Nat.le_of_succ_le hle))
  refine ⟨hascends h.ascends, hascends h.ascends', ?_⟩
  rintro e e' O rfl rfl hpair later later' z z' x x' y y' ⟨w, habsent, hjump, hinside, hend, rfl⟩
    ⟨w', habsent', hjump', hinside', hend', rfl⟩
  rw [T.code] at habsent hjump hend
  rw [T.code'] at habsent' hjump' hend'
  have hle : x + 1 ≤ w := Nat.le_of_succ_le (h.ascends hinside)
  have hle' : x' + 1 ≤ w' := Nat.le_of_succ_le (h.ascends' hinside')
  exact Concur.andThen
    (.absent hpair habsent habsent' (fun stop => h.concur (endings (e.upTo stop 0) (e'.upTo stop 0)) rfl
      rfl (hpair.upTo stop) hinside hinside') hend hend')
    (.jump hjump hjump' (Nat.lt_succ_of_le hle) (Nat.lt_succ_of_le hle')) (Nat.le_succ x)
    (Nat.le_succ_of_le hle) (Nat.le_succ x') (Nat.le_succ_of_le hle')

end RegexMachine.Machine
