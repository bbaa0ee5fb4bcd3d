import RegexMachine.Proofs.SafeCode

/-!
Regions, groups and calls: pieces of code that end by looking for the frame they began with.
-/
namespace RegexMachine.Machine

variable {Goal : Setting → View → Prop} {N n : Nat} {u v : Scope} {L L' : Nat → Prop} {e : Setting}
  {B : Built} {φ : Promise} {z : Zone} {x y w : Addr} {f g : Extent} {c d : View}

/-! ## Frames that backtracking passes over -/

/-- Frames without choices are undone one after another. -/
theorem brings_backtrack_undoAll {Q : View → Prop} {F K : List Frame}
    (hF : ∀ f ∈ F, f.isChoice = false) (hf : c.frames = F ++ K)
    (h : Brings (backtrack e) { c with frames := K, regs := c.regs.undoAll e.program F } Q) :
    Brings (backtrack e) c Q := by
  induction F generalizing c with
  | nil =>
    obtain ⟨ip, pos, start, frames, regs⟩ := c
    cases hf
    exact h
  | cons f F ih =>
    exact brings_backtrack_undo hf (hF f (by simp)) (ih (fun g hg => hF g (by simp [hg])) rfl h)

/-- Void frames on the u make no difference. -/
theorem brings_backtrack_settled {Q : View → Prop} {K K' : List Frame} (hK : Settled K K')
    (hf : c.frames = K') (h : Brings (backtrack e) { c with frames := K } Q) :
    Brings (backtrack e) c Q := by
  obtain ⟨vs, hv, rfl⟩ := hK
  induction vs with
  | nil =>
    obtain ⟨ip, pos, start, frames, regs⟩ := c
    cases hf
    exact h
  | cons v vs ih =>
    cases hv v (by simp)
    refine ih (fun f hf => hv f (by simp [hf])) fun s hs => ?_
    let t : State := { s with stack := ⟨.void :: (vs ++ K'), (vs ++ K').length + 1, rfl⟩ }
    have ht : t.view = { c with frames := .void :: (vs ++ K') } := by
      rw [show t.view = { s.view with frames := .void :: (vs ++ K') } from rfl, hs]
    refine Guarantees.of_eq (y := backtrack e) (u := t) ?_ (h t ht)
    have hframes : s.stack.frames = vs ++ K' := congrArg View.frames hs
    rw [backtrack_frames e s hframes, backtrack_frames e t rfl]
    rfl

/-- A region that has been closed for good leaves what code may leave. -/
theorem Leaves.region {F K M : List Frame} (hK : c.frames = K)
    (hF : Tidy z.checks F) (hM : Settled (F.map Frame.committed ++ .void :: K) M)
    (hstart : d.start = c.start) (hd : d.frames = M)
    (hr : c.regs.Onward z.loops u.loops u.entered d.regs)
    (hundo : ∀ r, d.regs.Keeps u.loose r → c.regs.Keeps L (r.undoAll e.program F))
    (hg : Grounded Goal L n e c) :
    Leaves e.program z u L c d ∧ Grounded Goal u.loose n e d := by
  subst hK
  obtain ⟨G, K', rfl, hK', hG, hchoice, hsame⟩ := Settled.region hF hM
  refine ⟨⟨hstart, hr, G, K', hd, hK', hG, fun r hk => by rw [hsame]; exact hundo r hk⟩, ?_⟩
  intro d' hs' hf' hr'
  refine brings_backtrack_undoAll (fun f hf => ?_) (hf'.trans hd) ?_
  · rcases hchoice f hf with rfl | ⟨f', -, rfl⟩
    · rfl
    · exact Frame.isChoice_committed f'
  · refine brings_backtrack_settled hK' rfl ?_
    refine hg { d' with frames := c.frames, regs := d'.regs.undoAll e.program G }
      (hs'.trans hstart) rfl ?_
    change c.regs.Keeps L (d'.regs.undoAll e.program G)
    rw [hsame]
    exact hundo _ hr'

/-! ## Atomic groups and look arounds -/

theorem sure_atomic {body : Part} {later : Nat → Prop} (hB : B.code = e.program.code) (hz : z.Ok)
    (hbody : Solid Goal N e u L body f) (h : B.AtomicAt body φ later z x y) :
    Sure Goal N e u L φ z x y f := by
  obtain ⟨mark, w, hstart, hcode, hend, rfl⟩ := h
  rw [hB] at hstart hend
  intro n hn c hc hg hthen
  refine going_atomicStart (hc.ip ▸ hstart) fun m hm => ?_
  let c' : View := { c with ip := c.ip + 1, frames := .atomic mark :: c.frames }
  have hc' : Entered e none z (x + 1) c' := ⟨by rw [← hc.ip], hc.fits, by simp⟩
  have hgm := hg.mono (Nat.le_of_lt hm)
  have hg' : Grounded Goal L m e c' := hgm.undo rfl rfl rfl fun r hr => hr
  refine hbody none later z (x + 1) w hz hcode m (by omega) c' hc' hg' fun k hk d hip hf hl hgd => ?_
  obtain ⟨hs, hr, F, K, hframes, hK, hF, hundo⟩ := hl
  obtain rfl := hK.eq_of_ne (by simp)
  refine going_atomicEnd (hip ▸ hend) hframes hF fun j hj => ?_
  let after : View := { d with ip := d.ip + 1, frames := sealed F c.frames }
  obtain ⟨hld, hgd⟩ : Leaves e.program z u L c after ∧ Grounded Goal u.loose j e after :=
    Leaves.region rfl hF (sealed_settled F c.frames) hs rfl hr hundo (hg.mono (by omega))
  exact hthen j (by omega) after (by rw [← hip]) hf hld hgd

/-- A step back resumes further and further back. -/
theorem grounded_stepBack {a : Addr} (hg : Grounded Goal u.loose n e c)
    (h : ∀ d : View, d.ip = a → d.start = c.start → c.regs.Keeps u.loose d.regs →
      Leaves e.program z u u.loose c d → Grounded Goal u.loose n e d → Going Goal n e d)
    (pos : Nat) :
    ∀ d : View, d.start = c.start → c.regs.Keeps u.loose d.regs →
      (d.frames = c.frames ∨ ∃ more, d.frames = .stepBack a pos more :: c.frames) →
      Leaves e.program z u u.loose c d ∧ Grounded Goal u.loose n e d := by
  induction pos using Nat.strongRecOn with
  | ind pos ih =>
    intro d hs hr hf
    rcases hf with hf | ⟨more, hf⟩
    · exact ⟨.of_frames z u.admits_loose hs hf hr, hg.keeps hs hf hr⟩
    · refine ⟨Leaves.under_choice (.of_frames z u.admits_loose rfl rfl (.refl _)) u.admits_loose hs rfl
        hf hr, ?_⟩
      intro d' hs' hf' hr'
      have hs'' := hs'.trans hs
      have hr'' := hr.trans hr'
      refine brings_backtrack_stepBack (hf'.trans hf) (hg _ hs'' rfl hr'') fun p M hp hM => ?_
      have hlt := Subject.prev?_lt hp
      obtain ⟨hl, hgd⟩ := ih p hlt { d' with ip := a, pos := p, frames := M } hs'' hr'' hM
      exact h _ rfl hs'' hr'' hl hgd

/-- The body of a look around ends above the frame it began with. -/
theorem Entered.lookBody {k : Look} {info : Info} {body : Part} {mark : Nat} {later : Nat → Prop}
    (hB : B.code = e.program.code) (hz : z.Ok) (hL : u.Admits L) (hbody : Solid Goal N e u L body f)
    (h : B.LookBodyAt k info body mark φ later z x y) (hn : n ≤ N) (hip : c.ip = x)
    (hfits : c.regs.Fits e.program) (hg : Grounded Goal L n e c)
    (hthen : ∀ m ≤ n, ∀ d : View, d.ip = y →
      Leaves e.program z u L { c with frames := .look mark c.pos :: c.frames } d →
      Grounded Goal u.loose m e d → Going Goal m e d) : Going Goal n e c := by
  obtain ⟨hstart, hrest⟩ := h
  rw [hB] at hstart
  refine going_lookStart (hip ▸ hstart) fun m hm => ?_
  let c' : View := { c with ip := c.ip + 1, frames := .look mark c.pos :: c.frames }
  have hg' : Grounded Goal L m e c' := (hg.mono (Nat.le_of_lt hm)).undo rfl rfl rfl fun r hr => hr
  -- what comes before the body is loose after that
  let v : Scope := u.loosening L hL.entered
  have hv : v.Inside u := u.loosening_inside L hL.entered
  have hbegin : Leaves e.program z v L { c with frames := .look mark c.pos :: c.frames } c' :=
    .of_frames z v.admits_loose rfl rfl (.refl _)
  split at hrest
  · obtain ⟨w, hstep, hcode, hcheck, rfl⟩ := hrest
    rw [hB] at hstep hcheck
    -- the body, from wherever the step back has led to
    have hinside : ∀ k ≤ m, ∀ d : View, d.ip = x + 2 → Leaves e.program z v L c' d →
        Grounded Goal L k e d → Going Goal k e d := by
      intro k hk d hipd hl hgd
      have hd : Entered e none z (x + 2) d := ⟨hipd, Registers.Fits.onward hfits hl.onward, by simp⟩
      refine hbody none later z (x + 2) w hz hcode k (by omega) d hd hgd
        fun j hj b hipb _ hlb hgb => ?_
      have hlb' : Leaves e.program z u L c' b := hl.andThen hv hlb
      have hlong : Leaves e.program z u L { c with frames := .look mark c.pos :: c.frames } b :=
        hbegin.andThen hv hlb'
      obtain ⟨-, -, F, K, hframes, hK, hF, -⟩ := hlb'
      obtain rfl := hK.eq_of_ne (by simp)
      refine going_checkPos (hipb ▸ hcheck) hframes hF (fun _ i hi => ?_) hgb.failing
      exact hthen i (by omega) _ (by rw [← hipb])
        (hlong.trans (.of_frames z u.admits_loose rfl rfl (.refl _)))
        ((hgb.mono (Nat.le_of_lt hi)).keeps rfl rfl (.refl _))
    have hipc : c'.ip + 1 = x + 2 := by rw [← hip]
    have hstep' : e.program.code[c'.ip]? = some (.stepBack info.minChars info.maxChars) := by
      rw [← hip] at hstep
      exact hstep
    refine going_stepBack hstep' hg'.failing fun k hk p M hM => ?_
    have hgk := hg'.mono (Nat.le_of_lt hk)
    obtain ⟨hl, hgd⟩ := grounded_stepBack (z := z) (u := v) (a := c'.ip + 1) hgk
      (fun d hipd _ _ hl hgd => hinside k (by omega) d (hipd.trans hipc) hl hgd) p
      { c' with ip := c'.ip + 1, pos := p, frames := M } rfl (.refl _) hM
    exact hinside k (by omega) _ hipc hl hgd
  · have hc' : Entered e none z (x + 1) c' := ⟨by rw [← hip], hfits, by simp⟩
    refine hbody none later z (x + 1) y hz hrest m (by omega) c' hc' hg'
      fun k hk d hipd _ hl hgd => ?_
    exact hthen k (by omega) d hipd (hbegin.andThen hv hl) hgd

theorem sure_look {k : Look} {info : Info} {body : Part} {later : Nat → Prop}
    (hB : B.code = e.program.code) (hz : z.Ok) (hL : u.Admits L) (hbody : Solid Goal N e u L body f)
    (h : B.LookAt k info body φ later z x y) : Sure Goal N e u L φ z x y .here := by
  obtain ⟨mark, w, h⟩ := h
  intro n hn c hc hg hthen
  split at h
  · obtain ⟨hfork, hlook, hunwind, hdrop, hfail, rfl⟩ := h
    rw [hB] at hfork hunwind hdrop hfail
    refine going_fork (hc.ip ▸ hfork) fun m hm => ?_
    have hgm := hg.mono (Nat.le_of_lt hm)
    let c' : View := { c with ip := c.ip + 1, frames := .alternative (w + 3) c.pos :: c.frames }
    have hg' : Grounded Goal L m e c' := grounded_alternative (fun d hip hpos hs hf hr =>
      hthen m (Nat.le_of_lt hm) d hip hpos.symm (.of_frames z hL hs hf hr)
        ((hgm.keeps hs hf hr).narrow hL.loose)) _ _
    refine Entered.lookBody (c := c') (n := m) hB hz hL hbody hlook (by omega) (by rw [← hc.ip])
      hc.fits hg' fun j hj d hip hl hgd => ?_
    obtain ⟨hs, -, F, K, hframes, hK, hF, hundo⟩ := hl
    obtain rfl := hK.eq_of_ne (by simp)
    have hw : w + 1 = d.ip + 1 := by rw [hip]
    have hw' : w + 2 = d.ip + 1 + 1 := by rw [hip]
    refine going_unwind (hip ▸ hunwind) hframes hF fun i hi => ?_
    refine going_drop (hw ▸ hdrop) rfl fun i' hi' => ?_
    refine going_fail (hw' ▸ hfail) ?_
    exact (hg.mono (by omega)) _ hs rfl (hundo _ (.refl _))
  · obtain ⟨hlook, hend, rfl⟩ := h
    rw [hB] at hend
    refine Entered.lookBody hB hz hL hbody hlook hn hc.ip hc.fits hg fun j hj d hip hl hgd => ?_
    obtain ⟨hs, hr, F, K, hframes, hK, hF, hundo⟩ := hl
    obtain rfl := hK.eq_of_ne (by simp)
    refine going_lookEnd (hip ▸ hend) hframes hF fun i hi => ?_
    let after : View := { d with ip := d.ip + 1, pos := c.pos, frames := sealed F c.frames }
    obtain ⟨hld, hgd⟩ : Leaves e.program z u L c after ∧ Grounded Goal u.loose i e after :=
      Leaves.region rfl hF (sealed_settled F c.frames) hs rfl hr hundo (hg.mono (by omega))
    exact hthen i (by omega) after (by rw [← hip]) rfl hld hgd

/-! ## The absent operator and conditionals -/

/-- The absent operator resumes at shorter and shorter texts, none of which ends before its start. -/
theorem grounded_absent {a : Addr} {start : Nat} (hg : Grounded Goal u.loose n e c)
    (h : ∀ d : View, d.ip = a → Extent.onward e.subject.size start d.pos →
      Leaves e.program z u u.loose c d → Grounded Goal u.loose n e d → Going Goal n e d) (stop : Nat)
    (hstop : Extent.onward e.subject.size start stop) :
    ∀ d : View, d.start = c.start → c.regs.Keeps u.loose d.regs →
      (d.frames = c.frames ∨ d.frames = .absent a start stop :: c.frames) →
      Leaves e.program z u u.loose c d ∧ Grounded Goal u.loose n e d := by
  induction stop using Nat.strongRecOn with
  | ind stop ih =>
    intro d hs hr hf
    rcases hf with hf | hf
    · exact ⟨.of_frames z u.admits_loose hs hf hr, hg.keeps hs hf hr⟩
    · refine ⟨Leaves.under_choice (.of_frames z u.admits_loose rfl rfl (.refl _)) u.admits_loose hs rfl hf hr, ?_⟩
      intro d' hs' hf' hr'
      have hs'' := hs'.trans hs
      have hr'' := hr.trans hr'
      refine brings_backtrack_absent (hf'.trans hf) (hg _ hs'' rfl hr'') fun p L hlt hle hL => ?_
      have hp : Extent.onward e.subject.size start p :=
        ⟨hle, Nat.le_trans (Nat.le_of_lt hlt) hstop.2⟩
      obtain ⟨hl, hgd⟩ := ih p hlt hp { d' with ip := a, pos := p, frames := L } hs'' hr'' hL
      exact h _ rfl hp hl hgd

/-- The body of an absent operator is run by itself, on any part of any subject. -/
theorem sure_absent {body : Part} {later : Nat → Prop} {inner : Setting → Extent}
    (hB : B.code = e.program.code) (hz : z.Ok)
    (hbody : ∀ e' : Setting, e'.program = e.program → Solid Goal N e' u u.loose body (inner e'))
    (h : B.AbsentAt body φ later z x y) :
    Sure Goal N e u u.loose φ z x y (.onward e.subject.size) := by
  obtain ⟨w, habsent, hjump, hcode, hend, rfl⟩ := h
  rw [hB] at habsent hjump hend
  intro n hn c hc hg hthen
  have hip : c.ip + 1 = x + 1 := by rw [hc.ip]
  refine going_absent (b := x + 2) (by rw [hc.ip]; exact habsent) (fun m hm e' pos s he => ?_)
    (fun m hm q L hle hL => ?_) hg.failing
  · let c' : View := (s.enter e' (x + 2) pos).view
    have hc' : Entered e' none z (x + 2) c' := ⟨rfl, Registers.fits_clear e'.program, by simp⟩
    refine hbody e' he none later z (x + 2) w hz hcode m (by omega) c' hc' (grounded_nil rfl)
      (fun k _ d hipd _ _ _ => ?_) _ rfl
    exact going_absentEnd (hipd ▸ he ▸ hend)
  · have hgm := hg.mono (Nat.le_of_lt hm)
    have hthere : ∀ d : View, d.ip = c.ip + 1 → Extent.onward e.subject.size c.pos d.pos →
        Leaves e.program z u u.loose c d → Grounded Goal u.loose m e d → Going Goal m e d := by
      intro d hipd hle hl hgd
      refine going_jump (by rw [hipd, hip]; exact hjump) fun k hk => ?_
      exact hthen k (by omega) _ rfl hle (hl.trans (.of_frames z u.admits_loose rfl rfl (.refl _)))
        ((hgd.mono (Nat.le_of_lt hk)).keeps rfl rfl (.refl _))
    obtain ⟨hl, hgd⟩ := grounded_absent (z := z) (u := u) hgm hthere q hle
      { c with ip := c.ip + 1, pos := q, frames := L } rfl (.refl _) hL
    exact hthere _ rfl hle hl hgd

theorem sure_conditional {groups : List Nat} {yes no : Part} {later : Nat → Prop}
    (hB : B.code = e.program.code) (hz : z.Ok) (hyes : Solid Goal N e u u.loose yes f)
    (hno : Solid Goal N e u u.loose no g) (h : B.ConditionalAt groups yes no φ later z x y) :
    Sure Goal N e u u.loose φ z x y (f.orElse g) := by
  obtain ⟨w, hif, hyescode, hjump, hnocode⟩ := h
  rw [hB] at hif hjump
  intro n hn c hc hg hthen
  have hmove : ∀ m < n, ∀ a, Entered e none z a { c with ip := a } ∧
      Grounded Goal u.loose m e { c with ip := a } ∧ Leaves e.program z u u.loose c { c with ip := a } :=
    fun m hm a => ⟨⟨rfl, hc.fits, by simp⟩, (hg.mono (Nat.le_of_lt hm)).keeps rfl rfl (.refl _),
      .of_frames z u.admits_loose rfl rfl (.refl _)⟩
  have hip : c.ip + 1 = x + 1 := by rw [hc.ip]
  refine going_ifSet (hc.ip ▸ hif) (fun m hm => ?_) fun m hm => ?_
  · obtain ⟨hc', hg', hl'⟩ := hmove m hm (c.ip + 1)
    refine hyes none later z (x + 1) w hz hyescode m (by omega) _ (hip ▸ hc') hg'
      fun k hk d hipd hf hl hgd => ?_
    refine going_jump (hipd ▸ hjump) fun j hj => ?_
    exact hthen j (by omega) _ rfl (Or.inl hf)
      ((hl'.trans hl).trans (.of_frames z u.admits_loose rfl rfl (.refl _)))
      ((hgd.mono (Nat.le_of_lt hj)).keeps rfl rfl (.refl _))
  · obtain ⟨hc', hg', hl'⟩ := hmove m hm (w + 1)
    exact hno none later z (w + 1) y hz hnocode m (by omega) _ hc' hg' fun k hk d hipd hf hl hgd =>
      hthen k (by omega) d hipd (Or.inr hf) (hl'.trans hl) hgd

/-! ## Groups -/

section
variable {k : Nat} {slot : Slot}

/-- A view in which the slot of a group has been changed, with a record of what it was where one is
wanted; what is recorded gives the slot back. -/
theorem leaves_slot (undo : Bool) (ip : Addr) (slot' : Slot) (captures : Captures)
    (hL : ∀ g, u.loose g → L g) (hs : c.regs.captures.slot? k = some slot)
    (hentered : slot'.start = slot.start ∨ u.entered k)
    (hloose : undo = false → slot'.start = slot.start ∨ L k)
    (hsize : captures.slots.size = c.regs.captures.slots.size)
    (hslot : ∀ j, captures.slot? j = if j = k then some slot' else c.regs.captures.slot? j)
    (hg : Grounded Goal L n e c) :
    let d : View := { c with
      ip := ip
      frames := savedSlot undo k slot c.regs.captures.history c.frames
      regs := { c.regs with captures := captures } }
    Leaves e.program z u L c d ∧ Grounded Goal u.loose n e d := by
  intro d
  have hself : captures.start? k = slot'.start := by simp [Captures.start?, hslot]
  have hold : c.regs.captures.start? k = slot.start := by simp [Captures.start?, hs]
  have hother : ∀ j, j ≠ k → captures.start? j = c.regs.captures.start? j := fun j hj => by
    simp [Captures.start?, hslot, hj]
  have honward : c.regs.Onward z.loops u.loops u.entered d.regs := by
    refine ⟨hsize, rfl, fun _ _ => rfl, rfl, fun j hj => ?_⟩
    by_cases hjk : j = k
    · subst hjk
      exact hself.trans ((hentered.resolve_right hj).trans hold.symm)
    · exact hother j hjk
  cases undo with
  | false =>
    have hkeeps : c.regs.Keeps L d.regs := by
      refine ⟨hsize, rfl, rfl, fun j hj => ?_⟩
      by_cases hjk : j = k
      · subst hjk
        exact hself.trans (((hloose rfl).resolve_right hj).trans hold.symm)
      · exact hother j hjk
    exact ⟨⟨rfl, honward, [], c.frames, rfl, .refl _, .nil _, fun r hr => hkeeps.trans (hr.mono hL)⟩,
      (Grounded.keeps (d := d) hg rfl rfl hkeeps).narrow hL⟩
  | true =>
    have hundo : ∀ r, d.regs.Keeps u.loose r → c.regs.Keeps L (r.undo e.program
        (.capture k slot c.regs.captures.history)) := by
      intro r hr
      have hroom : r.captures.slots.size = c.regs.captures.slots.size := hr.slots.trans hsize
      refine ⟨?_, hr.counts, hr.depth, fun j hj => ?_⟩
      · simpa [Registers.undo, Captures.restore] using hroom
      · have hset : ((r.undo e.program (.capture k slot c.regs.captures.history)).captures).slot? j =
            if j = k ∧ k < r.captures.slots.size then some slot else r.captures.slot? j :=
          Captures.slot?_setSlot r.captures k slot j
        by_cases hjk : j = k
        · subst hjk
          rw [Captures.start?, hset, if_pos ⟨rfl, hroom ▸ Captures.slot?_lt hs⟩, hold]
          rfl
        · rw [Captures.start?, hset, if_neg fun h => hjk h.1]
          exact (hr.start j fun hloose => hj (hL j hloose)).trans (hother j hjk)
    have htop : Leaves e.program z u u.loose d d := .of_frames z u.admits_loose rfl rfl (.refl _)
    exact ⟨htop.under rfl rfl trivial (by simp) honward hundo,
      hg.undo rfl rfl rfl hundo⟩

end

/-- The body of a group is safe between the beginning of the group and its end, which is reached after
the place where it began. -/
theorem sure_grouped {group : Nat} {start : Bool} (stop : Bool) {i : Instr}
    (hz : z.Ok) (hlt : group < e.program.tables.captures + 1)
    (hstart : e.program.code[x]? = some (.groupStart group start))
    (hend : e.program.code[w]? = some i) (hended : i.ended? = some group)
    (hx : ∀ r, exec r e i = closeGroup e group stop) (hf : ∀ p q, f p q → p ≤ q)
    (hapart : ¬ u.loose group) (hentered : u.entered group) (hL : (u.without group hapart).Admits L)
    (hL' : ∀ g, L g → L' g) (hplain : start = false → L' group)
    (hbody : Sure Goal N e (u.without group hapart) L φ z (x + 1) w f) :
    Sure Goal N e u L' φ z x (w + 1) f := by
  intro n hn c hc hg hthen
  obtain ⟨slot, hs⟩ := hc.fits.slot hlt
  refine going_groupStart (hc.ip ▸ hstart) hs fun m hm => ?_
  have hin := u.without_inside hapart
  obtain ⟨hl, hgd⟩ := leaves_slot (z := z) (L := L') (n := m)
    (u := u.loosening L fun g hg => hin.entered g (hL.entered g hg)) start (c.ip + 1)
    { slot with start := some c.pos }
    (c.regs.captures.setSlot group { slot with start := some c.pos }) hL' hs (Or.inr hentered)
    (fun h => Or.inr (hplain h)) (Captures.size_setSlot ..) (fun j => by
      rw [Captures.slot?_setSlot]
      simp [Captures.slot?_lt hs]) (hg.mono (Nat.le_of_lt hm))
  refine hbody m (by omega) _ (hc.after hz hl (by rw [hc.ip])) hgd fun j hj d hip hfd hl' hgd' => ?_
  have hlong : Leaves e.program z u L' c d := hl.andThen (u.loosening_inside L _)
    (hl'.andThen hin (.of_frames z u.admits_loose rfl rfl (.refl _)))
  obtain ⟨slot', hs'⟩ := (hc.fits.onward hlong.onward).slot hlt
  -- nothing inside has entered the group
  have hfrom : slot'.start = some c.pos := by
    have hkept := hl'.onward.start group fun h => h.2 rfl
    simpa [Captures.start?, hs', Captures.slot?_setSlot, Captures.slot?_lt hs] using hkept
  refine going_groupEnd (hip ▸ hend) hended hx hs' hfrom (hf _ _ hfd) fun k hk => ?_
  obtain ⟨hl'', hgd''⟩ := leaves_slot (z := z) (u := u) (L := u.loose) stop (d.ip + 1)
    ⟨some c.pos, some ⟨c.pos, d.pos⟩⟩ (d.regs.captures.closed group ⟨c.pos, d.pos⟩
      (stop && e.program.has .captureHistory)) (fun _ h => h) hs' (Or.inl hfrom.symm)
    (fun _ => Or.inl hfrom.symm) (Captures.size_closed ..) (fun j => by
      rw [Captures.slot?_closed]
      simp [Captures.slot?_lt hs']) (hgd'.mono (Nat.le_of_lt hk))
  exact hthen k (by omega) _ (by rw [← hip]) hfd (hlong.trans hl'') hgd''

/-! ## Calls -/

/-- A subroutine is safe from its entry to its return, wherever the groups that are loose after its
call are others than those that are restored. -/
structure Returns (Goal : Setting → View → Prop) (N : Nat) (e : Setting) (restored : Nat → Prop)
    (r : Subroutine) (f : Extent) : Prop where
  fits : r.Fits e.program.tables
  sure : ∃ y, e.program.code[y]? = some .ret ∧ ∀ u : Scope, u.loops = r.loops.stop →
    (∀ g, restored g → ¬ u.loose g) → (∀ g ∈ r.captures.toList, u.entered g) →
    Sure Goal N e u u.loose none ⟨none, 0, r.loops.first⟩ r.entry y f

namespace Registers
variable {p : Program} {sub : Nat} {s : Subroutine} {r r' r'' : Registers} {W : Nat → Prop}

/-- Registers after the return of a subroutine that was called with the first and has come to its end
with the second. -/
def returned (r r' : Registers) (p : Program) (sub : Nat) (s : Subroutine) : Registers :=
  let d := r'.setCallState p sub (r.saved s)
  { d with depth := d.depth - 1 }

/-- A subroutine that has returned has kept what was there when it was called. -/
theorem keeps_returned (hs : p.tables.subroutines[sub]? = some s) (hfits : s.Fits p.tables)
    (hr : r.Fits p) (hW : ∀ g, W g → L g ∨ g ∈ s.captures.toList)
    (h : ({ r with depth := r.depth + 1 } : Registers).Onward s.loops.first s.loops.stop W r') :
    r.Keeps L (r.returned r' p sub s) := by
  have hr' : r'.Fits p := ⟨h.slots.trans hr.slots, h.size.trans hr.counts⟩
  have hput := putBack_saved hs hfits hr hr'
  refine ⟨hput.slots.trans h.slots, ?_, ?_, fun g hg => ?_⟩
  · apply Array.ext_getElem?
    intro id
    refine (hput.counts id).trans ?_
    split
    · rfl
    · exact h.counts id (by omega)
  · change (r'.setCallState p sub (r.saved s)).depth - 1 = r.depth
    rw [hput.depth, h.depth]
    exact Nat.add_sub_cancel ..
  · refine (hput.start g).trans ?_
    split
    · rfl
    · exact h.start g fun hentered => (hW g hentered).elim hg ‹_›

/-- Undoing a return brings back what the subroutine had come to. -/
theorem keeps_unreturned (hs : p.tables.subroutines[sub]? = some s) (hfits : s.Fits p.tables)
    (hr : r.Fits p) (hr' : r'.Fits p) (hdepth : r'.depth ≠ 0)
    (h : (r.returned r' p sub s).Keeps L r'') :
    r'.Keeps L (r''.undo p (.returned sub (r'.saved s))) := by
  have hput := putBack_saved hs hfits hr hr'
  have hret : (r.returned r' p sub s).Fits p :=
    ⟨hput.slots.trans hr'.slots, hput.size.trans hr'.counts⟩
  have hback := putBack_saved hs hfits hr' (hret.keeps h)
  refine ⟨hback.slots.trans (h.slots.trans hput.slots), ?_, ?_, fun g hg => ?_⟩
  · apply Array.ext_getElem?
    intro id
    refine (hback.counts id).trans ?_
    split
    · rfl
    · rename_i hout
      rw [h.counts]
      exact (hput.counts id).trans (if_neg hout)
  · have hdepth' : r''.depth = r'.depth - 1 := h.depth.trans (congrArg (· - 1) hput.depth)
    change r''.depth + 1 = r'.depth
    omega
  · refine (hback.start g).trans ?_
    split
    · rfl
    · rename_i hout
      exact (h.start g hg).trans ((hput.start g).trans (if_neg hout))

end Registers

/-- A call is safe for a step more than its subroutine. When it has returned, groups and counts are
what they were. -/
theorem sure_call {sub : Nat} {r : Subroutine} {restored : Nat → Prop}
    (hr : e.program.tables.subroutines[sub]? = some r)
    (hi : e.program.code[x]? = some (.call r.entry sub)) (hloose : ∀ g, restored g → ¬ u.loose g)
    (hsub : ∀ m < N, Returns Goal m e restored r f) :
    Sure Goal N e u u.loose φ z x (x + 1) f := by
  intro n hn c hc hg hthen
  cases n with
  | zero => exact fun _ _ => trivial
  | succ n =>
  obtain ⟨hfits, y, hret, hbody⟩ := hsub n (by omega)
  refine going_call (hc.ip ▸ hi) hr hfits hc.fits fun m hm => ?_
  let inner : View := { c with
    ip := r.entry
    frames := .call (c.ip + 1) sub (c.regs.saved r) :: c.frames
    regs := { c.regs with depth := c.regs.depth + 1 } }
  let v : Scope := ⟨r.loops.stop, u.loose, fun g => u.loose g ∨ g ∈ r.captures.toList, fun _ => Or.inl⟩
  have hifits : inner.regs.Fits e.program := ⟨hc.fits.slots, hc.fits.counts⟩
  have hinner : Entered e none ⟨none, 0, r.loops.first⟩ r.entry inner := ⟨rfl, hifits, by simp⟩
  have hclose : ∀ s : Registers, inner.regs.Keeps u.loose s →
      c.regs.Keeps u.loose (s.undo e.program (.call (c.ip + 1) sub (c.regs.saved r))) := fun s hs =>
    ⟨hs.slots, hs.counts, by
      change s.depth - 1 = c.regs.depth
      rw [hs.depth]
      exact Nat.add_sub_cancel .., hs.start⟩
  have hginner : Grounded Goal v.loose m e inner := (hg.mono (by omega)).undo rfl rfl rfl hclose
  refine hbody v rfl hloose (fun _ => Or.inr) m (by omega) inner hinner hginner
    fun k hk d hip hf hl hgd => ?_
  obtain ⟨hs, hon, F, K, hframes, hK, hF, hundo⟩ := hl
  obtain rfl := hK.eq_of_ne (by simp)
  have hdfits : d.regs.Fits e.program := hifits.onward hon
  have hdepth : d.regs.depth = c.regs.depth + 1 := hon.depth
  have hput := Registers.putBack_saved hr hfits hc.fits hdfits
  have hunreturn : ∀ s : Registers, (c.regs.returned d.regs e.program sub r).Keeps u.loose s →
      d.regs.Keeps u.loose (s.undo e.program (.returned sub (d.regs.saved r))) := fun s h =>
    Registers.keeps_unreturned hr hfits hc.fits hdfits (by omega) h
  refine going_ret (hip ▸ hret) hframes hF hr hfits hdfits (by rw [hput.depth]; omega) fun j hj => ?_
  let after : View := { d with
    ip := c.ip + 1
    frames := .returned sub (d.regs.saved r) :: d.frames
    regs := c.regs.returned d.regs e.program sub r }
  have hkeeps : c.regs.Keeps u.loose after.regs :=
    Registers.keeps_returned hr hfits hc.fits (fun _ h => h) hon
  have hleaves : Leaves e.program z u u.loose c after := by
    refine ⟨hs, hkeeps.onward _ _ u.covers,
      .returned sub (d.regs.saved r) :: (F ++ [.call (c.ip + 1) sub (c.regs.saved r)]),
      c.frames, by simp [after, hframes], .refl _,
      .call sub _ _ sub _ hF (.nil _), fun s h => ?_⟩
    rw [Registers.undoAll_cons, Registers.undoAll_append]
    exact hclose _ (hundo _ (hunreturn s h))
  exact hthen j (by omega) after (by simp only [after]; rw [hc.ip]) hf hleaves
    ((hgd.mono (Nat.le_of_lt hj)).undo rfl rfl rfl hunreturn)

end RegexMachine.Machine
