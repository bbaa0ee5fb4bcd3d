import RegexMachine.Proofs.Concord
import RegexMachine.Proofs.SafeSteps

/-!
Instructions in concord, and the frames that instructions look for. Two runs execute the same
instruction at different places of the code.
-/
namespace RegexMachine.Machine

variable {e e' : Setting} {O : Observer e e'} {N n m hi hi' : Nat} {z z' ζ ζ' : Zone}
  {x x' y y' w w' a a' : Nat} {c c' d d' : Core}

/-! ## Finding frames -/

/-- A marker below completed code is found. -/
theorem locate_tidy {q : Frame → Bool} {lo : Nat} {F : List Frame} {f : Frame} (hF : Tidy lo F)
    (hq : ∀ f : Frame, f.Plain lo → q f = false) (hcall : FrameStack.isCallFrame f = false)
    (hf : q f = true) (K : List Frame) : locate q 0 (F ++ f :: K) = some (F, f, K) := by
  let s : FrameStack := ⟨F ++ f :: K, (F ++ f :: K).length, rfl⟩
  obtain ⟨v, hv, habove, hframe, hbelow⟩ := s.view?_of_tidy q hF hq rfl hcall hf
  rw [← view?_locate q s, hv, Option.map_some, habove, hframe, hbelow, List.reverse_reverse]

theorem atMarker_tidy (what : Missing) {q : Frame → Bool} {lo : Nat} {F K : List Frame} {f : Frame}
    (turn : List Frame → Frame → List Frame → Point) (hc : c.frames = F ++ f :: K) (hF : Tidy lo F)
    (hq : ∀ f : Frame, f.Plain lo → q f = false) (hcall : FrameStack.isCallFrame f = false)
    (hf : q f = true) : c.atMarker what q turn = .ok (turn F f K) := by
  have hfound : locate q 0 c.frames = some (F, f, K) := by
    rw [hc]
    exact locate_tidy hF hq hcall hf K
  simp only [Core.atMarker, hfound]

/-- Frames of completed code are undone on the way to the start of a look around. -/
theorem unwound_tidy (p : Program) (mark : Nat) {lo : Nat} {F : List Frame} (hF : Tidy lo F)
    (level : Nat) (K : List Frame) (r : Registers) :
    unwound p mark level (F ++ K) r = unwound p mark level K (r.undoAll p F) := by
  induction hF generalizing level r K with
  | nil => rfl
  | @frame lo f F hf hF ih =>
    have step : unwound p mark level (f :: (F ++ K)) r =
        unwound p mark level (F ++ K) (r.undo p f) := by
      cases f with
      | look _ _ => cases hf
      | atomic _ => cases hf
      | call _ _ _ => cases hf
      | returned _ _ => cases hf
      | _ => cases level <;> rfl
    rw [List.cons_append, step, ih, Registers.undoAll_cons]
  | @call lo G F sub undo back sub' saved hG hF ihG ihF =>
    have into (L : List Frame) : unwound p mark level (.returned sub undo :: L) r =
        unwound p mark (level + 1) L (r.undo p (.returned sub undo)) := by
      cases level <;> rfl
    have out (L : List Frame) (r : Registers) :
        unwound p mark (level + 1) (.call back sub' saved :: L) r =
          unwound p mark level L (r.undo p (.call back sub' saved)) := rfl
    rw [List.cons_append, into, List.append_assoc, List.cons_append, ihG, out, ihF,
      Registers.undoAll_cons, Registers.undoAll_append, Registers.undoAll_cons]

/-! ## Single instructions -/

/-- The next instruction at some place, or backtracking. -/
def Core.advance (c : Core) : Option Nat → Point
  | some q => .going { c with ip := c.ip + 1, pos := q }
  | none => .failing c

theorem Core.consume_advance (c : Core) (width : Option Nat) :
    c.consume width = c.advance (width.map (c.pos + ·)) := by
  cases width <;> rfl

theorem Core.check_advance (c : Core) (ok : Bool) :
    c.check ok = c.advance (if ok then some c.pos else none) := by
  cases ok <;> rfl

theorem Core.matchCopy_advance (e : Setting) (groups : List Nat) (fold : Bool) (c : Core) :
    c.matchCopy e groups fold = c.advance
      (((copyLength? e.subject c.regs.captures c.pos fold groups).map (c.pos + ·)).or
        (if e.program.has .unsetMatchesEmpty && !groups.any c.regs.captures.isSet then some c.pos
          else none)) := by
  unfold Core.matchCopy
  cases copyLength? e.subject c.regs.captures c.pos fold groups with
  | some k => rfl
  | none => exact c.check_advance _

namespace Concur

/-- An instruction that only goes on elsewhere or fails, by what both runs have in common. -/
theorem advance {i : Instr} (hi₁ : e.program.code[x]? = some i) (hi₂ : e'.program.code[x']? = some i)
    (hact : ∀ c c' : Core, Level c c' → ∃ r, (∀ spans, c.act e spans i = .ok (c.advance r)) ∧
      ∀ spans, c'.act e' spans i = .ok (c'.advance r)) :
    Concur O N hi hi' z z' x x' (x + 1) (x' + 1) := by
  intro n _ c c' hfree hc hwait
  obtain ⟨r, hleft, hright⟩ := hact c c' hc.level
  refine hc.step hfree (Nat.lt_succ_self x) (Nat.lt_succ_self x') hi₁ hi₂ hleft hright fun m hm => ?_
  cases r with
  | none => exact hc.failing (Nat.le_of_lt hm)
  | some q =>
    exact hwait.goes hc (Nat.le_of_lt hm) (congrArg (· + 1) hc.ip) (congrArg (· + 1) hc.ip') rfl rfl
      rfl rfl rfl

/-- A text of some length, which depends on the place of the subject. -/
theorem text {i : Instr} (width : Nat → Option Nat)
    (hi₁ : e.program.code[x]? = some i) (hi₂ : e'.program.code[x']? = some i)
    (hact : ∀ (c : Core) spans, c.act e spans i = .ok (c.consume (width c.pos)))
    (hact' : ∀ (c : Core) spans, c.act e' spans i = .ok (c.consume (width c.pos))) :
    Concur O N hi hi' z z' x x' (x + 1) (x' + 1) := by
  refine .advance hi₁ hi₂ fun c c' h => ⟨(width c.pos).map (c.pos + ·), fun spans => ?_,
    fun spans => ?_⟩
  · rw [hact, Core.consume_advance]
  · rw [hact', Core.consume_advance, h.pos]

theorem anchor (hpair : Partners e e') {a : Anchor}
    (hi₁ : e.program.code[x]? = some (.anchor a)) (hi₂ : e'.program.code[x']? = some (.anchor a)) :
    Concur O N hi hi' z z' x x' (x + 1) (x' + 1) := by
  refine .advance hi₁ hi₂ fun c c' h =>
    ⟨_, fun _ => congrArg Except.ok (c.check_advance _), fun _ => ?_⟩
  rw [Core.act, hpair.subject, hpair.origin, h.pos, Core.check_advance, h.pos]

theorem backref (hpair : Partners e e') {groups : List Nat} {fold : Bool}
    (hi₁ : e.program.code[x]? = some (.backref groups fold))
    (hi₂ : e'.program.code[x']? = some (.backref groups fold)) :
    Concur O N hi hi' z z' x x' (x + 1) (x' + 1) := by
  refine .advance hi₁ hi₂ fun c c' h =>
    ⟨_, fun _ => congrArg Except.ok (c.matchCopy_advance e groups fold), fun _ => ?_⟩
  rw [Core.act, Core.matchCopy_advance, hpair.subject, hpair.unset, h.pos, h.captures]

theorem jump (hi₁ : e.program.code[x]? = some (.jump y)) (hi₂ : e'.program.code[x']? = some (.jump y'))
    (hlt : x < y) (hlt' : x' < y') : Concur O N hi hi' z z' x x' y y' := by
  intro n _ c c' hfree hc hwait
  refine hc.step hfree hlt hlt' hi₁ hi₂ (fun _ => rfl) (fun _ => rfl) fun m hm => ?_
  exact hwait.goes hc (Nat.le_of_lt hm) rfl rfl hc.level.pos rfl rfl rfl rfl

end Concur

/-! ## Choices -/

theorem Gone.leave {q : Nat} (hf : d.frames = .alternative a q :: c.frames)
    (hf' : d'.frames = .alternative a' q :: c'.frames) (hk : d.regs.ledger = c.regs.ledger)
    (hk' : d'.regs.ledger = c'.regs.ledger) : Gone e e' hi hi' z z' c c' d d' :=
  .push _ _ hf hf' trivial trivial rfl hk hk' (fun _ => rfl) fun _ => rfl

/-- A fork goes on to the next instruction, and can be resumed at its alternative. -/
theorem Abreast.fork (hc : Abreast O n x x' c c') (hfree : O.Clears c.regs.depth x x' y y')
    (hlt : x < y) (hlt' : x' < y') (hi₁ : e.program.code[x]? = some (.fork a))
    (hi₂ : e'.program.code[x']? = some (.fork a')) (halt : ∀ m < n, Revives O m a a' c c')
    (hnext : ∀ m < n,
      let d : Core := { c with ip := x + 1, frames := .alternative a c.pos :: c.frames }
      let d' : Core := { c' with ip := x' + 1, frames := .alternative a' c.pos :: c'.frames }
      Abreast O m (x + 1) (x' + 1) d d' → O.sees m (.ok d) (.ok d')) : O.sees n (.ok c) (.ok c') := by
  refine hc.step hfree hlt hlt' hi₁ hi₂ (fun _ => rfl) (fun _ => rfl) fun m hm => ?_
  have hd := hnext m hm
    ((hc.mono (Nat.le_of_lt hm)).leave (halt m hm) rfl rfl hc.level.pos rfl rfl rfl rfl)
  have hright : (c'.push (.alternative a' c'.pos)).next =
      { c' with ip := x' + 1, frames := .alternative a' c.pos :: c'.frames } := by
    rw [← hc.ip', ← hc.level.pos]
    rfl
  rw [← hc.ip] at hd
  simp only [outcome, hright]
  exact hd

/-- Code that is resumed where it was left as an alternative. -/
theorem Concur.revives (h : Concur O N hi hi' z z' a a' y y') (hn : n ≤ N)
    (hfree : O.Clears c.regs.depth a a' y y') (hwait : Awaits O n hi hi' z z' y y' c c') :
    Revives O n a a' c c' := by
  intro m hm b b' hb hf hf' hk hk'
  rw [← show b.regs.depth = c.regs.depth from congrArg Prod.snd hk] at hfree
  exact h m (Nat.le_trans hm hn) b b' hfree hb (hwait.rest hm (.of_eq hf hk hf' hk'))

/-- Two ways to the same end, the second one left as an alternative. -/
theorem Concur.fork (hi₁ : e.program.code[x]? = some (.fork a))
    (hi₂ : e'.program.code[x']? = some (.fork a'))
    (h : Concur O N hi hi' z z' (x + 1) (x' + 1) y y') (h' : Concur O N hi hi' z z' a a' y y')
    (hx : x < a) (hy : a ≤ y) (hx' : x' < a') (hy' : a' ≤ y') :
    Concur O N hi hi' z z' x x' y y' := by
  intro n hn c c' hfree hc hwait
  have hnext : O.Clears c.regs.depth (x + 1) (x' + 1) y y' :=
    hfree.inside (Nat.le_succ x) (Nat.le_refl y) (Nat.le_succ x') (Nat.le_refl y')
  have halt : O.Clears c.regs.depth a a' y y' :=
    hfree.inside (Nat.le_of_lt hx) (Nat.le_refl y) (Nat.le_of_lt hx') (Nat.le_refl y')
  refine hc.fork hfree (Nat.lt_of_lt_of_le hx hy) (Nat.lt_of_lt_of_le hx' hy') hi₁ hi₂
    (fun m hm => ?_) fun m hm hd => ?_
  · exact h'.revives (by omega) halt (hwait.mono (Nat.le_of_lt hm))
  · exact h m (by omega) _ _ hnext hd (hwait.rest (Nat.le_of_lt hm) (.leave rfl rfl rfl rfl))

/-- Any characters, with alternatives on the way. -/
theorem Abreast.afterAny (hc : Abreast O n x x' c c')
    (hwait : Awaits O n hi hi' z z' y y' c c') (wanted : Nat → Bool) (places : List Nat)
    (hip : d.ip = y) (hip' : d'.ip = y')
    (hd : (d.frames, d.pos) = Machine.afterAny wanted y c.frames places)
    (hd' : (d'.frames, d'.pos) = Machine.afterAny wanted y' c'.frames places)
    (hr : d.regs = c.regs) (hr' : d'.regs = c'.regs) :
    Abreast O n y y' d d' ∧ Gone e e' hi hi' z z' c c' d d' := by
  induction places generalizing x x' c c' with
  | nil =>
    obtain ⟨hf, hp⟩ := Prod.mk.inj hd
    obtain ⟨hf', hp'⟩ := Prod.mk.inj hd'
    exact ⟨hc.goes (Nat.le_refl n) hip hip' (hp'.trans hp.symm) hf hf' hr hr',
      .of_eq hf (by rw [hr]) hf' (by rw [hr'])⟩
  | cons p ps ih =>
    cases ps with
    | nil =>
      obtain ⟨hf, hp⟩ := Prod.mk.inj hd
      obtain ⟨hf', hp'⟩ := Prod.mk.inj hd'
      exact ⟨hc.goes (Nat.le_refl n) hip hip' (hp'.trans hp.symm) hf hf' hr hr',
        .of_eq hf (by rw [hr]) hf' (by rw [hr'])⟩
    | cons q ps =>
      simp only [Machine.afterAny] at hd hd'
      cases hw : wanted p with
      | false =>
        rw [hw] at hd hd'
        exact ih hc hwait hd hd' hr hr'
      | true =>
        rw [hw] at hd hd'
        let b := c.push (.alternative y p)
        let b' := c'.push (.alternative y' p)
        have hb : Abreast O n x x' b b' :=
          hc.leave hwait.revives hc.ip hc.ip' hc.level.pos rfl rfl rfl rfl
        have hg : Gone e e' hi hi' z z' c c' b b' := .leave rfl rfl rfl rfl
        obtain ⟨hb', hg'⟩ := ih hb (hwait.rest (Nat.le_refl n) hg) hd hd' hr hr'
        exact ⟨hb', hg.trans hg'⟩

theorem Concur.takeAny (hpair : Partners e e') {i : Instr} {multiline : Bool}
    {before : Option UInt8} (hi₁ : e.program.code[x]? = some i) (hi₂ : e'.program.code[x']? = some i)
    (hact : ∀ (e : Setting) (c : Core) spans,
      c.act e spans i = .ok (.going (c.takeAny e multiline before))) :
    Concur O N hi hi' z z' x x' (x + 1) (x' + 1) := by
  intro n _ c c' hfree hc hwait
  refine hc.step hfree (Nat.lt_succ_self x) (Nat.lt_succ_self x') hi₁ hi₂ (hact e c) (hact e' c')
    fun m hm => ?_
  have hright : c'.takeAny e' multiline before =
      { c' with
        ip := x' + 1
        frames := (afterAny (fun i => before.all fun b => e.subject.bytes[i]? == some b) (x' + 1)
          c'.frames (anyPlaces e.subject multiline c.pos)).1
        pos := (afterAny (fun i => before.all fun b => e.subject.bytes[i]? == some b) (x' + 1)
          c'.frames (anyPlaces e.subject multiline c.pos)).2 } := by
    rw [Core.takeAny, hpair.subject, hc.ip', hc.level.pos]
  let d := c.takeAny e multiline before
  let d' := c'.takeAny e' multiline before
  obtain ⟨hd, hg⟩ : Abreast O m (x + 1) (x' + 1) d d' ∧ Gone e e' hi hi' z z' c c' d d' :=
    (hc.mono (Nat.le_of_lt hm)).afterAny (hwait.mono (Nat.le_of_lt hm))
      (fun i => before.all fun b => e.subject.bytes[i]? == some b)
      (anyPlaces e.subject multiline c.pos) (congrArg (· + 1) hc.ip) (congrArg (· + 1) hc.ip')
      (by rw [← hc.ip]; rfl) (by rw [show d' = _ from hright]) rfl rfl
  exact hwait.here (Nat.le_of_lt hm) hd hg

/-- Both runs go on the same way, by what groups have been set. -/
theorem Concur.ifSet {groups : List Nat} (hi₁ : e.program.code[x]? = some (.ifSet groups a))
    (hi₂ : e'.program.code[x']? = some (.ifSet groups a'))
    (h : Concur O N hi hi' z z' (x + 1) (x' + 1) y y') (h' : Concur O N hi hi' z z' a a' y y')
    (hx : x < a) (hy : a ≤ y) (hx' : x' < a') (hy' : a' ≤ y') :
    Concur O N hi hi' z z' x x' y y' := by
  intro n hn c c' hfree hc hwait
  refine hc.step hfree (Nat.lt_of_lt_of_le hx hy) (Nat.lt_of_lt_of_le hx' hy') hi₁ hi₂ (fun _ => rfl)
    (fun _ => rfl) fun m hm => ?_
  simp only [outcome, hc.level.captures, hc.ip, hc.ip']
  have hwait' := hwait.mono (Nat.le_of_lt hm)
  have leads {t t' : Nat} (ht : x ≤ t) (ht' : x' ≤ t') (hto : Concur O N hi hi' z z' t t' y y') :
      O.sees m (.ok (c.goTo t)) (.ok (c'.goTo t')) := by
    have hd : Abreast O m t t' (c.goTo t) (c'.goTo t') :=
      hc.goes (Nat.le_of_lt hm) rfl rfl hc.level.pos rfl rfl rfl rfl
    exact hto m (by omega) _ _ (hfree.inside ht (Nat.le_refl y) ht' (Nat.le_refl y')) hd
      (hwait'.rest (Nat.le_refl m) (.of_eq rfl rfl rfl rfl))
  split
  · exact leads (Nat.le_succ x) (Nat.le_succ x') h
  · exact leads (Nat.le_of_lt hx) (Nat.le_of_lt hx') h'

/-! ## Records -/

/-- Both runs come to the end with the same change of what they have in common, and with the same
record of it if one is kept. -/
theorem Awaits.recorded (hwait : Awaits O n hi hi' z z' y y' c c') (hc : Abreast O n x x' c c')
    (hm : m ≤ n) (undo : Bool) {f : Frame} (hchoice : f.isChoice = false)
    (hplain : ∀ lo, f.Plain lo) (hsame : mementos e'.program [f] = mementos e.program [f])
    (hundo : ∀ (p : Program) (r : Registers), (r.undo p f).ledger = r.ledger)
    (hip : d.ip = y) (hip' : d'.ip = y') (hl : Level d d')
    (hf : d.frames = if undo then f :: c.frames else c.frames)
    (hf' : d'.frames = if undo then f :: c'.frames else c'.frames)
    (hk : d.regs.ledger = c.regs.ledger) (hk' : d'.regs.ledger = c'.regs.ledger) :
    O.sees m (.ok d) (.ok d') := by
  cases undo with
  | false =>
    exact hwait.here hm (hc.of_level hm hip hip' hl hf hf' hk hk') (.of_eq hf hk hf' hk')
  | true =>
    have hsize : d.regs.counts.size = c.regs.counts.size := congrArg (·.1.size) hk
    have hsize' : d'.regs.counts.size = c'.regs.counts.size := congrArg (·.1.size) hk'
    have hd : Abreast O m y y' d d' :=
      (hc.mono hm).push f f hip hip' hl hf hf' hchoice hchoice hsame hsize hsize'
        (fun r h => (hundo _ r).trans (h.trans hk)) fun r h => (hundo _ r).trans (h.trans hk')
    exact hwait.here hm hd (.push f f hf hf' (hplain _) (hplain _) hsame hk hk' (hundo _) (hundo _))

namespace Concur

theorem keep (hi₁ : e.program.code[x]? = some .keep) (hi₂ : e'.program.code[x']? = some .keep) :
    Concur O N hi hi' z z' x x' (x + 1) (x' + 1) := by
  intro n _ c c' hfree hc hwait
  refine hc.step hfree (Nat.lt_succ_self x) (Nat.lt_succ_self x') hi₁ hi₂ (fun _ => rfl) (fun _ => rfl)
    fun m hm => ?_
  have hlevel : Level c.keepOut c'.keepOut := by
    refine ⟨hc.level.pos, ?_⟩
    change { c'.regs.uncounted with keep := some c'.pos } =
      { c.regs.uncounted with keep := some c.pos }
    rw [hc.level.regs, hc.level.pos]
  have hframes' : c'.keepOut.frames = .keep c.regs.keep :: c'.frames := by
    rw [← hc.level.keep]
    rfl
  exact hwait.recorded hc (Nat.le_of_lt hm) true (f := .keep c.regs.keep) rfl (fun _ => trivial) rfl
    (fun _ _ => rfl) (congrArg (· + 1) hc.ip) (congrArg (· + 1) hc.ip') hlevel rfl hframes' rfl rfl

/-- Both runs change the slot of a group in the same way, or find the same fault. -/
theorem slot {i i' : Instr} (g : Nat) (undo : Bool)
    {f : Nat → Captures → Slot → Option Captures}
    (hi₁ : e.program.code[x]? = some i) (hi₂ : e'.program.code[x']? = some i')
    (hact : ∀ (c : Core) (s : Slot) r, c.regs.captures.slot? g = some s →
      f c.pos c.regs.captures s = some r →
        let d : Core := { c with
          ip := c.ip + 1
          frames := savedSlot undo g s c.regs.captures.history c.frames
          regs := { c.regs with captures := r } }
        (∀ spans, c.act e spans i = .ok (.going d)) ∧ ∀ spans, c.act e' spans i' = .ok (.going d))
    (hbroken : ∀ c : Core, (c.regs.captures.slot? g).bind (f c.pos c.regs.captures) = none →
      ∃ w w', (∀ spans, c.act e spans i = Core.broken w) ∧
        ∀ spans, c.act e' spans i' = Core.broken w') :
    Concur O N hi hi' z z' x x' (x + 1) (x' + 1) := by
  intro n _ c c' hfree hc hwait
  have hcaptures := hc.level.captures
  have hstep {v v' : Except Ending Point} (h : ∀ spans, c.act e spans i = v)
      (h' : ∀ spans, c'.act e' spans i' = v')
      (hnext : ∀ m < n, O.sees m (outcome e v) (outcome e' v')) : O.sees n (.ok c) (.ok c') :=
    hc.step hfree (Nat.lt_succ_self x) (Nat.lt_succ_self x') hi₁ hi₂ h h' hnext
  cases hr : (c.regs.captures.slot? g).bind (f c.pos c.regs.captures) with
  | none =>
    obtain ⟨w, -, hw, -⟩ := hbroken c hr
    obtain ⟨-, w', -, hw'⟩ := hbroken c' (by rw [hcaptures, hc.level.pos, hr])
    exact hstep hw hw' fun m _ => O.ending ⟨_, rfl, _, rfl, trivial⟩
  | some r =>
    obtain ⟨s, hs, hr⟩ := Option.bind_eq_some_iff.mp hr
    have hleft := (hact c s r hs hr).1
    have hright := (hact c' s r (by rw [hcaptures, hs]) (by rw [hcaptures, hc.level.pos, hr])).2
    refine hstep hleft hright fun m hm => ?_
    refine hwait.recorded hc (Nat.le_of_lt hm) undo (f := .capture g s c.regs.captures.history) rfl
      (fun _ => trivial) rfl (fun _ _ => rfl) (congrArg (· + 1) hc.ip) (congrArg (· + 1) hc.ip')
      ⟨hc.level.pos, ?_⟩ rfl (by rw [hcaptures]; rfl) rfl rfl
    change { c'.regs.uncounted with captures := r } = { c.regs.uncounted with captures := r }
    rw [hc.level.regs]

theorem groupStart {g : Nat} {undo : Bool} (hi₁ : e.program.code[x]? = some (.groupStart g undo))
    (hi₂ : e'.program.code[x']? = some (.groupStart g undo)) :
    Concur O N hi hi' z z' x x' (x + 1) (x' + 1) := by
  refine .slot g undo
    (f := fun pos r s => some (r.setSlot g { s with start := some pos })) hi₁ hi₂
    (fun c s r hs hr => ?_) fun c hnone => ?_
  · obtain rfl := Option.some.inj hr
    have hopen : c.openGroup g undo = .ok (.going { c with
        ip := c.ip + 1
        frames := savedSlot undo g s c.regs.captures.history c.frames
        regs := { c.regs with
          captures := c.regs.captures.setSlot g { s with start := some c.pos } } }) := by
      rw [Core.openGroup, hs]
    exact ⟨fun _ => hopen, fun _ => hopen⟩
  · have hs : c.regs.captures.slot? g = none := by
      cases hs : c.regs.captures.slot? g with
      | none => rfl
      | some s =>
        rw [hs] at hnone
        cases hnone
    have hopen : c.openGroup g undo = Core.broken (.outside c.regs.captures.slots.size g) := by
      rw [Core.openGroup, hs]
    exact ⟨_, _, fun _ => hopen, fun _ => hopen⟩

/-- The end of a group, which two settings with the same features record alike. -/
theorem groupEnd (hpair : Partners e e') {i i' : Instr} {g : Nat} {undo : Bool}
    (hend : i = .groupEnd g undo ∨ i = .groupEndRecursive g ∧ undo = true)
    (hend' : i' = .groupEnd g undo ∨ i' = .groupEndRecursive g ∧ undo = true)
    (hi₁ : e.program.code[x]? = some i) (hi₂ : e'.program.code[x']? = some i') :
    Concur O N hi hi' z z' x x' (x + 1) (x' + 1) := by
  have hact {i : Instr} (hend : i = .groupEnd g undo ∨ i = .groupEndRecursive g ∧ undo = true)
      (e : Setting) (c : Core) (spans : Addr → Nat → Except Halt (Option Nat)) :
      c.act e spans i = c.closeGroup e g undo := by
    rcases hend with rfl | ⟨rfl, rfl⟩ <;> rfl
  refine .slot g undo
    (f := fun pos r s => s.start.map fun start =>
      r.closed g ⟨start, pos⟩ (undo && e.program.has .captureHistory)) hi₁ hi₂
    (fun c s r hs hr => ?_) fun c hnone => ?_
  · obtain ⟨start, hstart, rfl⟩ := Option.map_eq_some_iff.mp hr
    refine ⟨fun _ => ?_, fun _ => ?_⟩
    · simp only [hact hend, Core.closeGroup, hs, hstart]
    · simp only [hact hend', Core.closeGroup, hs, hstart, hpair.history]
  · have hfault : ∃ w, ∀ e : Setting, c.closeGroup e g undo = Core.broken w := by
      cases hs : c.regs.captures.slot? g with
      | none => exact ⟨_, fun e => by rw [Core.closeGroup, hs]⟩
      | some s =>
        cases hstart : s.start with
        | none => exact ⟨.notOpened g c.ip, fun e => by simp only [Core.closeGroup, hs, hstart]⟩
        | some start =>
          rw [hs, Option.bind_some, hstart] at hnone
          cases hnone
    obtain ⟨w, hw⟩ := hfault
    exact ⟨w, w, fun spans => (hact hend e c spans).trans (hw e),
      fun spans => (hact hend' e' c spans).trans (hw e')⟩

/-- The instruction of an atom. -/
theorem atom (hpair : Partners e e') {encoding : Encoding} {a : Atom} {i : Instr}
    (ha : Built.atomInstr? encoding a = some i) (hi₁ : e.program.code[x]? = some i)
    (hi₂ : e'.program.code[x']? = some i) : Concur O N hi hi' z z' x x' (x + 1) (x' + 1) := by
  have text (width : Subject → Nat → Option Nat)
      (h : ∀ (e : Setting) (c : Core) spans, c.act e spans i = .ok (c.consume (width e.subject c.pos))) :
      Concur O N hi hi' z z' x x' (x + 1) (x' + 1) :=
    .text (width e.subject) hi₁ hi₂ (h e) fun c spans => by rw [h e', hpair.subject]
  cases a with
  | empty => cases ha
  | call _ _ => cases ha
  | literal bytes fold =>
    simp only [Built.atomInstr?, Compile.literalCode] at ha
    split at ha
    · cases ha
    · split at ha
      · cases ha
        exact text (fun t p => t.foldedLength? p _) fun _ _ _ => rfl
      · split at ha
        · cases ha
          exact text (fun t p => t.byteLength? p _) fun _ _ _ => rfl
        · cases ha
          exact text (fun t p => t.textLength? p _) fun _ _ _ => rfl
  | charClass ranges negated =>
    cases ha
    exact text (fun t p => t.classLength? p _) fun _ _ _ => rfl
  | charType type negated ascii =>
    cases ha
    exact text (fun t p => t.typeLength? p type negated ascii) fun _ _ _ => rfl
  | anyChar multiline =>
    cases ha
    exact text (fun t p => t.anyLength? p multiline) fun _ _ _ => rfl
  | anchor b =>
    cases ha
    exact .anchor hpair hi₁ hi₂
  | keep =>
    cases ha
    exact .keep hi₁ hi₂
  | backref _ groups fold =>
    cases ha
    exact .backref hpair hi₁ hi₂

end Concur
end RegexMachine.Machine
