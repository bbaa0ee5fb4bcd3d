import RegexMachine.Proofs.ConcordRepeats

/-!
Regions in concord. Both runs find the markers of their regions below the frames of completed code, and
a region that is closed for good leaves what gives the counts back.
-/
namespace RegexMachine.Machine

variable {e e' : Setting} {O : Observer e e'} {N n m hi hi' : Nat} {z z' : Zone}
  {x x' y y' w w' a a' : Nat} {b b' c c' d d' : Core} {p p' : Program} {M : List Memento}
  {B B' : Built} {body body' : Part}

/-! ## Closing a region -/

/-- What is left of a region that was opened by a marker and is closed. -/
structure Closed (p : Program) (z : Zone) (M : List Memento) (f : Frame) (c d : Core)
    (F : List Frame) : Prop where
  frames : d.frames = F ++ f :: c.frames
  tidy : Tidy z.checks F
  rest : ∃ G K, sealed F c.frames = G ++ K ∧ Settled c.frames K ∧ Tidy z.checks G ∧
    (∀ g ∈ G, g.isChoice = false) ∧ mementos p G = M ∧
    ∀ r : Registers, r.ledger = d.regs.ledger → (r.undoAll p G).ledger = c.regs.ledger

theorem Spent.closed {f : Frame} (h : Spent p hi z M b d) (hb : b.frames = f :: c.frames)
    (hne : f ≠ .void) (hk : b.regs.ledger = c.regs.ledger) : ∃ F, Closed p z M f c d F := by
  obtain ⟨F, hd, hF, hM, hundo⟩ := h.above hb hne
  obtain ⟨G, K, hG, hK, htidy, hchoice, hsame, hall⟩ := sealed_parts hF p c.frames
  exact ⟨F, hd, hF, G, K, hG, hK, htidy, hchoice, hsame.trans hM,
    fun r hr => by rw [hall, hundo r hr, hk]⟩

theorem Closed.spent {f : Frame} {F : List Frame} {t : Core} (h : Closed p z M f c d F)
    (hs : Spent p hi z M b d) (hk : b.regs.ledger = c.regs.ledger) (hr : t.regs = d.regs)
    (hf : t.frames = sealed F c.frames) : Spent p hi z M c t := by
  obtain ⟨G, K, hG, hK, htidy, -, hM, hundo⟩ := h.rest
  have hcounts : b.regs.counts = c.regs.counts := congrArg Prod.fst hk
  refine ⟨?_, fun id hid => ?_, ?_, G, K, hf.trans hG, hK, htidy, hM, by rw [hr]; exact hundo⟩
  · rw [hr, hs.size, hcounts]
  · rw [hr, hs.counts id hid, hcounts]
  · rw [hr, hs.depth]
    exact congrArg Prod.snd hk

/-- Both runs close their regions and are at the end, with nothing left to try in those. -/
theorem Awaits.closes {f f' : Frame} {F F' : List Frame} (t t' : Core)
    (hwait : Awaits O n hi hi' z z' y y' c c') (hc : Abreast O n x x' c c') (hm : m ≤ n)
    (hd : Abreast O m w w' d d') (hs : Spent e.program hi z M b d)
    (hs' : Spent e'.program hi' z' M b' d') (hk : b.regs.ledger = c.regs.ledger)
    (hk' : b'.regs.ledger = c'.regs.ledger) (h : Closed e.program z M f c d F)
    (h' : Closed e'.program z' M f' c' d' F') (hip : t.ip = y) (hip' : t'.ip = y')
    (hpos : t'.pos = t.pos) (hr : t.regs = d.regs) (hr' : t'.regs = d'.regs)
    (hf : t.frames = sealed F c.frames) (hf' : t'.frames = sealed F' c'.frames) :
    O.sees m (.ok t) (.ok t') := by
  obtain ⟨G, K, hG, hK, -, hchoice, hM, hundo⟩ := h.rest
  obtain ⟨G', K', hG', hK', -, hchoice', hM', hundo'⟩ := h'.rest
  have ht : Abreast O m y y' t t' := by
    refine ⟨hip, hip', ⟨hpos, by rw [hr, hr', hd.level.regs]⟩, by rw [hr, hd.room],
      by rw [hr', hd.room'], ?_⟩
    rw [hf, hf', hG, hG', hr, hr']
    exact ((hc.fallback.mono hm).settled hK hK').under hchoice hchoice' (hM'.trans hM.symm) hundo hundo'
  exact hwait.here hm ht ⟨M, h.spent hs hk hr hf, h'.spent hs' hk' hr' hf'⟩

theorem endAtomic_tidy {mark lo : Nat} {F K : List Frame} (hf : c.frames = F ++ .atomic mark :: K)
    (hF : Tidy lo F) : c.endAtomic mark =
      .ok (.going { c with ip := c.ip + 1, frames := sealed F K }) :=
  atMarker_tidy .atomic _ hf hF (FrameStack.isAtomic_of_plain mark lo) rfl
    (by simp [FrameStack.isAtomic])

theorem Concur.atomic {mark mark' : Nat} (hi₁ : e.program.code[x]? = some (.atomicStart mark))
    (hi₂ : e'.program.code[x']? = some (.atomicStart mark'))
    (h : Concur O N hi hi' z z' (x + 1) (x' + 1) w w')
    (hi₃ : e.program.code[w]? = some (.atomicEnd mark))
    (hi₄ : e'.program.code[w']? = some (.atomicEnd mark')) (hx : x + 1 ≤ w) (hx' : x' + 1 ≤ w') :
    Concur O N hi hi' z z' x x' (w + 1) (w' + 1) := by
  intro n hn c c' hfree hc hwait
  refine hc.step hfree (Nat.lt_succ_of_lt hx) (Nat.lt_succ_of_lt hx') hi₁ hi₂ (fun _ => rfl)
    (fun _ => rfl) fun m hm => ?_
  let b := (c.push (.atomic mark)).next
  let b' := (c'.push (.atomic mark')).next
  have hb : Abreast O m (x + 1) (x' + 1) b b' :=
    (hc.mono (Nat.le_of_lt hm)).push (.atomic mark) (.atomic mark') (congrArg (· + 1) hc.ip)
      (congrArg (· + 1) hc.ip') ⟨hc.level.pos, hc.level.regs⟩ rfl rfl rfl rfl rfl rfl rfl
      (fun _ h => h) fun _ h => h
  have hinside : O.Clears b.regs.depth (x + 1) (x' + 1) w w' :=
    hfree.inside (Nat.le_succ x) (Nat.le_succ w) (Nat.le_succ x') (Nat.le_succ w')
  refine h m (by omega) b b' hinside hb fun k hk d d' hd hg => ?_
  have hfinal : O.Clears d.regs.depth w w' (w + 1) (w' + 1) := by
    rw [hg.depth]
    exact hfree.inside (Nat.le_of_succ_le hx) (Nat.le_refl _) (Nat.le_of_succ_le hx') (Nat.le_refl _)
  obtain ⟨M, hs, hs'⟩ := hg
  obtain ⟨F, hclosed⟩ := hs.closed (f := .atomic mark) (c := c) rfl (by simp) rfl
  obtain ⟨F', hclosed'⟩ := hs'.closed (f := .atomic mark') (c := c') rfl (by simp) rfl
  refine hd.step hfinal (Nat.lt_succ_self w) (Nat.lt_succ_self w') hi₃ hi₄
    (fun _ => endAtomic_tidy hclosed.frames hclosed.tidy)
    (fun _ => endAtomic_tidy hclosed'.frames hclosed'.tidy) fun j hj => ?_
  exact hwait.closes { d with ip := d.ip + 1, frames := sealed F c.frames }
    { d' with ip := d'.ip + 1, frames := sealed F' c'.frames } hc (by omega)
    (hd.mono (Nat.le_of_lt hj)) hs hs' rfl rfl hclosed hclosed' (congrArg (· + 1) hd.ip)
    (congrArg (· + 1) hd.ip') hd.level.pos rfl rfl rfl rfl

/-! ## Going back -/

theorem Frame.plain_of_isChoice {f : Frame} (hf : f.isChoice = true) (lo : Nat) : f.Plain lo := by
  cases f <;> trivial

theorem mementos_of_isChoice {f : Frame} (hf : f.isChoice = true) (p : Program) : mementos p [f] = [] := by
  cases f <;> first | rfl | cases hf

/-- Both runs go on at a place of the subject, and may try others later. -/
theorem Awaits.tries {q : Nat} (more : Bool) {f f' : Frame}
    (hwait : Awaits O n hi hi' z z' a a' c c') (hc : Abreast O n x x' c c') (hm : m ≤ n)
    (hchoice : f.isChoice = true) (hchoice' : f'.isChoice = true)
    (hback : more = true →
      Fallback O m (f :: c.frames) (f' :: c'.frames) c.regs.ledger c'.regs.ledger)
    (hl : Level d d') (hk : d.regs.ledger = c.regs.ledger) (hk' : d'.regs.ledger = c'.regs.ledger) :
    O.sees m
      (.ok { d with ip := a, pos := q, frames := if more then f :: c.frames else c.frames })
      (.ok { d' with ip := a', pos := q, frames := if more then f' :: c'.frames else c'.frames }) := by
  have hlevel (K K' : List Frame) :
      Level { d with ip := a, pos := q, frames := K } { d' with ip := a', pos := q, frames := K' } :=
    ⟨rfl, hl.regs⟩
  cases more with
  | false =>
    exact hwait.here hm (hc.of_level hm rfl rfl (hlevel _ _) rfl rfl hk hk') (.of_eq rfl hk rfl hk')
  | true =>
    have hcounts : d.regs.counts = c.regs.counts := congrArg Prod.fst hk
    have hcounts' : d'.regs.counts = c'.regs.counts := congrArg Prod.fst hk'
    have hundo {f : Frame} (hf : f.isChoice = true) (p : Program) (r : Registers) :
        (r.undo p f).ledger = r.ledger := by
      rw [Registers.undo_of_isChoice p r f hf]
    refine hwait.here hm ⟨rfl, rfl, hlevel _ _, ?_, ?_, ?_⟩
      (.push f f' rfl rfl (Frame.plain_of_isChoice hchoice _) (Frame.plain_of_isChoice hchoice' _) ?_ hk
        hk' (hundo hchoice _) (hundo hchoice' _))
    · rw [← hc.room, ← hcounts]
    · rw [← hc.room', ← hcounts']
    · change Fallback O m _ _ d.regs.ledger d'.regs.ledger
      rw [hk, hk']
      exact hback rfl
    · rw [mementos_of_isChoice hchoice, mementos_of_isChoice hchoice']

theorem fallback_stepBack (hpair : Partners e e') (hwait : Awaits O n hi hi' z z' a a' c c')
    (hc : Abreast O n x x' c c') (q : Nat) (more : Option Nat) :
    Fallback O n (.stepBack a q more :: c.frames) (.stepBack a' q more :: c'.frames) c.regs.ledger
      c'.regs.ledger := by
  induction q using Nat.strongRecOn generalizing more with
  | ind q ih =>
    intro m hm d d' hl hk hk'
    simp only [resumeFrom, hpair.subject]
    cases hprev : e.subject.prev? q with
    | none => exact hc.fallback m hm d d' hl hk hk'
    | some p =>
      exact hwait.tries _ hc hm rfl rfl (fun _ => (ih p (Subject.prev?_lt hprev) _).mono hm) hl hk hk'

theorem Concur.stepBack (hpair : Partners e e') {lo : Nat} {limit : Option Nat}
    (hi₁ : e.program.code[x]? = some (.stepBack lo limit))
    (hi₂ : e'.program.code[x']? = some (.stepBack lo limit)) :
    Concur O N hi hi' z z' x x' (x + 1) (x' + 1) := by
  intro n _ c c' hfree hc hwait
  refine hc.step hfree (Nat.lt_succ_self x) (Nat.lt_succ_self x') hi₁ hi₂ (fun _ => rfl)
    (fun _ => rfl) fun m hm => ?_
  simp only [Core.stepBack, hpair.subject, hc.level.pos, hc.ip, hc.ip']
  cases hback : back? e.subject c.pos lo with
  | none => exact hc.failing (Nat.le_of_lt hm)
  | some p =>
    exact hwait.tries _ hc (Nat.le_of_lt hm) rfl rfl
      (fun _ => (fallback_stepBack hpair hwait hc p _).mono (Nat.le_of_lt hm)) hc.level rfl rfl

/-! ## Look arounds -/

theorem isLook_self (mark pos : Nat) : FrameStack.isLook mark (.look mark pos) = true := by
  simp [FrameStack.isLook]

theorem endLook_tidy {mark pos lo : Nat} {F K : List Frame} (hf : c.frames = F ++ .look mark pos :: K)
    (hF : Tidy lo F) : c.endLook mark =
      .ok (.going { c with ip := c.ip + 1, pos := pos, frames := sealed F K }) :=
  atMarker_tidy .look _ hf hF (FrameStack.isLook_of_plain mark lo) rfl (isLook_self mark pos)

theorem checkPos_tidy {mark pos lo : Nat} {F K : List Frame} (hf : c.frames = F ++ .look mark pos :: K)
    (hF : Tidy lo F) : c.checkPos mark =
      .ok (c.advance (if c.pos == pos then some c.pos else none)) := by
  rw [← Core.check_advance]
  exact atMarker_tidy .look _ hf hF (FrameStack.isLook_of_plain mark lo) rfl (isLook_self mark pos)

theorem unwind_tidy (p : Program) {mark pos lo : Nat} {F K : List Frame}
    (hf : c.frames = F ++ .look mark pos :: K) (hF : Tidy lo F) : c.unwind p mark =
      .ok (.going { c with ip := c.ip + 1, frames := K, regs := c.regs.undoAll p F }) := by
  have hfound : unwound p mark 0 c.frames c.regs = .ok (K, c.regs.undoAll p F) := by
    rw [hf, unwound_tidy p mark hF]
    simp [unwound, isLook_self]
  simp only [Core.unwind, hfound]

theorem ascends_lookBody {k : Look} {info : Info} {mark : Nat} (hbody : Ascends body)
    {later : Nat → Prop} (h : B.LookBodyAt k info body mark none later z x w) : x + 1 ≤ w := by
  obtain ⟨-, h⟩ := h
  split at h
  · obtain ⟨v, -, h, -, rfl⟩ := h
    have hle : x + 2 ≤ v := hbody h
    exact Nat.le_succ_of_le (Nat.le_of_succ_le hle)
  · exact hbody h

/-- Both runs begin to look around at the same place, and come to where their bodies have matched. -/
theorem Siblings.looks {k : Look} {info : Info} {mark mark' : Nat} {later later' : Nat → Prop}
    (T : Siblings p p' B B' hi hi') (hbody : Accords p p' N hi hi' body body') (he : e.program = p)
    (he' : e'.program = p') (hpair : Partners e e')
    (h : B.LookBodyAt k info body mark none later z x w)
    (h' : B'.LookBodyAt k info body' mark' none later' z' x' w') (hn : n ≤ N)
    (hc : Abreast O n x x' c c') (hfree : O.Clears c.regs.depth x x' w w')
    (hwait : ∀ m ≤ n, ∀ d d' : Core,
      let b : Core := { c with ip := x + 1, frames := .look mark c.pos :: c.frames }
      let b' : Core := { c' with ip := x' + 1, frames := .look mark' c.pos :: c'.frames }
      Abreast O m w w' d d' → Gone e e' hi hi' z z' b b' d d' → O.sees m (.ok d) (.ok d')) :
    O.sees n (.ok c) (.ok c') := by
  subst he he'
  have hle : x + 1 ≤ w := ascends_lookBody hbody.ascends h
  have hle' : x' + 1 ≤ w' := ascends_lookBody hbody.ascends' h'
  obtain ⟨hstart, h⟩ := h
  obtain ⟨hstart', h'⟩ := h'
  rw [T.code] at hstart h
  rw [T.code'] at hstart' h'
  refine hc.step hfree hle hle' hstart hstart' (fun _ => rfl) (fun _ => rfl) fun m hm => ?_
  let b : Core := { c with ip := x + 1, frames := .look mark c.pos :: c.frames }
  let b' : Core := { c' with ip := x' + 1, frames := .look mark' c.pos :: c'.frames }
  have hb : Abreast O m (x + 1) (x' + 1) b b' :=
    (hc.mono (Nat.le_of_lt hm)).push (.look mark c.pos) (.look mark' c.pos) rfl rfl
      ⟨hc.level.pos, hc.level.regs⟩ rfl rfl rfl rfl rfl rfl rfl (fun _ h => h) fun _ h => h
  have hleft : (c.push (.look mark c.pos)).next = b := by simp only [Core.push, Core.next, hc.ip, b]
  have hright : (c'.push (.look mark' c'.pos)).next = b' := by
    simp only [Core.push, Core.next, hc.ip', hc.level.pos, b']
  simp only [outcome, hleft, hright]
  have hinside : O.Clears b.regs.depth (x + 1) (x' + 1) w w' :=
    hfree.inside (Nat.le_succ x) (Nat.le_refl w) (Nat.le_succ x') (Nat.le_refl w')
  have hend : Awaits O m hi hi' z z' w w' b b' := fun j hj d d' hd hg => hwait j (by omega) d d' hd hg
  by_cases hbehind : k.behind = true
  · rw [if_pos hbehind] at h h'
    obtain ⟨v, hback, hcode, hcheck, rfl⟩ := h
    obtain ⟨v', hback', hcode', hcheck', rfl⟩ := h'
    have hv : x + 2 ≤ v := hbody.ascends hcode
    have hv' : x' + 2 ≤ v' := hbody.ascends' hcode'
    have hgo : Concur O N hi hi' z z' (x + 1) (x' + 1) v v' :=
      Concur.andThen (.stepBack hpair hback hback') (hbody.concur O rfl rfl hpair hcode hcode')
        (Nat.le_succ _) hv (Nat.le_succ _) hv'
    refine hgo m (by omega) b b' (hinside.inside (Nat.le_refl _) (Nat.le_succ v) (Nat.le_refl _)
      (Nat.le_succ v')) hb fun j hj d d' hd hg => ?_
    have hfinal : O.Clears d.regs.depth v v' (v + 1) (v' + 1) := by
      rw [hg.depth]
      exact hinside.inside (Nat.le_of_succ_le hv) (Nat.le_refl _) (Nat.le_of_succ_le hv') (Nat.le_refl _)
    have hrest := hend.rest hj hg
    obtain ⟨M, hs, hs'⟩ := hg
    obtain ⟨F, hf, hF, -, -⟩ := hs.above rfl (by simp)
    obtain ⟨F', hf', hF', -, -⟩ := hs'.above rfl (by simp)
    refine hd.step hfinal (Nat.lt_succ_self v) (Nat.lt_succ_self v') hcheck hcheck'
      (fun _ => checkPos_tidy hf hF) (fun _ => checkPos_tidy hf' hF') fun i hij => ?_
    rw [hd.level.pos]
    cases hpos : d.pos == c.pos with
    | false => exact hd.failing (Nat.le_of_lt hij)
    | true =>
      exact hrest.goes hd (Nat.le_of_lt hij) (congrArg (· + 1) hd.ip) (congrArg (· + 1) hd.ip') rfl rfl
        rfl rfl rfl
  · rw [if_neg hbehind] at h h'
    exact hbody.concur O rfl rfl hpair h h' m (by omega) b b' hinside hb hend

/-- A look around that wants a match goes back to where it began, and tries nothing else. -/
theorem Siblings.lookFor {k : Look} {info : Info} {mark mark' : Nat} {later later' : Nat → Prop}
    (T : Siblings p p' B B' hi hi') (hbody : Accords p p' N hi hi' body body') (he : e.program = p)
    (he' : e'.program = p') (hpair : Partners e e')
    (h : B.LookBodyAt k info body mark none later z x w)
    (h' : B'.LookBodyAt k info body' mark' none later' z' x' w')
    (hend : e.program.code[w]? = some (.lookEnd mark))
    (hend' : e'.program.code[w']? = some (.lookEnd mark')) :
    Concur O N hi hi' z z' x x' (w + 1) (w' + 1) := by
  intro n hn c c' hfree hc hwait
  have hxw : x ≤ w := Nat.le_of_succ_le (ascends_lookBody hbody.ascends h)
  have hxw' : x' ≤ w' := Nat.le_of_succ_le (ascends_lookBody hbody.ascends' h')
  refine T.looks hbody he he' hpair h h' hn hc
    (hfree.inside (Nat.le_refl x) (Nat.le_succ w) (Nat.le_refl x') (Nat.le_succ w'))
    fun m hm d d' hd hg => ?_
  have hfinal : O.Clears d.regs.depth w w' (w + 1) (w' + 1) := by
    rw [hg.depth]
    exact hfree.inside hxw (Nat.le_refl _) hxw' (Nat.le_refl _)
  obtain ⟨M, hs, hs'⟩ := hg
  obtain ⟨F, hclosed⟩ := hs.closed (f := .look mark c.pos) (c := c) rfl (by simp) rfl
  obtain ⟨F', hclosed'⟩ := hs'.closed (f := .look mark' c.pos) (c := c') rfl (by simp) rfl
  refine hd.step hfinal (Nat.lt_succ_self w) (Nat.lt_succ_self w') hend hend'
    (fun _ => endLook_tidy hclosed.frames hclosed.tidy)
    (fun _ => endLook_tidy hclosed'.frames hclosed'.tidy) fun j hj => ?_
  exact hwait.closes { d with ip := d.ip + 1, pos := c.pos, frames := sealed F c.frames }
    { d' with ip := d'.ip + 1, pos := c.pos, frames := sealed F' c'.frames } hc (by omega)
    (hd.mono (Nat.le_of_lt hj)) hs hs' rfl rfl hclosed hclosed' (congrArg (· + 1) hd.ip)
    (congrArg (· + 1) hd.ip') rfl rfl rfl rfl rfl

/-- What has been found is undone, and with it goes the way past the look around. -/
theorem glides_against {s : Stop} {lo mark pos depth : Nat} {F K : List Frame} {g : Frame}
    (hunwind : e.program.code[w]? = some (.unwind mark)) (hdrop : e.program.code[w + 1]? = some .drop)
    (hfail : e.program.code[w + 2]? = some .fail) (hip : d.ip = w)
    (hf : d.frames = F ++ .look mark pos :: g :: K) (hF : Tidy lo F)
    (hfree : s.Clears depth w (w + 3)) (hbefore : d.regs.depth = depth)
    (hafter : (d.regs.undoAll e.program F).depth = depth) :
    let t : Core := { d with ip := w + 2, frames := K, regs := d.regs.undoAll e.program F }
    Glides e s d t ∧ StepsTo e s t (resumeFrom e K t) := by
  subst hip
  let u (a : Addr) (L : List Frame) : Core :=
    { d with ip := a, frames := L, regs := d.regs.undoAll e.program F }
  have hpass {c : Core} (hip : d.ip ≤ c.ip) (hip' : c.ip < d.ip + 3) (hc : c.regs.depth = depth) :
      ¬ c.StopsAt s := by
    subst hc
    exact hfree.passes hip hip'
  have hfirst : StepsTo e s d (.ok (u (d.ip + 1) (g :: K))) :=
    stepsTo_act hunwind (hpass (Nat.le_refl _) (Nat.lt_add_of_pos_right (by omega)) hbefore)
      fun _ => unwind_tidy e.program hf hF
  have hnext : StepsTo e s (u (d.ip + 1) (g :: K)) (.ok (u (d.ip + 2) K)) :=
    stepsTo_act (v := .ok (.going (u (d.ip + 2) K))) hdrop
      (hpass (Nat.le_succ _) (Nat.add_lt_add_left (by omega) _) hafter) fun _ => rfl
  exact ⟨.step hfirst (.single hnext), stepsTo_act (v := .ok (.failing (u (d.ip + 2) K))) hfail
    (hpass (Nat.le_add_right _ 2) (Nat.add_lt_add_left (by omega) _) hafter) fun _ => rfl⟩

/-- A look around that wants no match goes on where its body has not matched. -/
theorem Siblings.lookAgainst {k : Look} {info : Info} {mark mark' : Nat} {later later' : Nat → Prop}
    (T : Siblings p p' B B' hi hi') (hbody : Accords p p' N hi hi' body body') (he : e.program = p)
    (he' : e'.program = p') (hpair : Partners e e')
    (hfork : e.program.code[x]? = some (.fork (w + 3)))
    (hfork' : e'.program.code[x']? = some (.fork (w' + 3)))
    (h : B.LookBodyAt k info body mark none later z (x + 1) w)
    (h' : B'.LookBodyAt k info body' mark' none later' z' (x' + 1) w')
    (hend : e.program.code[w]? = some (.unwind mark) ∧ e.program.code[w + 1]? = some .drop ∧
      e.program.code[w + 2]? = some .fail)
    (hend' : e'.program.code[w']? = some (.unwind mark') ∧ e'.program.code[w' + 1]? = some .drop ∧
      e'.program.code[w' + 2]? = some .fail) :
    Concur O N hi hi' z z' x x' (w + 3) (w' + 3) := by
  intro n hn c c' hfree hc hwait
  have hxw : x + 1 + 1 ≤ w := ascends_lookBody hbody.ascends h
  have hxw' : x' + 1 + 1 ≤ w' := ascends_lookBody hbody.ascends' h'
  refine hc.fork hfree (by omega) (by omega) hfork hfork'
    (fun m hm => (hwait.mono (Nat.le_of_lt hm)).revives) fun m hm hb => ?_
  refine T.looks hbody he he' hpair h h' (by omega) hb
    (hfree.inside (by omega) (by omega) (by omega) (by omega)) fun j hj d d' hd hg => ?_
  have hfinal : O.Clears c.regs.depth w w' (w + 3) (w' + 3) :=
    hfree.inside (by omega) (Nat.le_refl _) (by omega) (Nat.le_refl _)
  obtain ⟨M, hs, hs'⟩ := hg
  obtain ⟨F, hf, hF, hM, hundo⟩ := hs.above rfl (by simp)
  obtain ⟨F', hf', hF', hM', hundo'⟩ := hs'.above rfl (by simp)
  have hledger : (d.regs.undoAll e.program F).ledger = c.regs.ledger := hundo _ rfl
  have hledger' : (d'.regs.undoAll e'.program F').ledger = c'.regs.ledger := hundo' _ rfl
  obtain ⟨hglide, hstep⟩ := glides_against hend.1 hend.2.1 hend.2.2 hd.ip hf hF hfinal.left hs.depth
    (congrArg Prod.snd hledger)
  obtain ⟨hglide', hstep'⟩ := glides_against hend'.1 hend'.2.1 hend'.2.2 hd.ip' hf' hF' hfinal.right
    (hs'.depth.trans hc.depth) ((congrArg Prod.snd hledger').trans hc.depth)
  refine O.glides hglide hglide' fun i hi => O.both hstep hstep' fun l hl => ?_
  exact hc.fallback l (by omega) _ _
    ⟨hd.level.pos, Registers.uncounted_undoAll_congr hd.level.regs (hM'.trans hM.symm)⟩ hledger hledger'

namespace Siblings

variable (T : Siblings p p' B B' hi hi') (h : Accords p p' N hi hi' body body')
include T h

theorem atomic : Accords p p' N hi hi' (B.AtomicAt body) (B'.AtomicAt body') := by
  have hascends {B : Built} {body : Part} (hbody : Ascends body) : Ascends (B.AtomicAt body) := by
    rintro later z x y ⟨mark, w, -, hcode, -, rfl⟩
    exact Nat.le_succ_of_le (Nat.le_of_succ_le (hbody hcode))
  refine ⟨hascends h.ascends, hascends h.ascends', ?_⟩
  rintro e e' O rfl rfl hpair later later' z z' x x' y y' ⟨mark, w, hstart, hcode, hend, rfl⟩
    ⟨mark', w', hstart', hcode', hend', rfl⟩
  rw [T.code] at hstart hend
  rw [T.code'] at hstart' hend'
  exact .atomic hstart hstart' (h.concur O rfl rfl hpair hcode hcode') hend hend' (h.ascends hcode)
    (h.ascends' hcode')

theorem look (k : Look) (info : Info) :
    Accords p p' N hi hi' (B.LookAt k info body) (B'.LookAt k info body') := by
  have hascends {B : Built} {body : Part} (hbody : Ascends body) : Ascends (B.LookAt k info body) := by
    rintro later z x y ⟨mark, w, hlook⟩
    split at hlook
    · obtain ⟨-, hinside, -, -, -, rfl⟩ := hlook
      have hle : x + 1 + 1 ≤ w := ascends_lookBody hbody hinside
      exact Nat.le_trans (Nat.le_of_succ_le (Nat.le_of_succ_le hle)) (Nat.le_add_right w 3)
    · obtain ⟨hinside, -, rfl⟩ := hlook
      exact Nat.le_succ_of_le (Nat.le_of_succ_le (ascends_lookBody hbody hinside))
  refine ⟨hascends h.ascends, hascends h.ascends', ?_⟩
  rintro e e' O rfl rfl hpair later later' z z' x x' y y' ⟨mark, w, hlook⟩ ⟨mark', w', hlook'⟩
  rw [T.code] at hlook
  rw [T.code'] at hlook'
  by_cases hneg : k.negated = true
  · rw [if_pos hneg] at hlook hlook'
    obtain ⟨hfork, hinside, hunwind, hdrop, hfail, rfl⟩ := hlook
    obtain ⟨hfork', hinside', hunwind', hdrop', hfail', rfl⟩ := hlook'
    exact T.lookAgainst h rfl rfl hpair hfork hfork' hinside hinside' ⟨hunwind, hdrop, hfail⟩
      ⟨hunwind', hdrop', hfail'⟩
  · rw [if_neg hneg] at hlook hlook'
    obtain ⟨hinside, hend, rfl⟩ := hlook
    obtain ⟨hinside', hend', rfl⟩ := hlook'
    exact T.lookFor h rfl rfl hpair hinside hinside' hend hend'

/-- Both runs take the same branch, by what groups have been set. -/
theorem conditional {other other' : Part} (h' : Accords p p' N hi hi' other other')
    (groups : List Nat) :
    Accords p p' N hi hi' (B.ConditionalAt groups body other)
      (B'.ConditionalAt groups body' other') := by
  have hascends {B : Built} {yes no : Part} (hyes : Ascends yes) (hno : Ascends no) :
      Ascends (B.ConditionalAt groups yes no) := by
    rintro later z x y ⟨w, -, hthen, -, helse⟩
    have hle : x + 1 ≤ w := hyes hthen
    exact Nat.le_of_succ_le (Nat.le_trans hle (Nat.le_of_succ_le (hno helse)))
  refine ⟨hascends h.ascends h'.ascends, hascends h.ascends' h'.ascends', ?_⟩
  rintro e e' O rfl rfl hpair later later' z z' x x' y y' ⟨w, hset, hthen, hjump, helse⟩
    ⟨w', hset', hthen', hjump', helse'⟩
  rw [T.code] at hset hjump
  rw [T.code'] at hset' hjump'
  have hxw : x + 1 ≤ w := h.ascends hthen
  have hxw' : x' + 1 ≤ w' := h.ascends' hthen'
  have hwy : w + 1 ≤ y := h'.ascends helse
  have hwy' : w' + 1 ≤ y' := h'.ascends' helse'
  exact .ifSet hset hset'
    ((h.concur O rfl rfl hpair hthen hthen').andThen (.jump hjump hjump' hwy hwy') hxw
      (Nat.le_of_succ_le hwy) hxw' (Nat.le_of_succ_le hwy'))
    (h'.concur O rfl rfl hpair helse helse') (Nat.lt_succ_of_le (Nat.le_of_succ_le hxw)) hwy
    (Nat.lt_succ_of_le (Nat.le_of_succ_le hxw')) hwy'

end Siblings

end RegexMachine.Machine
