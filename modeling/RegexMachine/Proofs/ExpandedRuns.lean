import RegexMachine.Proofs.Beginnings
import RegexMachine.Proofs.ExpandedSteps

/-!
Runs of a program and of its expanded form. The expanded form takes more steps: three for each
character that the loop takes, and some for each idle frame that it resumes. Both come to the same.
-/
namespace RegexMachine
open Machine

namespace Sweep

variable {w : Sweep} {e : Setting} {t : Subject} {c d : Core} {K L : List Frame} {x : Nat}
  {tight : Bool}

/-! ## Idle frames -/

/-- A literal does not match where its first byte does not stand. -/
theorem literal_fails {i : Instr} {b : UInt8} (hi : i.BeginsWith b)
    (hb : e.subject.bytes[c.pos]? ≠ some b) (spans : Addr → Nat → Except Halt (Option Nat)) :
    c.act e spans i = .ok (.failing c) := by
  cases i with
  | byte b' =>
    obtain rfl : b' = b := hi
    have hnone : e.subject.byteLength? c.pos b' = none := if_neg (by simpa using hb)
    simp only [Core.act, hnone]
    rfl
  | text bytes =>
    have hnone : e.subject.textLength? c.pos bytes = none :=
      if_neg fun hstarts => hb (Hints.startsAt_first hi hstarts)
    simp only [Core.act, hnone]
    rfl
  | _ => cases hi

theorem BeginsWith.moveTarget {i : Instr} {b : UInt8} (hi : i.BeginsWith b) (f : Addr → Addr) :
    i.moveTarget f = i := by
  cases i <;> first | rfl | cases hi

/-- Alternatives at the end of the loop, of which the program has some, above stacks side by side. -/
inductive Piled (w : Sweep) (t : Subject) : List Frame → List Frame → Prop
  | laid {K L : List Frame} (h : w.Laid t false K L) : Piled w t K L
  | both {K L : List Frame} (pos : Nat) (h : Piled w t K L) :
    Piled w t (.alternative (w.place + 1) pos :: K) (.alternative (w.place + 3) pos :: L)
  | extra {K L : List Frame} (pos : Nat) (h : Piled w t K L) :
    Piled w t K (.alternative (w.place + 3) pos :: L)

/-- The loop is over in a region whose end is about to drop what it has left. -/
def Waits (w : Sweep) (t : Subject) (c d : Core) : Prop :=
  c.ip = w.place + 1 ∧ (∃ mark, w.program.code[w.place + 1]? = some (.atomicEnd mark)) ∧
    w.before.isSome = true ∧ ∃ L, w.Piled t c.frames L ∧ d = w.shift c L

/-- The program and its expanded form go on from the same place, or end alike. -/
inductive Lands (w : Sweep) (t : Subject) : Except Ending Core → Except Ending Core → Prop
  | going {c d : Core} (h : w.Level t c d ∨ w.Waits t c d) : Lands w t (.ok c) (.ok d)
  | error {y y' : Ending} (h : y.Like y') : Lands w t (.error y) (.error y')

/-- Where an idle frame resumes the literal ahead fails, and the frames below it are popped. -/
theorem idle_trails (hf : w.Fits) {pos : Nat} {i : Instr} {b : UInt8}
    (hi : w.program.code[w.place + 1]? = some i) (hb : i.BeginsWith b)
    (hpos : e.subject.bytes[pos]? ≠ some b) :
    Trails (w.looped e) (.ok { c with ip := w.place + 3, pos := pos, frames := L })
      (resumeFrom (w.looped e) L { c with ip := w.place + 3, pos := pos }) := by
  have hcode : w.expanded.code[w.place + 3]? = some i := by
    rw [← moved_after, fetch_moved hf.inside (by omega), hi, Option.map_some,
      BeginsWith.moveTarget hb]
  refine .step (fun n => ?_) (.refl _)
  rw [step_failing (c := { c with ip := w.place + 3, pos := pos, frames := L }) hcode
    (literal_fails (e := w.looped e) hb hpos)]
  exact resumeFrom_frames L { c with ip := w.place + 3, pos := pos } L

/-- Frames that are popped side by side. The place where the runs were is of no consequence. -/
theorem resume_trails (hf : w.Fits) (h : w.Laid e.subject tight K L) (c : Core) (x pos : Nat) :
    ∃ v, Trails (w.looped e) (resumeFrom (w.looped e) L { c with ip := x, pos := pos }) v ∧
      w.Lands e.subject (resumeFrom (w.plain e) K c) v := by
  induction h generalizing c x pos with
  | nil => exact ⟨_, .refl _, .error ⟨_, rfl, ⟨rfl, rfl, rfl, rfl⟩⟩⟩
  | @frame tight f K L hplace h ih =>
    have undone (hchoice : f.isChoice = false) :
        ∃ v, Trails (w.looped e)
            (resumeFrom (w.looped e) (f.moveAddr w.moved :: L) { c with ip := x, pos := pos }) v ∧
          w.Lands e.subject (resumeFrom (w.plain e) (f :: K) c) v := by
      have hchoice' : (f.moveAddr w.moved).isChoice = false := by
        cases f <;> first | rfl | cases hchoice
      rw [resumeFrom_undo hchoice, resumeFrom_undo hchoice']
      have hundo : c.regs.undo (w.looped e).program (f.moveAddr w.moved) = c.regs.undo w.program f :=
        undo_expanded w c.regs f
      dsimp only
      rw [hundo]
      exact ih { c with regs := c.regs.undo w.program f } x pos
    cases f with
    | alternative ip p =>
      exact ⟨_, .refl _, .going (.inl (level_to (c := { c with ip := ip, pos := p, frames := K })
        (hplace ip rfl) h.loosen))⟩
    | stepBack ip p more =>
      simp only [resumeFrom, Frame.moveAddr]
      have hsame : (w.looped e).subject.prev? p = (w.plain e).subject.prev? p := rfl
      rw [hsame]
      cases (w.plain e).subject.prev? p with
      | none => exact ih c x pos
      | some q =>
        refine ⟨_, .refl _, .going (.inl (level_to (c := { c with
          ip := ip, pos := q
          frames := if (more.all (1 < ·) && 0 < q) = true then
            .stepBack ip q (more.map (· - 1)) :: K else K }) (hplace ip rfl) ?_))⟩
        dsimp only
        split
        · exact .frame (f := .stepBack ip q (more.map (· - 1)))
            (fun y hy => hplace y hy) h
        · exact h.loosen
    | absent ip start stop =>
      simp only [resumeFrom, Frame.moveAddr]
      have hsame : (w.looped e).subject.prev? stop = (w.plain e).subject.prev? stop := rfl
      rw [hsame]
      cases ((w.plain e).subject.prev? stop).filter (start ≤ ·) with
      | none => exact ih c x pos
      | some q =>
        refine ⟨_, .refl _, .going (.inl (level_to (c := { c with
          ip := ip, pos := q
          frames := if start < q then .absent ip start q :: K else K }) (hplace ip rfl) ?_))⟩
        dsimp only
        split
        · exact .frame (f := .absent ip start q) (fun y hy => hplace y hy) h
        · exact h.loosen
    | guard site p => exact ih { c with memo := c.memo.map (·.markFailed site p) } x pos
    | _ => exact undone rfl
  | @idle f K L hidle h ih =>
    obtain ⟨b, hb, rfl | ⟨p, i, rfl, hi, hbegins, hp⟩⟩ := hidle
    · exact ih c x pos
    · obtain ⟨v, htrails, hlands⟩ := ih c (w.place + 3) p
      exact ⟨v, (idle_trails (c := { c with ip := x, pos := pos }) hf hi hbegins hp).trans htrails,
        hlands⟩

/-! ## The loop -/

theorem afterAny_ne (wanted : Nat → Bool) (x : Nat) (p : Nat) (ps : List Nat) (hps : ps ≠ []) :
    afterAny wanted x L (p :: ps) =
      afterAny wanted x (if wanted p then .alternative x p :: L else L) ps := by
  cases ps with
  | nil => exact absurd rfl hps
  | cons q ps => rfl

/-- The loop leaves an alternative at every place that any characters lead to, and goes on from the
last one. -/
theorem loop_trails (hf : w.Fits) (c : Core) (hc : c.ip = w.place) :
    ∃ v, (∀ n, c.step n (w.looped e) = v) ∧
      let after := afterAny (fun _ => true) (w.place + 3) c.frames
        (anyPlaces e.subject w.multiline c.pos)
      Trails (w.looped e) v (.ok { c with ip := w.place + 3, frames := after.1, pos := after.2 }) := by
  have hcode {k : Nat} (hk : k < 3) : w.expanded.code[w.place + k]? = w.loop[k]? :=
    fetch_loop hf.inside hk
  let c₁ : Core := { c with
    ip := w.place + 1, frames := .alternative (w.place + 3) c.pos :: c.frames }
  have hfork (n : Nat) : c.step n (w.looped e) = .ok c₁ := by
    refine step_eq (i := .fork (w.place + 3)) ?_ (fun _ => ?_) n
    · rw [hc]
      exact hcode (k := 0) (by omega)
    · simp only [Core.act, Core.push, Core.next, hc, c₁]
  refine ⟨.ok c₁, hfork, ?_⟩
  have hany : (w.looped e).program.code[c₁.ip]? = some (.anyChar w.multiline) :=
    hcode (k := 1) (by omega)
  cases hlen : e.subject.anyLength? c.pos w.multiline with
  | none =>
    rw [anyPlaces_none hlen]
    refine .step (step_failing (d := c₁) hany fun _ => ?_) (.refl _)
    have hlen' : (w.looped e).subject.anyLength? c₁.pos w.multiline = none := hlen
    simp only [Core.act, hlen']
    rfl
  | some k =>
    have hpos := Subject.anyLength?_pos hlen
    let c₂ : Core := { c₁ with ip := w.place + 2, pos := c.pos + k }
    let c₃ : Core := { c₂ with ip := w.place }
    have htake (n : Nat) : c₁.step n (w.looped e) = .ok c₂ := by
      refine step_eq hany (fun _ => ?_) n
      have hlen' : (w.looped e).subject.anyLength? c₁.pos w.multiline = some k := hlen
      simp only [Core.act, hlen']
      rfl
    have hback (n : Nat) : c₂.step n (w.looped e) = .ok c₃ :=
      step_eq (i := .jump w.place) (hcode (k := 2) (by omega)) (fun _ => rfl) n
    obtain ⟨v, hv, htrails⟩ := loop_trails hf c₃ rfl
    obtain ⟨ps, hps⟩ := anyPlaces_ne_nil e.subject w.multiline (c.pos + k)
    rw [anyPlaces_some hlen, afterAny_ne _ _ _ _ (by rw [hps]; simp)]
    exact .step htake (.step hback (.step hv htrails))
termination_by e.subject.size - c.pos

/-- The instruction leaves alternatives at the places that are wanted, the loop at all of them. -/
theorem piled_afterAny (hplace : w.isTight (w.place + 1) = false) (wanted : Nat → Bool)
    (ps : List Nat) {K L : List Frame} (h : w.Piled t K L) :
    w.Piled t (afterAny wanted (w.place + 1) K ps).1
        (afterAny (fun _ => true) (w.place + 3) L ps).1 ∧
      (afterAny (fun _ => true) (w.place + 3) L ps).2 = (afterAny wanted (w.place + 1) K ps).2 := by
  match ps with
  | [] => exact ⟨h, rfl⟩
  | [_] => exact ⟨h, rfl⟩
  | p :: q :: ps =>
    unfold afterAny
    cases wanted p with
    | false => exact piled_afterAny hplace wanted (q :: ps) (.extra p h)
    | true => exact piled_afterAny hplace wanted (q :: ps) (.both p h)

/-- Alternatives that are not wanted are idle where a literal comes next. -/
theorem laid_sweep (hplace : w.isTight (w.place + 1) = false) {wanted : Nat → Bool}
    (hidle : ∀ p, wanted p = false → w.Idle t (.alternative (w.place + 3) p)) (ps : List Nat)
    {K L : List Frame} (h : w.Laid t false K L) :
    w.Laid t false (afterAny wanted (w.place + 1) K ps).1
        (afterAny (fun _ => true) (w.place + 3) L ps).1 ∧
      (afterAny (fun _ => true) (w.place + 3) L ps).2 = (afterAny wanted (w.place + 1) K ps).2 := by
  match ps with
  | [] => exact ⟨h, rfl⟩
  | [_] => exact ⟨h, rfl⟩
  | p :: q :: ps =>
    unfold afterAny
    cases hp : wanted p with
    | false => exact laid_sweep hplace hidle (q :: ps) (.idle (hidle p hp) h)
    | true =>
      have hframe : w.Laid t false (.alternative (w.place + 1) p :: K)
          (.alternative (w.place + 3) p :: L) :=
        moved_after (w := w) ▸ About.laid_alternative h hplace p
      exact laid_sweep hplace hidle (q :: ps) hframe

/-- Where the instruction leads, the loop leads too. -/
theorem sweep_lands (hf : w.Fits) {c : Core} (hc : c.ip = w.place)
    (h : w.Laid e.subject false c.frames L) :
    let after := afterAny (fun _ => true) (w.place + 3) L (anyPlaces e.subject w.multiline c.pos)
    w.Lands e.subject (.ok (c.takeAny (w.plain e) w.multiline w.before))
      (.ok { c with ip := w.place + 3, frames := after.1, pos := after.2 }) := by
  have hinstr : w.instr.isLoose = true := by
    unfold instr
    cases w.before <;> rfl
  have hplace := hf.loose_next hf.here hinstr
  have hshift {K : List Frame} (hpos : (afterAny (fun _ => true) (w.place + 3) L
        (anyPlaces e.subject w.multiline c.pos)).2 =
      (c.takeAny (w.plain e) w.multiline w.before).pos) :
      ({ c with
        ip := w.place + 3, frames := K
        pos := (afterAny (fun _ => true) (w.place + 3) L
          (anyPlaces e.subject w.multiline c.pos)).2 } : Core) =
        w.shift (c.takeAny (w.plain e) w.multiline w.before) K := by
    rw [hpos, shift, ← moved_after, ← hc]
    rfl
  have hip : (c.takeAny (w.plain e) w.multiline w.before).ip = w.place + 1 := by rw [← hc]; rfl
  have hframes : (c.takeAny (w.plain e) w.multiline w.before).frames =
      (afterAny (fun i => w.before.all fun b => e.subject.bytes[i]? == some b) (w.place + 1) c.frames
        (anyPlaces e.subject w.multiline c.pos)).1 := by
    rw [← hc]
    rfl
  have hpos : (c.takeAny (w.plain e) w.multiline w.before).pos =
      (afterAny (fun i => w.before.all fun b => e.subject.bytes[i]? == some b) (w.place + 1) c.frames
        (anyPlaces e.subject w.multiline c.pos)).2 := by
    rw [← hc]
    rfl
  have level (hidle : ∀ p, (w.before.all fun b => e.subject.bytes[p]? == some b) = false →
      w.Idle e.subject (.alternative (w.place + 3) p)) := by
    obtain ⟨hlaid, hsame⟩ := laid_sweep hplace hidle (anyPlaces e.subject w.multiline c.pos) h
    exact Lands.going (.inl ⟨_, by rw [hip, hplace, hframes]; exact hlaid,
      hshift (hsame.trans hpos.symm)⟩)
  cases hbefore : w.before with
  | none =>
    rw [hbefore] at level
    exact level (fun p hp => by cases hp)
  | some b =>
    obtain ⟨i, hi, hbegins | ⟨mark, rfl⟩⟩ := hf.ahead b hbefore
    · rw [hbefore] at level
      refine level fun p hp => ⟨b, hbefore, .inr ⟨p, i, rfl, hi, hbegins, ?_⟩⟩
      simpa using hp
    · obtain ⟨hpiled, hsame⟩ := piled_afterAny hplace
        (fun i => w.before.all fun b => e.subject.bytes[i]? == some b)
        (anyPlaces e.subject w.multiline c.pos) (.laid h)
      rw [← hbefore]
      refine .going (.inr ⟨hip, ⟨mark, hi⟩, by rw [hbefore]; rfl, _, ?_,
        hshift (hsame.trans hpos.symm)⟩)
      rw [hframes]
      exact hpiled

/-- The end of a region closes what the loop has left in it. -/
theorem Piled.locate (mark : Nat) (hbefore : w.before.isSome = true)
    (hplace : w.isTight (w.place + 1) = false) (h : w.Piled t K L) :
    Option.Rel (Laid.View w t false) (locate (FrameStack.isAtomic mark) 0 K)
      (locate (FrameStack.isAtomic mark) 0 L) := by
  have above (x p : Nat) (M : List Frame) :
      Machine.locate (FrameStack.isAtomic mark) 0 (.alternative x p :: M) =
        (Machine.locate (FrameStack.isAtomic mark) 0 M).map
          fun v => (.alternative x p :: v.1, v.2) := by
    simp [Machine.locate, FrameStack.isAtomic]
  induction h with
  | laid h =>
    exact h.locate (About.isAtomic_moveAddr mark _) (fun _ => About.idle_not rfl fun _ _ => rfl) 0
  | @both K L p h ih =>
    rw [above, above]
    revert ih
    generalize Machine.locate (FrameStack.isAtomic mark) 0 K = a,
      Machine.locate (FrameStack.isAtomic mark) 0 L = b
    intro ih
    cases ih with
    | none => exact .none
    | some hview =>
      have hframe : Laid.View w t false _ _ := hview.frame (f := .alternative (w.place + 1) p)
        fun x hx => by cases hx; exact hplace
      rw [Frame.moveAddr, moved_after] at hframe
      exact .some hframe
  | @extra K L p h ih =>
    rw [above]
    revert ih
    generalize Machine.locate (FrameStack.isAtomic mark) 0 K = a,
      Machine.locate (FrameStack.isAtomic mark) 0 L = b
    intro ih
    obtain ⟨b', hb'⟩ := Option.isSome_iff_exists.mp hbefore
    cases ih with
    | none => exact .none
    | some hview => exact .some ⟨hview.marker, hview.below, .idle ⟨b', hb', Or.inl rfl⟩ hview.closed,
        hview.changed⟩

/-- After the end of the region nothing is left of what the loop did. -/
theorem Waits.lands (hf : w.Fits) (h : w.Waits e.subject c d) (n m : Nat) :
    w.Lands e.subject (c.step n (w.plain e)) (d.step m (w.looped e)) := by
  obtain ⟨hip, ⟨mark, hi⟩, hbefore, L, hpiled, rfl⟩ := h
  have hinstr : w.instr.isLoose = true := by
    unfold instr
    cases w.before <;> rfl
  have hrel := hpiled.locate mark hbefore (hf.loose_next hf.here hinstr)
  have hhere : (w.plain e).program.code[c.ip]? = some (.atomicEnd mark) := by
    rw [hip]
    exact hi
  have hhere' : (w.looped e).program.code[(w.shift c L).ip]? = some (.atomicEnd mark) := by
    have hfetch := fetch_moved (x := w.place + 1) hf.inside (by omega)
    rw [hi] at hfetch
    change w.expanded.code[w.moved c.ip]? = _
    rw [hip, hfetch]
    rfl
  have hframes : (w.shift c L).frames = L := rfl
  simp only [Core.step, hhere, hhere', Core.act, Core.endAtomic, Core.atMarker, hframes]
  revert hrel
  generalize locate (FrameStack.isAtomic mark) 0 c.frames = a,
    locate (FrameStack.isAtomic mark) 0 L = b
  intro hrel
  cases hrel with
  | none => exact .error ⟨_, rfl, _, rfl, trivial⟩
  | @some v v' hview =>
    obtain ⟨F, mk, K'⟩ := v
    obtain ⟨F', mk', L'⟩ := v'
    refine .going (.inl ?_)
    exact level_next (x := c.ip) (c := { c with ip := c.ip + 1, frames := sealed F K' })
      (by rw [hip]; exact Nat.succ_ne_self _) rfl (hf.loose_next hhere rfl) hview.closed.dropVoids

/-- One step of the program, and those of its expanded form that belong to it. -/
theorem steps_land (hf : w.Fits) (h : w.Level e.subject c d ∨ w.Waits e.subject c d) (n m : Nat)
    (hspans : ∀ body, w.program.code[c.ip]? = some (.absent body) →
      Mirrors (fun _ _ => True) (absentEnd (inner n) (w.plain e) body 0 c.pos)
        (absentEnd (inner m) (w.looped e) (w.moved body) 0 c.pos)) :
    ∃ v, Trails (w.looped e) (d.step m (w.looped e)) v ∧
      w.Lands e.subject (c.step n (w.plain e)) v := by
  obtain ⟨L, hlaid, rfl⟩ | hwaits := h
  swap
  · exact ⟨_, .refl _, hwaits.lands hf n m⟩
  by_cases hplace : c.ip = w.place
  · obtain ⟨v, hv, htrails⟩ := loop_trails (e := e) hf (w.shift c L)
      (by rw [shift, hplace, moved_place])
    refine ⟨_, by rw [hv m]; exact htrails, ?_⟩
    have hstep : c.step n (w.plain e) = .ok (c.takeAny (w.plain e) w.multiline w.before) := by
      refine step_eq (i := w.instr) (by rw [hplace]; exact hf.here) (fun _ => ?_) n
      unfold instr
      cases w.before <;> rfl
    rw [hstep]
    exact sweep_lands hf hplace hlaid.loosen
  · cases hi : w.program.code[c.ip]? with
    | none =>
      have hfetch := fetch_moved hf.inside hplace
      rw [hi] at hfetch
      have hnone : (w.plain e).program.code[c.ip]? = none := hi
      have hnone' : (w.looped e).program.code[(w.shift c L).ip]? = none := hfetch
      refine ⟨_, .refl _, ?_⟩
      simp only [Core.step, hnone, hnone']
      exact .error ⟨_, rfl, _, rfl, trivial⟩
    | some i =>
      have hfetch := fetch_moved hf.inside hplace
      rw [hi] at hfetch
      have hsome : (w.plain e).program.code[c.ip]? = some i := hi
      have hsome' : (w.looped e).program.code[(w.shift c L).ip]? = some (i.moveTarget w.moved) :=
        hfetch
      have hmeets := meets_act (e := e) ⟨hf, hplace, hi, hlaid⟩
        (fun body pos => absentEnd (inner n) (w.plain e) body 0 pos)
        (fun body pos => absentEnd (inner m) (w.looped e) body 0 pos)
        fun body hbody => hspans body (hbody ▸ hi)
      simp only [Core.step, hsome, hsome']
      revert hmeets
      generalize c.act (w.plain e) _ i = a, (w.shift c L).act (w.looped e) _ _ = b
      intro hmeets
      cases hmeets with
      | going h => exact ⟨_, .refl _, .going (.inl h)⟩
      | @failing c' L' x h =>
        have hframes := resumeFrom_frames (e := w.looped e) L' { c' with ip := x } L'
        dsimp only at hframes ⊢
        rw [hframes]
        exact resume_trails hf h c' x c'.pos
      | error h => exact ⟨_, .refl _, .error h⟩

/-! ## Runs -/

theorem quiet_plain (hq : Quiet e) : Quiet (w.plain e) :=
  ⟨hq.retries, hq.searchRetries, hq.frames, hq.signal⟩

theorem quiet_looped (hq : Quiet e) : Quiet (w.looped e) :=
  ⟨hq.retries, hq.searchRetries, hq.frames, hq.signal⟩

/-- What one attempt leaves to the next one. -/
def Recalls (s s' : State) : Prop := s'.memo = s.memo ∧ s'.best = s.best

/-- Runs inside a step that end alike keep what matters to the run around them. -/
theorem keeps_inner {e₁ e₂ : Setting} (hq : Quiet e₁) (hq' : Quiet e₂) {n : Nat} {body body' : Addr}
    (h : ∀ pos s s', Recalls s s' → (s.enter e₁ body pos).core.run n e₁ ≠ .broken .late →
      ∃ y, (s'.enter e₂ body' pos).core.Ends e₂ y ∧
        ((s.enter e₁ body pos).core.run n e₁).Like y) :
    Keeps (fun _ _ => True) Recalls (inner n) inner e₁ e₂ body body' := by
  intro pos s s' hs hlate
  have hcore : Ending.of (inner n e₁ body pos s) = (s.enter e₁ body pos).core.run n e₁ :=
    run_core hq n _
  obtain ⟨y, hy, hlike⟩ := h pos s s' hs fun hrun =>
    hlate (Ending.at_late.mp (hcore.trans hrun))
  rw [← hcore] at hlike
  refine (inner_stays hq' hy hlike).mono fun x hx => ?_
  obtain ⟨hhalts, hexhausted, -⟩ := hx.halts
  exact ⟨hhalts, fun hx => ⟨(hexhausted hx).memo, (hexhausted hx).best⟩⟩

/-- Both begin at the same place. -/
theorem level_enter {s s' : State} (hs : Recalls s s') (entry pos : Nat) :
    w.Level t (s.enter (w.plain e) entry pos).core
      (s'.enter (w.looped e) (w.moved entry) pos).core := by
  refine ⟨[], .nil _, ?_⟩
  have hloops : (w.looped e).program.tables.loops.size = w.program.tables.loops.size :=
    Array.size_map ..
  simp only [State.enter, State.core, shift, hs.1, hs.2, hloops]
  rfl

/-- An absent operator of the expanded form is one of the program. -/
theorem absent_of_looped (hf : w.Fits) (h : w.Level e.subject c d ∨ w.Waits e.subject c d)
    {body : Addr} (hb : w.expanded.code[d.ip]? = some (.absent body)) :
    ∃ body', w.program.code[c.ip]? = some (.absent body') ∧ body = w.moved body' := by
  have hother : c.ip ≠ w.place ∧ d.ip = w.moved c.ip := by
    obtain ⟨L, -, rfl⟩ | ⟨hip, -, -, L, -, rfl⟩ := h
    · refine ⟨fun hplace => ?_, rfl⟩
      have hfork := fetch_loop hf.inside (k := 0) (by omega)
      have hhere : w.expanded.code[w.place]? = some (.absent body) := by
        rw [← hb, shift, hplace, moved_place]
      cases hhere.symm.trans hfork
    · exact ⟨by rw [hip]; exact Nat.succ_ne_self _, rfl⟩
  rw [hother.2, fetch_moved hf.inside hother.1] at hb
  cases hi : w.program.code[c.ip]? with
  | none => rw [hi] at hb; cases hb
  | some i =>
    rw [hi] at hb
    cases i <;> cases hb
    exact ⟨_, rfl, rfl⟩

theorem absent_looped (hf : w.Fits) (h : w.Level e.subject c d ∨ w.Waits e.subject c d)
    {body : Addr} (hb : w.program.code[c.ip]? = some (.absent body)) :
    w.expanded.code[d.ip]? = some (.absent (w.moved body)) ∧ d.pos = c.pos := by
  obtain ⟨L, -, rfl⟩ | ⟨hip, ⟨mark, hmark⟩, -, -⟩ := h
  · refine ⟨?_, rfl⟩
    have hother : c.ip ≠ w.place := by
      intro hplace
      rw [hplace, hf.here] at hb
      unfold instr at hb
      cases hbefore : w.before <;> rw [hbefore] at hb <;> cases hb
    change w.expanded.code[w.moved c.ip]? = _
    rw [fetch_moved hf.inside hother, hb]
    rfl
  · rw [hip, hmark] at hb
    cases hb

/-- What an absent operator finds is the same from some clock on. -/
theorem settled {found : Addr → Except Halt (Option Nat)} {g : Nat → Addr → Except Halt (Option Nat)}
    {i : Option Instr} (h : ∀ body, i = some (.absent body) →
      Stays (fun m => g m body) (Mirrors (fun _ _ => True) (found body))) :
    ∃ N, ∀ body, i = some (.absent body) →
      Mirrors (fun _ _ => True) (found body) (g N body) ∧ ∀ m, N ≤ m → g m body = g N body := by
  by_cases hb : ∃ body, i = some (.absent body)
  · obtain ⟨body, rfl⟩ := hb
    obtain ⟨N, v, hv, hN⟩ := h body rfl
    have hsame (m : Nat) (hm : N ≤ m) : g m body = v := hN m hm
    refine ⟨N, fun body' hb' => ?_⟩
    cases hb'
    rw [hsame N (Nat.le_refl N)]
    exact ⟨hv, hsame⟩
  · exact ⟨0, fun body hb' => absurd ⟨body, hb'⟩ hb⟩

/-- Where the run of the program ends, that of its expanded form ends too, and alike. -/
theorem run_follows (hf : w.Fits) (n : Nat) {e : Setting} {c d : Core} (hq : Quiet e)
    (h : w.Level e.subject c d ∨ w.Waits e.subject c d)
    (hlate : c.run n (w.plain e) ≠ .broken .late) :
    ∃ y, d.Ends (w.looped e) y ∧ (c.run n (w.plain e)).Like y := by
  induction n generalizing e c d with
  | zero => exact absurd rfl hlate
  | succ n ih =>
    rw [run_after] at hlate ⊢
    -- What the bodies of absent operators come to is known from runs with less time.
    have hfound : ∀ body, w.program.code[c.ip]? = some (.absent body) →
        Stays (fun m => absentEnd (inner m) (w.looped e) (w.moved body) 0 c.pos)
          (Mirrors (fun _ _ => True) (absentEnd (inner n) (w.plain e) body 0 c.pos)) := by
      intro body hb
      have hkeeps (stop : Nat) : Keeps (fun _ _ => True) Recalls (inner n) inner
          ((w.plain e).upTo stop 0) ((w.looped e).upTo stop 0) body (w.moved body) := by
        have hquiet : Quiet (e.upTo stop 0) :=
          ⟨hq.retries, hq.searchRetries, hq.frames, fun _ => hq.signal 0⟩
        exact keeps_inner (quiet_plain hquiet) (quiet_looped hquiet) fun pos s s' hs hrun =>
          ih hquiet (.inl (level_enter hs body pos)) hrun
      refine absentEnd_follows ?_ ⟨rfl, rfl⟩ hkeeps fun hx => ?_
      · rfl
      · exact hlate (by rw [step_late (e := w.plain e) hb hx]; rfl)
    obtain ⟨N, hN⟩ := settled hfound
    have hstep : ∀ m, N ≤ m → d.step m (w.looped e) = d.step N (w.looped e) := by
      intro m hm
      refine Core.step_congr fun body hb => ?_
      obtain ⟨body', hb', rfl⟩ := absent_of_looped hf h hb
      rw [(absent_looped hf h hb').2]
      exact (hN body' hb').2 m hm
    obtain ⟨v, htrails, hlands⟩ := steps_land hf h n N fun body hb => (hN body hb).1
    generalize c.step n (w.plain e) = u at hlate hlands
    cases hlands with
    | error hlike =>
      refine ⟨_, (htrails.ends (endsAfter_error fun hy => hlate ?_)).ends hstep, hlike⟩
      exact hlike.late_iff.mp hy
    | going hnext =>
      obtain ⟨y, hends, hlike⟩ := ih hq hnext hlate
      exact ⟨y, (htrails.ends (endsAfter_ok hends)).ends hstep, hlike⟩

/-- Where the run of the expanded form ends, that of the program does too. -/
theorem run_precedes (hf : w.Fits) (n : Nat) {e : Setting} {c d : Core} (hq : Quiet e)
    (h : w.Level e.subject c d ∨ w.Waits e.subject c d)
    (hlate : d.run n (w.looped e) ≠ .broken .late) :
    ∃ y, c.Ends (w.plain e) y ∧ y.Like (d.run n (w.looped e)) := by
  induction n using Nat.strongRecOn generalizing e c d with
  | _ n ih =>
    cases n with
    | zero => exact absurd rfl hlate
    | succ n =>
      rw [run_after] at hlate ⊢
      have hfound : ∀ body, w.program.code[c.ip]? = some (.absent body) →
          Stays (fun m => absentEnd (inner m) (w.plain e) body 0 c.pos)
            (Mirrors (fun _ _ => True)
              (absentEnd (inner n) (w.looped e) (w.moved body) 0 c.pos)) := by
        intro body hb
        obtain ⟨hb', hpos⟩ := absent_looped hf h hb
        have hkeeps (stop : Nat) : Keeps (fun _ _ => True) Recalls (inner n) inner
            ((w.looped e).upTo stop 0) ((w.plain e).upTo stop 0) (w.moved body) body := by
          have hquiet : Quiet (e.upTo stop 0) :=
            ⟨hq.retries, hq.searchRetries, hq.frames, fun _ => hq.signal 0⟩
          refine keeps_inner (quiet_looped hquiet) (quiet_plain hquiet) fun pos s s' hs hrun => ?_
          have hback : Recalls s' s := ⟨hs.1.symm, hs.2.symm⟩
          obtain ⟨y, hends, hlike⟩ :=
            ih n (Nat.lt_succ_self n) hquiet (.inl (level_enter hback body pos)) hrun
          exact ⟨y, hends, hlike.symm⟩
        refine absentEnd_follows ?_ ⟨rfl, rfl⟩ hkeeps fun hx => ?_
        · rfl
        · refine hlate ?_
          rw [step_late (e := w.looped e) hb' (by rw [hpos]; exact hx)]
          rfl
      obtain ⟨N, hN⟩ := settled hfound
      have hstep : ∀ m, N ≤ m → c.step m (w.plain e) = c.step N (w.plain e) := fun m hm =>
        Core.step_congr fun body hb => (hN body hb).2 m hm
      obtain ⟨v, htrails, hlands⟩ := steps_land hf h N n fun body hb =>
        (hN body hb).1.symm
      obtain ⟨k, hk, hafter⟩ := htrails.after hlate
      rw [← hafter] at hlate ⊢
      generalize c.step N (w.plain e) = u at hstep hlands
      cases hlands with
      | error hlike =>
        exact ⟨_, (endsAfter_error fun hy => hlate (hlike.late_iff.mpr hy)).ends hstep, hlike⟩
      | going hnext =>
        obtain ⟨y, hends, hlike⟩ := ih k (by omega) hq hnext hlate
        exact ⟨y, (endsAfter_ok hends).ends hstep, hlike⟩

end Sweep
end RegexMachine
