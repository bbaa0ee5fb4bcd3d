import RegexMachine.Proofs.IdleFrames

/-!
A program and its expanded form step by step. Where the one is at an address of its own, the other
is where that address has moved, and stays so until it comes to the loop; and where an idle frame
resumes the literal ahead fails at once.
-/
namespace RegexMachine
open Machine

/-! ## Endings -/

/-- What runs have in common besides their places in code and subject and their frames. -/
structure Machine.Core.Same (c d : Core) : Prop where
  start : d.start = c.start
  regs : d.regs = c.regs
  memo : d.memo = c.memo
  best : d.best = c.best

/-- Both runs end with the same match, with none, or for the same reason. Faults count as one: their
texts name addresses. -/
def Machine.Ending.Like : Ending → Ending → Prop
  | .accepted c, y => ∃ d, y = .accepted d ∧ d.pos = c.pos ∧ c.Same d
  | .exhausted c, y => ∃ d, y = .exhausted d ∧ c.Same d
  | .broken h, y => ∃ h', y = .broken h' ∧ h.Like (fun _ _ => True) h'

theorem Machine.Ending.like_at {h h' : Halt} {c d : Core} (hlike : h.Like (fun _ _ => True) h')
    (hpos : d.pos = c.pos) (hsame : c.Same d) : (Ending.at h c).Like (Ending.at h' d) := by
  cases h with
  | accepted =>
    obtain rfl : h' = .accepted := hlike
    exact ⟨d, rfl, hpos, hsame⟩
  | exhausted =>
    obtain rfl : h' = .exhausted := hlike
    exact ⟨d, rfl, hsame⟩
  | fault f =>
    obtain ⟨f', rfl, -⟩ := hlike
    exact ⟨.fault f', rfl, f', rfl, trivial⟩
  | _ =>
    obtain rfl := hlike
    exact ⟨_, rfl, rfl⟩

theorem Machine.Core.Same.symm {c d : Core} (h : c.Same d) : d.Same c :=
  ⟨h.start.symm, h.regs.symm, h.memo.symm, h.best.symm⟩

theorem Machine.Halt.Like.symm {h h' : Halt} (hlike : h.Like (fun _ _ => True) h') :
    h'.Like (fun _ _ => True) h := by
  cases h with
  | fault f =>
    obtain ⟨f', rfl, -⟩ := hlike
    exact ⟨f, rfl, trivial⟩
  | _ =>
    obtain rfl := hlike
    exact rfl

theorem Machine.Ending.Like.symm {y y' : Ending} (h : y.Like y') : y'.Like y := by
  cases y with
  | accepted c =>
    obtain ⟨d, rfl, hpos, hsame⟩ := h
    exact ⟨c, rfl, hpos.symm, hsame.symm⟩
  | exhausted c =>
    obtain ⟨d, rfl, hsame⟩ := h
    exact ⟨c, rfl, hsame.symm⟩
  | broken k =>
    obtain ⟨k', rfl, hlike⟩ := h
    exact ⟨k, rfl, hlike.symm⟩

theorem Machine.Ending.Like.late_iff {y y' : Ending} (h : y.Like y') :
    y' = .broken .late ↔ y = .broken .late := by
  have late {y y' : Ending} (h : y.Like y') (hy : y = .broken .late) : y' = .broken .late := by
    subst hy
    obtain ⟨k, rfl, hk⟩ := h
    rw [show k = .late from hk]
  exact ⟨late h.symm, late h⟩

/-- Runs that end alike stop for the same reason, and if nothing was found, alike in all else. -/
theorem Machine.Ending.Like.halts {h h' : Halt} {c d : Core}
    (hlike : (Ending.at h c).Like (Ending.at h' d)) :
    h.Like (fun _ _ => True) h' ∧ (h = .exhausted → c.Same d) ∧
      (h = .accepted → d.pos = c.pos ∧ c.Same d) := by
  cases h with
  | accepted =>
    obtain ⟨d', heq, hpos, hsame⟩ := hlike
    cases h' <;> cases heq
    exact ⟨rfl, nofun, fun _ => ⟨hpos, hsame⟩⟩
  | exhausted =>
    obtain ⟨d', heq, hsame⟩ := hlike
    cases h' <;> cases heq
    exact ⟨rfl, fun _ => hsame, nofun⟩
  | _ =>
    obtain ⟨k, heq, hk⟩ := hlike
    cases h' <;> cases heq <;> exact ⟨hk, nofun, nofun⟩

theorem Machine.Mirrors.symm {α : Type} {v v' : Except Halt α} (h : Mirrors (fun _ _ => True) v v') :
    Mirrors (fun _ _ => True) v' v := by
  cases v with
  | ok a =>
    obtain rfl : v' = .ok a := h
    exact rfl
  | error k =>
    obtain ⟨k', rfl, hk⟩ := h
    exact ⟨k, rfl, hk.symm⟩

namespace Sweep

/-- A run of the program itself. -/
def plain (w : Sweep) (e : Setting) : Setting := { e with program := w.program }

/-- The same run of its expanded form. -/
def looped (w : Sweep) (e : Setting) : Setting := { e with program := w.expanded }

/-- The core with other frames, where its address has moved. -/
def shift (w : Sweep) (c : Core) (L : List Frame) : Core :=
  { c with ip := w.moved c.ip, frames := L }

/-- Both are at the same place with the same registers. -/
def Level (w : Sweep) (t : Subject) (c d : Core) : Prop :=
  ∃ L, w.Laid t (w.isTight c.ip) c.frames L ∧ d = w.shift c L

/-- What an instruction and its moved form come to. -/
inductive Meets (w : Sweep) (t : Subject) : Except Ending Point → Except Ending Point → Prop
  | going {c d : Core} (h : w.Level t c d) : Meets w t (.ok (.going c)) (.ok (.going d))
  | failing {c : Core} {L : List Frame} {x : Nat} (h : w.Laid t false c.frames L) :
    Meets w t (.ok (.failing c)) (.ok (.failing { c with ip := x, frames := L }))
  | error {y y' : Ending} (h : y.Like y') : Meets w t (.error y) (.error y')

variable {w : Sweep} {e : Setting} {t : Subject} {c : Core} {L : List Frame} {x : Nat} {i : Instr}

theorem level_to (hloose : w.isTight c.ip = false) (h : w.Laid t false c.frames L) :
    w.Level t c { c with ip := w.moved c.ip, frames := L } :=
  ⟨L, by rwa [hloose], rfl⟩

theorem level_next (hx : x ≠ w.place) (hip : c.ip = x + 1) (hloose : w.isTight (x + 1) = false)
    (h : w.Laid t false c.frames L) :
    w.Level t c { c with ip := w.moved x + 1, frames := L } := by
  refine ⟨L, by rwa [hip, hloose], ?_⟩
  rw [shift, hip, moved_succ hx]

theorem meets_fault (f f' : Fault) : w.Meets t (Core.broken f) (Core.broken f') :=
  .error ⟨.fault f', rfl, f', rfl, trivial⟩

/-! ## Instructions -/

/-- What holds where the program is about to execute an instruction other than the one replaced. -/
structure About (w : Sweep) (t : Subject) (c : Core) (i : Instr) (L : List Frame) : Prop where
  fits : w.Fits
  other : c.ip ≠ w.place
  here : w.program.code[c.ip]? = some i
  laid : w.Laid t (w.isTight c.ip) c.frames L

namespace About

/-- It goes on to the next instruction, where the stacks need not be tight. -/
theorem next (h : w.About t c i L) (hi : i.isLoose = true)
    {d : Core} {K : List Frame} (hip : d.ip = c.ip + 1) (hK : w.Laid t false d.frames K) :
    w.Meets t (.ok (.going d)) (.ok (.going { d with ip := w.moved c.ip + 1, frames := K })) :=
  .going (level_next h.other hip (h.fits.loose_next h.here hi) hK)

theorem consume (h : w.About t c i L) (hi : i.isLoose = true) (n : Option Nat) :
    w.Meets t (.ok (c.consume n)) (.ok ((w.shift c L).consume n)) := by
  cases n with
  | none => exact .failing h.laid.loosen
  | some n => exact h.next hi rfl h.laid.loosen

theorem check (h : w.About t c i L) (hi : i.isLoose = true) (ok : Bool) :
    w.Meets t (.ok (c.check ok)) (.ok ((w.shift c L).check ok)) := by
  cases ok with
  | false => exact .failing h.laid.loosen
  | true => exact h.next hi rfl h.laid.loosen

theorem accept (h : w.About t c i L) :
    w.Meets t (c.accept (w.plain e)) ((w.shift c L).accept (w.looped e)) := by
  have hsame : c.Same (w.shift c L) := ⟨rfl, rfl, rfl, rfl⟩
  have hrefused : (w.shift c L).isRefused (w.looped e) = c.isRefused (w.plain e) := rfl
  have hlongest : (w.shift c L).longest (w.looped e) = c.longest (w.plain e) := rfl
  unfold Core.accept
  rw [hrefused, hlongest]
  split
  · exact .failing h.laid.loosen
  · change w.Meets t (if e.options.has .findLongest then if c.pos < c.start then _ else _ else _)
      (if e.options.has .findLongest then if c.pos < c.start then _ else _ else _)
    split
    · split
      · exact meets_fault _ _
      · exact .failing h.laid.loosen
    · exact .error ⟨_, rfl, rfl, hsame⟩

theorem matchCopy (h : w.About t c i L) (hi : i.isLoose = true) (groups : List Nat) (fold : Bool) :
    w.Meets t (.ok (c.matchCopy (w.plain e) groups fold))
      (.ok ((w.shift c L).matchCopy (w.looped e) groups fold)) := by
  have hsame : copyLength? (w.looped e).subject (w.shift c L).regs.captures (w.shift c L).pos fold
      groups = copyLength? (w.plain e).subject c.regs.captures c.pos fold groups := rfl
  unfold Core.matchCopy
  rw [hsame]
  cases copyLength? (w.plain e).subject c.regs.captures c.pos fold groups with
  | some n => exact h.next hi rfl h.laid.loosen
  | none => exact h.check hi _

theorem laid_savedSlot {K : List Frame} (h : w.Laid t false K L) (undo : Bool) (g : Nat) (slot : Slot)
    (hist : History) : w.Laid t false (savedSlot undo g slot hist K) (savedSlot undo g slot hist L) := by
  cases undo with
  | false => exact h
  | true => exact .mark rfl rfl rfl h

theorem openGroup (h : w.About t c i L) (hi : i.isLoose = true) (g : Nat) (undo : Bool) :
    w.Meets t (c.openGroup g undo) ((w.shift c L).openGroup g undo) := by
  have hregs : (w.shift c L).regs = c.regs := rfl
  unfold Core.openGroup
  rw [hregs]
  cases c.regs.captures.slot? g with
  | none => exact meets_fault _ _
  | some slot => exact h.next hi rfl (laid_savedSlot h.laid.loosen undo g slot _)

theorem closeGroup (h : w.About t c i L) (hi : i.isLoose = true) (g : Nat) (undo : Bool) :
    w.Meets t (c.closeGroup (w.plain e) g undo) ((w.shift c L).closeGroup (w.looped e) g undo) := by
  have hregs : (w.shift c L).regs = c.regs := rfl
  unfold Core.closeGroup
  rw [hregs]
  cases c.regs.captures.slot? g with
  | none => exact meets_fault _ _
  | some slot =>
    dsimp only
    cases slot.start with
    | none => exact meets_fault _ _
    | some start => exact h.next hi rfl (laid_savedSlot h.laid.loosen undo g slot _)

theorem keepOut (h : w.About t c i L) (hi : i.isLoose = true) :
    w.Meets t (.ok (.going c.keepOut)) (.ok (.going (w.shift c L).keepOut)) :=
  h.next hi rfl (.mark rfl rfl rfl h.laid.loosen)

/-- Another address of the program. -/
theorem goTo (h : w.About t c i L) (hloose : w.isTight x = false) :
    w.Meets t (.ok (.going (c.goTo x))) (.ok (.going ((w.shift c L).goTo (w.moved x)))) :=
  .going (level_to (c := c.goTo x) hloose h.laid.loosen)

/-! ### Counted loops -/

theorem laid_alternative {K : List Frame} (h : w.Laid t false K L) {tight : Bool} {x : Nat}
    (hx : w.isTight x = false) (pos : Nat) :
    w.Laid t tight (.alternative x pos :: K) (.alternative (w.moved x) pos :: L) :=
  .frame (fun y hy => by cases hy; exact hx) h

theorem roundChoice (h : w.About t c i L) {id : Nat} (hid : i.loop? = some id) {l : CountedLoop}
    (hl : w.program.tables.loops[id]? = some l) (before rounds : Nat) :
    w.Meets t (.ok (.going (Machine.roundChoice l (c.counting id before rounds))))
      (.ok (.going (Machine.roundChoice { l with body := w.moved l.body, exit := w.moved l.exit }
        ((w.shift c L).counting id before rounds)))) := by
  obtain ⟨hbody, hexit⟩ := h.fits.loose_loop h.here hid hl
  have hlaid : w.Laid t false (.count id before :: c.frames) (.count id before :: L) :=
    .mark rfl rfl rfl h.laid.loosen
  unfold Machine.roundChoice
  dsimp only
  split
  · exact .going (level_to hbody (laid_alternative hlaid hexit c.pos))
  · exact .going (level_to hexit (laid_alternative hlaid hbody c.pos))

theorem loop {id : Nat} {turn turn' : CountedLoop → Nat → Core}
    (hturn : ∀ l n, w.program.tables.loops[id]? = some l →
      w.Meets t (.ok (.going (turn l n))) (.ok (.going
        (turn' { l with body := w.moved l.body, exit := w.moved l.exit } n)))) :
    w.Meets t (c.loop (w.plain e) id turn) ((w.shift c L).loop (w.looped e) id turn') := by
  have hloop : (w.looped e).program.tables.loops[id]? =
      ((w.plain e).program.tables.loops[id]?).map fun l =>
        { l with body := w.moved l.body, exit := w.moved l.exit } := Array.getElem?_map ..
  have hcounts : (w.shift c L).regs.counts = c.regs.counts := rfl
  unfold Core.loop
  rw [hloop, hcounts]
  cases hl : (w.plain e).program.tables.loops[id]? with
  | none => exact meets_fault _ _
  | some l =>
    cases c.regs.counts[id]? with
    | none => exact meets_fault _ _
    | some n => exact hturn l n hl

theorem enterLoop (h : w.About t c i L) {id : Nat} (hid : i.loop? = some id) :
    w.Meets t (c.enterLoop (w.plain e) id) ((w.shift c L).enterLoop (w.looped e) id) := by
  refine loop fun l n hl => ?_
  have hlaid : w.Laid t false (.count id n :: c.frames) (.count id n :: L) :=
    .mark rfl rfl rfl h.laid.loosen
  obtain ⟨hbody, -⟩ := h.fits.loose_loop h.here hid hl
  dsimp only
  split
  · exact h.roundChoice hid hl n 0
  · exact .going (level_to (c := (c.counting id n 0).goTo l.body) hbody hlaid)

theorem endRound (h : w.About t c i L) {id : Nat} (hid : i.loop? = some id) :
    w.Meets t (c.endRound (w.plain e) id) ((w.shift c L).endRound (w.looped e) id) := by
  refine loop fun l n hl => ?_
  have hlaid : w.Laid t false (.count id n :: c.frames) (.count id n :: L) :=
    .mark rfl rfl rfl h.laid.loosen
  obtain ⟨hbody, hexit⟩ := h.fits.loose_loop h.here hid hl
  dsimp only
  split
  · exact .going (level_to (c := (c.counting id n (n + 1)).goTo l.exit) hexit hlaid)
  · split
    · exact .going (level_to (c := (c.counting id n (n + 1)).goTo l.body) hbody hlaid)
    · exact h.roundChoice hid hl n (n + 1)

/-! ### Markers -/

theorem atMarker (h : w.About t c i L) {what : Missing} {q : Frame → Bool}
    {turn turn' : List Frame → Frame → List Frame → Point}
    (hq : ∀ f, q (f.moveAddr w.moved) = q f) (hidle : ∀ f, w.Idle t f → q f = false)
    (hturn : ∀ F m K F' m' K', Laid.View w t false (F, m, K) (F', m', K') →
      w.Meets t (.ok (turn F m K)) (.ok (turn' F' m' K'))) :
    w.Meets t (c.atMarker what q turn) ((w.shift c L).atMarker what q turn') := by
  have hrel := h.laid.loosen.locate hq hidle 0
  have hframes : (w.shift c L).frames = L := rfl
  unfold Core.atMarker
  rw [hframes]
  revert hrel
  generalize locate q 0 c.frames = a, locate q 0 L = b
  intro hrel
  cases hrel with
  | none => exact meets_fault _ _
  | some hview => exact hturn _ _ _ _ _ _ hview

theorem isRound_moveAddr (check : Nat) (g : Addr → Addr) (f : Frame) :
    FrameStack.isRound check (f.moveAddr g) = FrameStack.isRound check f := by
  cases f <;> rfl

theorem isLook_moveAddr (mark : Nat) (g : Addr → Addr) (f : Frame) :
    FrameStack.isLook mark (f.moveAddr g) = FrameStack.isLook mark f := by
  cases f <;> rfl

theorem isAtomic_moveAddr (mark : Nat) (g : Addr → Addr) (f : Frame) :
    FrameStack.isAtomic mark (f.moveAddr g) = FrameStack.isAtomic mark f := by
  cases f <;> rfl

theorem savedPos_moveAddr (g : Addr → Addr) (f : Frame) :
    FrameStack.savedPos (f.moveAddr g) = FrameStack.savedPos f := by
  cases f <;> rfl

/-- An idle frame is no marker. -/
theorem idle_not {q : Frame → Bool} {f : Frame} (hvoid : q .void = false)
    (halternative : ∀ ip pos, q (.alternative ip pos) = false) (hf : w.Idle t f) : q f = false := by
  obtain ⟨b, -, rfl | ⟨pos, i, rfl, -⟩⟩ := hf
  · exact hvoid
  · exact halternative _ _

theorem checkRound (h : w.About t c i L) {id : Nat} {captures : Bool}
    (hround : i = .roundEnd id captures) :
    w.Meets t (c.checkRound id captures) ((w.shift c L).checkRound id captures) := by
  subst hround
  refine h.atMarker (isRound_moveAddr id _) (fun f => idle_not rfl fun _ _ => rfl)
    fun F m K F' m' K' hview => ?_
  have hmarker : m' = m.moveAddr w.moved := hview.marker
  have hpos : (w.shift c L).pos = c.pos := rfl
  have hregs : (w.shift c L).regs = c.regs := rfl
  have hnext := h.fits.unskipped _ _ _ h.here
  rw [hmarker, savedPos_moveAddr, hpos, hregs]
  simp only [show F'.any (changed c.regs.captures) = F.any (changed c.regs.captures) from
    hview.changed _]
  split
  · have hmoved : w.moved (c.ip + 2) = w.moved c.ip + 2 := by
      rw [moved_succ hnext, moved_succ h.other]
    have := h.goTo (h.fits.loose_skip h.here)
    rwa [hmoved] at this
  · exact h.next rfl rfl h.laid.loosen

theorem endLook (h : w.About t c i L) (hi : i.isLoose = true) (mark : Nat) :
    w.Meets t (c.endLook mark) ((w.shift c L).endLook mark) := by
  refine h.atMarker (isLook_moveAddr mark _) (fun f => idle_not rfl fun _ _ => rfl)
    fun F m K F' m' K' hview => ?_
  have hmarker : m' = m.moveAddr w.moved := hview.marker
  rw [hmarker, savedPos_moveAddr]
  exact h.next hi rfl hview.closed.dropVoids

theorem endAtomic (h : w.About t c i L) (hi : i.isLoose = true) (mark : Nat) :
    w.Meets t (c.endAtomic mark) ((w.shift c L).endAtomic mark) :=
  h.atMarker (isAtomic_moveAddr mark _) (fun _ => idle_not rfl fun _ _ => rfl)
    fun _ _ _ _ _ _ hview => h.next hi rfl hview.closed.dropVoids

theorem checkPos (h : w.About t c i L) (hi : i.isLoose = true) (mark : Nat) :
    w.Meets t (c.checkPos mark) ((w.shift c L).checkPos mark) := by
  refine h.atMarker (isLook_moveAddr mark _) (fun f => idle_not rfl fun _ _ => rfl)
    fun F m K F' m' K' hview => ?_
  have hmarker : m' = m.moveAddr w.moved := hview.marker
  rw [hmarker, savedPos_moveAddr]
  exact h.check hi _

/-! ### Alternatives that are dropped -/

theorem fork (h : w.About t c i L) {a : Nat} (hi : i = .fork a) :
    w.Meets t (.ok (.going (c.push (.alternative a c.pos)).next))
      (.ok (.going ((w.shift c L).push (.alternative (w.moved a) c.pos)).next)) := by
  subst hi
  refine .going ⟨.alternative (w.moved a) c.pos :: L, ?_, ?_⟩
  · exact laid_alternative h.laid.loosen (h.fits.loose_target h.here rfl) c.pos
  · change _ = { c with ip := w.moved (c.ip + 1), frames := .alternative (w.moved a) c.pos :: L }
    rw [moved_succ h.other]
    rfl

theorem lookStart (h : w.About t c i L) {mark : Nat} (hi : i = .lookStart mark) :
    w.Meets t (.ok (.going (c.push (.look mark c.pos)).next))
      (.ok (.going ((w.shift c L).push (.look mark c.pos)).next)) := by
  subst hi
  have hown : w.owns (.look mark c.pos) = w.isTight c.ip := by
    simp only [owns, isTight, Program.isSealed, h.here]
  refine h.next (d := (c.push (.look mark c.pos)).next) rfl rfl ?_
  exact .frame (f := .look mark c.pos) (fun x hx => absurd hx.symm (Option.some_ne_none x))
    (by rw [hown]; exact h.laid)

theorem unwind (h : w.About t c i L) {mark : Nat} (hi : i = .unwind mark) :
    w.Meets t (c.unwind w.program mark) ((w.shift c L).unwind w.expanded mark) := by
  subst hi
  have hframes : (w.shift c L).frames = L := rfl
  have hregs : (w.shift c L).regs = c.regs := rfl
  unfold Core.unwind
  rw [hframes, hregs]
  rcases h.laid.unwound mark 0 c.regs with
    ⟨what, hp, hq⟩ | ⟨K', L', r', hp, hq, hlaid⟩
  · rw [hp, hq]
    exact meets_fault _ _
  · rw [hp, hq]
    refine .going ⟨L', ?_, ?_⟩
    · cases htight : w.isTight (c.ip + 1) with
      | false => exact hlaid.loosen
      | true =>
        have hunwinds : (w.before.isSome && w.program.unwinds mark) = true := by
          simp only [isTight, Bool.and_eq_true] at htight ⊢
          exact ⟨htight.1, h.fits.unwinds_of_tight htight.1 h.here htight.2⟩
        rwa [hunwinds] at hlaid
    · change _ = { c with ip := w.moved (c.ip + 1), frames := L', regs := r' }
      rw [moved_succ h.other]
      rfl

theorem drop (h : w.About t c i L) (hi : i = .drop) :
    w.Meets t c.drop (w.shift c L).drop := by
  subst hi
  have htight : w.isTight c.ip = true ∨ w.before = none := by
    simp only [isTight, Program.isSealed, h.here, Bool.and_true]
    cases w.before <;> simp
  have hframes : (w.shift c L).frames = L := rfl
  unfold Core.drop
  rw [hframes]
  rcases h.laid.top htight with ⟨hK, rfl⟩ | ⟨f, K, L', hK, rfl, hlaid⟩
  · rw [hK]
    exact meets_fault _ _
  · rw [hK]
    exact h.next rfl rfl hlaid

/-! ### Choices -/

theorem stepBack (h : w.About t c i L) (hi : i.isLoose = true) (min : Nat) (max : Option Nat) :
    w.Meets t (.ok (c.stepBack e.subject min max))
      (.ok ((w.shift c L).stepBack e.subject min max)) := by
  have hpos : (w.shift c L).pos = c.pos := rfl
  unfold Core.stepBack
  rw [hpos]
  cases back? e.subject c.pos min with
  | none => exact .failing h.laid.loosen
  | some p =>
    dsimp only
    split
    · refine h.next hi rfl ?_
      have hframe : w.Laid t false (.stepBack (c.ip + 1) p (max.map (· - min)) :: c.frames)
          (.stepBack (w.moved (c.ip + 1)) p (max.map (· - min)) :: L) :=
        .frame (fun y hy => by cases hy; exact h.fits.loose_next h.here hi) h.laid.loosen
      rwa [moved_succ h.other] at hframe
    · exact h.next hi rfl h.laid.loosen

theorem takeAbsent (h : w.About t c i L) (hi : i.isLoose = true)
    {found found' : Except Halt (Option Nat)} (hfound : Mirrors (fun _ _ => True) found found') :
    w.Meets t (c.takeAbsent found) ((w.shift c L).takeAbsent found') := by
  unfold Core.takeAbsent
  cases found with
  | error k =>
    obtain ⟨k', rfl, hk⟩ := hfound
    refine .error (Ending.like_at hk rfl ⟨rfl, rfl, rfl, rfl⟩)
  | ok found =>
    obtain rfl : found' = .ok found := hfound
    cases found with
    | none => exact .failing h.laid.loosen
    | some stop =>
      have hpos : (w.shift c L).pos = c.pos := rfl
      dsimp only
      rw [hpos]
      split
      · refine h.next hi rfl ?_
        have hframe : w.Laid t false (.absent (c.ip + 1) c.pos stop :: c.frames)
            (.absent (w.moved (c.ip + 1)) c.pos stop :: L) :=
          .frame (fun y hy => by cases hy; exact h.fits.loose_next h.here hi) h.laid.loosen
        rwa [moved_succ h.other] at hframe
      · exact h.next hi rfl h.laid.loosen

theorem passGuard (h : w.About t c i L) (hi : i.isLoose = true) (site : Nat) (within : Option Nat) :
    w.Meets t (c.passGuard site within) ((w.shift c L).passGuard site within) := by
  have hmemo : (w.shift c L).memo = c.memo := rfl
  have hpos : (w.shift c L).pos = c.pos := rfl
  unfold Core.passGuard
  rw [hmemo, hpos]
  cases c.memo with
  | none => exact h.next hi rfl h.laid.loosen
  | some memo =>
    have hpass : w.Meets t
        (.ok (if memo.hasFailed site c.pos then .failing c
          else .going (c.push (.guard site c.pos)).next))
        (.ok (if memo.hasFailed site c.pos then .failing (w.shift c L)
          else .going ((w.shift c L).push (.guard site c.pos)).next)) := by
      split
      · exact .failing h.laid.loosen
      · exact h.next hi rfl (.mark rfl rfl rfl h.laid.loosen)
    cases within with
    | none => exact hpass
    | some id =>
      refine h.atMarker (isRound_moveAddr id _) (fun _ => idle_not rfl fun _ _ => rfl)
        fun F m K F' m' K' hview => ?_
      have hmarker : m' = m.moveAddr w.moved := hview.marker
      rw [hmarker, savedPos_moveAddr]
      split
      · exact h.next hi rfl h.laid.loosen
      · exact hpass

/-- Alternatives that are left at the same places. -/
theorem laid_afterAny {K L : List Frame} {x y : Nat} (hx : w.isTight x = false) (hy : w.moved x = y)
    (wanted : Nat → Bool) (ps : List Nat) (h : w.Laid t false K L) :
    w.Laid t false (afterAny wanted x K ps).1 (afterAny wanted y L ps).1 ∧
      (afterAny wanted y L ps).2 = (afterAny wanted x K ps).2 := by
  match ps with
  | [] => exact ⟨h, rfl⟩
  | [_] => exact ⟨h, rfl⟩
  | p :: q :: ps =>
    unfold afterAny
    cases wanted p with
    | false => exact laid_afterAny hx hy wanted (q :: ps) h
    | true =>
      have hframe : w.Laid t false (.alternative x p :: K) (.alternative y p :: L) :=
        hy ▸ laid_alternative h hx p
      exact laid_afterAny hx hy wanted (q :: ps) hframe

theorem takeAny (h : w.About t c i L) (hi : i.isLoose = true) (multiline : Bool)
    (before : Option UInt8) :
    w.Meets t (.ok (.going (c.takeAny (w.plain e) multiline before)))
      (.ok (.going ((w.shift c L).takeAny (w.looped e) multiline before))) := by
  obtain ⟨hlaid, hpos⟩ := laid_afterAny (h.fits.loose_next h.here hi) (moved_succ h.other)
    (fun i => before.all fun b => e.subject.bytes[i]? == some b)
    (anyPlaces e.subject multiline c.pos) h.laid.loosen
  have hnext := h.next (d := c.takeAny (w.plain e) multiline before) hi rfl hlaid
  have hshift : (w.shift c L).takeAny (w.looped e) multiline before =
      { c.takeAny (w.plain e) multiline before with
        ip := w.moved c.ip + 1
        frames := (afterAny (fun i => before.all fun b => e.subject.bytes[i]? == some b)
          (w.moved c.ip + 1) L (anyPlaces e.subject multiline c.pos)).1 } := by
    unfold Core.takeAny
    dsimp only
    congr 1
  rw [hshift]
  exact hnext

/-! ### Calls -/

theorem enterCall (h : w.About t c i L) {target sub : Nat} (hi : i = .call target sub) :
    w.Meets t (c.enterCall (w.plain e) target sub)
      ((w.shift c L).enterCall (w.looped e) (w.moved target) sub) := by
  subst hi
  have hregs : (w.shift c L).regs = c.regs := rfl
  unfold Core.enterCall
  change w.Meets t (if e.limits.callDepth ≤ c.regs.depth then _ else _)
    (if e.limits.callDepth ≤ c.regs.depth then _ else _)
  split
  · exact .error ⟨_, rfl, rfl⟩
  · have hsame : (w.shift c L).regs.called (w.looped e).program sub =
        c.regs.called (w.plain e).program sub := called_expanded ..
    rw [hsame]
    cases c.regs.called (w.plain e).program sub with
    | error f => exact meets_fault _ _
    | ok saved =>
      have hframe : w.Laid t false (.call (c.ip + 1) sub saved :: c.frames)
          (.call (w.moved (c.ip + 1)) sub saved :: L) :=
        .frame (fun y hy => by cases hy; exact h.fits.loose_next h.here rfl) h.laid.loosen
      rw [moved_succ h.other] at hframe
      exact .going (level_to (c := { c with
        ip := target
        frames := .call (c.ip + 1) sub saved :: c.frames
        regs := { c.regs with depth := c.regs.depth + 1 } })
        (h.fits.loose_target h.here rfl) hframe)

theorem leaveCall (h : w.About t c i L) :
    w.Meets t (c.leaveCall w.program) ((w.shift c L).leaveCall w.expanded) := by
  have hframes : (w.shift c L).frames = L := rfl
  have hregs : (w.shift c L).regs = c.regs := rfl
  obtain ⟨hcall, hback⟩ := h.laid.callFrom 0
  unfold Core.leaveCall
  rw [hframes, hregs, hcall]
  cases hc : FrameStack.callFrom 0 c.frames with
  | none => exact meets_fault _ _
  | some call =>
    obtain ⟨back, sub, saved⟩ := call
    simp only [Option.map_some, called_expanded, setCallState_expanded]
    cases c.regs.called w.program sub with
    | error f => exact meets_fault _ _
    | ok undo =>
      dsimp only
      split
      · exact meets_fault _ _
      · exact .going (level_to (c := { c with
          ip := back
          frames := .returned sub undo :: c.frames
          regs := { c.regs.setCallState w.program sub saved with depth := c.regs.depth - 1 } })
          (hback back sub saved hc) (.mark rfl rfl rfl h.laid.loosen))

end About

/-- An instruction and its moved form come to the same. -/
theorem meets_act (h : w.About e.subject c i L)
    (spans spans' : Addr → Nat → Except Halt (Option Nat))
    (hspans : ∀ body, i = .absent body →
      Mirrors (fun _ _ => True) (spans body c.pos) (spans' (w.moved body) c.pos)) :
    w.Meets e.subject (c.act (w.plain e) spans i)
      ((w.shift c L).act (w.looped e) spans' (i.moveTarget w.moved)) := by
  cases i with
  | accept => exact h.accept
  | anyChars multiline => exact h.takeAny rfl multiline none
  | anyCharsBefore multiline b => exact h.takeAny rfl multiline (some b)
  | anchor a => exact h.check rfl _
  | backref groups fold => exact h.matchCopy rfl groups fold
  | ifSet groups otherwise =>
    change w.Meets e.subject
      (.ok (.going (c.goTo (if groups.any c.regs.captures.isSet then c.ip + 1 else otherwise))))
      (.ok (.going ((w.shift c L).goTo (if groups.any c.regs.captures.isSet then w.moved c.ip + 1
        else w.moved otherwise))))
    split
    · exact h.next rfl rfl h.laid.loosen
    · exact h.goTo (h.fits.loose_target h.here rfl)
  | groupStart g undo => exact h.openGroup rfl g undo
  | groupEnd g undo => exact h.closeGroup rfl g undo
  | groupEndRecursive g => exact h.closeGroup rfl g true
  | keep => exact h.keepOut rfl
  | fail => exact .failing h.laid.loosen
  | jump target => exact h.goTo (h.fits.loose_target h.here rfl)
  | fork a => exact h.fork rfl
  | drop => exact h.drop rfl
  | repeatEnter id => exact h.enterLoop rfl
  | repeatNext id => exact h.endRound rfl
  | roundStart id => exact h.next rfl rfl (.mark rfl rfl rfl h.laid.loosen)
  | roundEnd id captures => exact h.checkRound rfl
  | lookStart mark => exact h.lookStart rfl
  | lookEnd mark => exact h.endLook rfl mark
  | atomicStart mark => exact h.next rfl rfl (.mark rfl rfl rfl h.laid.loosen)
  | atomicEnd mark => exact h.endAtomic rfl mark
  | unwind mark => exact h.unwind rfl
  | stepBack min max => exact h.stepBack rfl min max
  | checkPos mark => exact h.checkPos rfl mark
  | call target sub => exact h.enterCall rfl
  | ret => exact h.leaveCall
  | guard site within => exact h.passGuard rfl site within
  | absent body => exact h.takeAbsent rfl (hspans body rfl)
  | absentEnd => exact .error ⟨_, rfl, rfl, ⟨rfl, rfl, rfl, rfl⟩⟩
  | _ => exact h.consume rfl _

end Sweep
end RegexMachine
