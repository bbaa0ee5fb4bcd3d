import RegexMachine.Proofs.Instructions

/-!
The machine as a function on cores. Where no limit but that on calls can stop it and nothing
interrupts it, what a run comes to depends on the core of its state only, and is computed here
without the work that is counted and the events that are recorded.
-/
namespace RegexMachine.Machine

/-- How a run ends. Of a run without an answer nothing is told but why it stopped. -/
inductive Ending where
  | accepted (c : Core)
  | exhausted (c : Core)
  | broken (h : Halt)

def Ending.at : Halt → Core → Ending
  | .accepted, c => accepted c
  | .exhausted, c => exhausted c
  | h, _ => broken h

def Ending.of (r : Halt × State) : Ending := Ending.at r.1 r.2.core

/-! ## Frames -/

/-- The frames of the current invocation down to the topmost one that passes a test, that frame, and
those below. The list lies inside `level` invocations that have returned. -/
def locate (q : Frame → Bool) : (level : Nat) → List Frame → Option (List Frame × Frame × List Frame)
  | _, [] => none
  | level, f :: K =>
    let below (level : Nat) := (locate q level K).map fun (F, m, L) => (f :: F, m, L)
    match f with
    | .returned _ _ => below (level + 1)
    | .call _ _ _ => if level = 0 then none else below (level - 1)
    | f => if level = 0 && q f then some ([], f, K) else below level

/-- What is left when everything above the start of a look around has been undone. -/
def unwound (p : Program) (mark : Nat) : (level : Nat) → List Frame → Registers →
    Except Missing (List Frame × Registers)
  | _, [], _ => .error .look
  | level, f :: K, r =>
    if level == 0 && FrameStack.isLook mark f then .ok (K, r)
    else
      match f with
      | .returned _ _ => unwound p mark (level + 1) K (r.undo p f)
      | .call _ _ _ =>
        if level == 0 then .error .matchingCall else unwound p mark (level - 1) K (r.undo p f)
      | _ => unwound p mark level K (r.undo p f)

/-- The core at which the first of some frames resumes that can. -/
def resumeFrom (e : Setting) : List Frame → Core → Except Ending Core
  | [], c => .error (.exhausted { c with frames := [] })
  | .alternative ip pos :: K, c => .ok { c with ip := ip, pos := pos, frames := K }
  | .stepBack ip pos more :: K, c =>
    match e.subject.prev? pos with
    | none => resumeFrom e K c
    | some p =>
      .ok { c with
        ip := ip, pos := p
        frames := if more.all (1 < ·) && 0 < p then .stepBack ip p (more.map (· - 1)) :: K else K }
  | .absent ip start stop :: K, c =>
    match (e.subject.prev? stop).filter (start ≤ ·) with
    | none => resumeFrom e K c
    | some p =>
      .ok { c with
        ip := ip, pos := p
        frames := if start < p then .absent ip start p :: K else K }
  | .guard site pos :: K, c =>
    resumeFrom e K { c with memo := c.memo.map (·.markFailed site pos) }
  | f :: K, c => resumeFrom e K { c with regs := c.regs.undo e.program f }

/-- A frame that is no choice is undone. -/
theorem resumeFrom_undo {e : Setting} {f : Frame} (hf : f.isChoice = false) (K : List Frame)
    (c : Core) :
    resumeFrom e (f :: K) c = resumeFrom e K { c with regs := c.regs.undo e.program f } := by
  cases f <;> first | rfl | cases hf

/-! ## Instructions -/

/-- What a call of a subroutine saves. -/
def Registers.called (r : Registers) (p : Program) (sub : Nat) : Except Fault CallState :=
  let subs := p.tables.subroutines
  match subs[sub]? with
  | none => .error (.outside subs.size sub)
  | some s =>
    let groups := r.captures.slots.size
    match r.captures.starts? s.captures with
    | none => .error (.outside groups (max groups s.captures.first))
    | some starts =>
      if s.loops.stop < s.loops.first then .error (.rangeReversed s.loops.first s.loops.stop)
      else if r.counts.size < s.loops.stop then .error (.rangeOutside s.loops.stop r.counts.size)
      else .ok ⟨starts, (r.counts.extract s.loops.first s.loops.stop).toList⟩

namespace Core

def next (c : Core) : Core := { c with ip := c.ip + 1 }

def goTo (c : Core) (a : Addr) : Core := { c with ip := a }

def push (c : Core) (f : Frame) : Core := { c with frames := f :: c.frames }

def consume (c : Core) : Option Nat → Point
  | some n => .going { c with ip := c.ip + 1, pos := c.pos + n }
  | none => .failing c

def check (c : Core) (ok : Bool) : Point := if ok then .going c.next else .failing c

def broken (f : Fault) : Except Ending Point := .error (.broken (.fault f))

def missing (c : Core) (what : Missing) : Except Ending Point := broken (.missing what c.ip)

def accept (e : Setting) (c : Core) : Except Ending Point :=
  if c.isRefused e then .ok (.failing c)
  else if e.options.has .findLongest then
    if c.pos < c.start then broken .underflow
    else .ok (.failing { c with best := c.longest e })
  else .error (.accepted c)

def takeAny (e : Setting) (multiline : Bool) (before : Option UInt8) (c : Core) : Core :=
  let wanted := fun i => before.all fun b => e.subject.bytes[i]? == some b
  let after := afterAny wanted (c.ip + 1) c.frames (anyPlaces e.subject multiline c.pos)
  { c with ip := c.ip + 1, frames := after.1, pos := after.2 }

def matchCopy (e : Setting) (groups : List Nat) (fold : Bool) (c : Core) : Point :=
  match copyLength? e.subject c.regs.captures c.pos fold groups with
  | some n => .going { c with ip := c.ip + 1, pos := c.pos + n }
  | none => c.check (e.program.has .unsetMatchesEmpty && !groups.any c.regs.captures.isSet)

def openGroup (g : Nat) (undo : Bool) (c : Core) : Except Ending Point :=
  match c.regs.captures.slot? g with
  | none => broken (.outside c.regs.captures.slots.size g)
  | some slot => .ok (.going { c with
      ip := c.ip + 1
      frames := savedSlot undo g slot c.regs.captures.history c.frames
      regs := { c.regs with
        captures := c.regs.captures.setSlot g { slot with start := some c.pos } } })

def closeGroup (e : Setting) (g : Nat) (undo : Bool) (c : Core) : Except Ending Point :=
  match c.regs.captures.slot? g with
  | none => broken (.outside c.regs.captures.slots.size g)
  | some slot =>
    match slot.start with
    | none => broken (.notOpened g c.ip)
    | some start => .ok (.going { c with
        ip := c.ip + 1
        frames := savedSlot undo g slot c.regs.captures.history c.frames
        regs := { c.regs with
          captures := c.regs.captures.closed g ⟨start, c.pos⟩
            (undo && e.program.has .captureHistory) } })

def keepOut (c : Core) : Core :=
  { (c.push (.keep c.regs.keep)).next with regs := { c.regs with keep := some c.pos } }

/-- Begins or ends a round of a counted loop; `turn` says where it leads. -/
def loop (e : Setting) (id : Nat) (turn : CountedLoop → Nat → Core) (c : Core) :
    Except Ending Point :=
  match e.program.tables.loops[id]?, c.regs.counts[id]? with
  | some l, some n => .ok (.going (turn l n))
  | _, _ => broken (.outside c.regs.counts.size id)

def enterLoop (e : Setting) (id : Nat) (c : Core) : Except Ending Point :=
  c.loop e id fun l n =>
    if l.min = 0 then roundChoice l (c.counting id n 0) else (c.counting id n 0).goTo l.body

def endRound (e : Setting) (id : Nat) (c : Core) : Except Ending Point :=
  c.loop e id fun l n =>
    if l.max.any (· ≤ n + 1) then (c.counting id n (n + 1)).goTo l.exit
    else if n + 1 < l.min then (c.counting id n (n + 1)).goTo l.body
    else roundChoice l (c.counting id n (n + 1))

/-- What is done with a marker, if it is found. -/
def atMarker (c : Core) (what : Missing) (q : Frame → Bool)
    (turn : List Frame → Frame → List Frame → Point) : Except Ending Point :=
  match locate q 0 c.frames with
  | none => c.missing what
  | some (F, m, K) => .ok (turn F m K)

def checkRound (id : Nat) (captures : Bool) (c : Core) : Except Ending Point :=
  c.atMarker .round (FrameStack.isRound id) fun F m _ =>
    let empty := FrameStack.savedPos m == c.pos && !(captures && F.any (changed c.regs.captures))
    .going (c.goTo (if empty then c.ip + 2 else c.ip + 1))

def endLook (mark : Nat) (c : Core) : Except Ending Point :=
  c.atMarker .look (FrameStack.isLook mark) fun F m K =>
    .going { c with ip := c.ip + 1, pos := FrameStack.savedPos m, frames := sealed F K }

def endAtomic (mark : Nat) (c : Core) : Except Ending Point :=
  c.atMarker .atomic (FrameStack.isAtomic mark) fun F _ K =>
    .going { c with ip := c.ip + 1, frames := sealed F K }

def checkPos (mark : Nat) (c : Core) : Except Ending Point :=
  c.atMarker .look (FrameStack.isLook mark) fun _ m _ => c.check (c.pos == FrameStack.savedPos m)

def unwind (p : Program) (mark : Nat) (c : Core) : Except Ending Point :=
  match unwound p mark 0 c.frames c.regs with
  | .error what => c.missing what
  | .ok (K, r) => .ok (.going { c with ip := c.ip + 1, frames := K, regs := r })

def stepBack (t : Subject) (min : Nat) (max : Option Nat) (c : Core) : Point :=
  match back? t c.pos min with
  | none => .failing c
  | some p =>
    let more := max.map (· - min)
    .going { c with
      ip := c.ip + 1, pos := p
      frames := if more.all (0 < ·) && 0 < p then .stepBack (c.ip + 1) p more :: c.frames
        else c.frames }

def drop (c : Core) : Except Ending Point :=
  match c.frames with
  | [] => c.missing .alternative
  | _ :: K => .ok (.going { c with ip := c.ip + 1, frames := K })

def enterCall (e : Setting) (target : Addr) (sub : Nat) (c : Core) : Except Ending Point :=
  let limit := e.limits.callDepth
  if limit ≤ c.regs.depth then .error (.broken (.limit (.callDepth limit)))
  else
    match c.regs.called e.program sub with
    | .error f => broken f
    | .ok saved => .ok (.going { c with
        ip := target
        frames := .call (c.ip + 1) sub saved :: c.frames
        regs := { c.regs with depth := c.regs.depth + 1 } })

def leaveCall (p : Program) (c : Core) : Except Ending Point :=
  match FrameStack.callFrom 0 c.frames with
  | none => c.missing .call
  | some (back, sub, saved) =>
    match c.regs.called p sub with
    | .error f => broken f
    | .ok undo =>
      if c.regs.depth = 0 then broken .underflow
      else .ok (.going { c with
        ip := back
        frames := .returned sub undo :: c.frames
        regs := { c.regs.setCallState p sub saved with depth := c.regs.depth - 1 } })

def passGuard (site : Nat) (within : Option Nat) (c : Core) : Except Ending Point :=
  match c.memo with
  | none => .ok (.going c.next)
  | some memo =>
    let pass : Point :=
      if memo.hasFailed site c.pos then .failing c else .going (c.push (.guard site c.pos)).next
    match within with
    | none => .ok pass
    | some id =>
      c.atMarker .round (FrameStack.isRound id) fun _ m _ =>
        if FrameStack.savedPos m == c.pos then .going c.next else pass

def takeAbsent (found : Except Halt (Option Nat)) (c : Core) : Except Ending Point :=
  match found with
  | .error h => .error (.at h c)
  | .ok none => .ok (.failing c)
  | .ok (some stop) => .ok (.going { c with
      ip := c.ip + 1, pos := stop
      frames := if c.pos < stop then .absent (c.ip + 1) c.pos stop :: c.frames else c.frames })

/-- What an instruction comes to, where `spans` says how far an absent operator reaches. -/
def act (e : Setting) (spans : Addr → Nat → Except Halt (Option Nat)) (i : Instr) (c : Core) :
    Except Ending Point :=
  let t := e.subject
  match i with
  | .accept => c.accept e
  | .byte b => .ok (c.consume (t.byteLength? c.pos b))
  | .text bytes => .ok (c.consume (t.textLength? c.pos bytes))
  | .foldedText bytes => .ok (c.consume (t.foldedLength? c.pos bytes))
  | .charClass k => .ok (c.consume (t.classLength? c.pos k))
  | .charType type negated ascii => .ok (c.consume (t.typeLength? c.pos type negated ascii))
  | .anyChar multiline => .ok (c.consume (t.anyLength? c.pos multiline))
  | .anyChars multiline => .ok (.going (c.takeAny e multiline none))
  | .anyCharsBefore multiline b => .ok (.going (c.takeAny e multiline (some b)))
  | .anchor a => .ok (c.check (t.holds e.origin c.pos a))
  | .backref groups fold => .ok (c.matchCopy e groups fold)
  | .ifSet groups otherwise =>
    .ok (.going (c.goTo (if groups.any c.regs.captures.isSet then c.ip + 1 else otherwise)))
  | .groupStart g undo => c.openGroup g undo
  | .groupEnd g undo => c.closeGroup e g undo
  | .groupEndRecursive g => c.closeGroup e g true
  | .keep => .ok (.going c.keepOut)
  | .fail => .ok (.failing c)
  | .jump target => .ok (.going (c.goTo target))
  | .fork a => .ok (.going (c.push (.alternative a c.pos)).next)
  | .drop => c.drop
  | .repeatEnter id => c.enterLoop e id
  | .repeatNext id => c.endRound e id
  | .roundStart id => .ok (.going (c.push (.round id c.pos)).next)
  | .roundEnd id captures => c.checkRound id captures
  | .lookStart mark => .ok (.going (c.push (.look mark c.pos)).next)
  | .lookEnd mark => c.endLook mark
  | .atomicStart mark => .ok (.going (c.push (.atomic mark)).next)
  | .atomicEnd mark => c.endAtomic mark
  | .unwind mark => c.unwind e.program mark
  | .stepBack min max => .ok (c.stepBack t min max)
  | .checkPos mark => c.checkPos mark
  | .call target sub => c.enterCall e target sub
  | .ret => c.leaveCall e.program
  | .guard site within => c.passGuard site within
  | .absent body => c.takeAbsent (spans body c.pos)
  | .absentEnd => .error (.accepted c)

/-- One step; runs inside it have `n` steps. -/
def step (n : Nat) (e : Setting) (c : Core) : Except Ending Core :=
  match e.program.code[c.ip]? with
  | none => .error (.broken (.fault (.outside e.program.size c.ip)))
  | some i =>
    match c.act e (fun body pos => absentEnd (inner n) e body 0 pos) i with
    | .error x => .error x
    | .ok (.going d) => .ok d
    | .ok (.failing d) => resumeFrom e d.frames d

def run : Nat → Setting → Core → Ending
  | 0, _, _ => .broken .late
  | n + 1, e, c =>
    match c.step n e with
    | .ok d => run n e d
    | .error x => x

end Core

/-! ## Actions -/

/-- What an action comes to from a state, as far as the core of the state tells. -/
def Results (e : Setting) (x : Run Unit) (s : State) : Except Ending Point → Prop
  | .ok (.going d) => ∃ s', s'.core = d ∧ x s = .ok () s'
  | .ok (.failing d) => ∃ s', s'.core = d ∧ x s = backtrack e s'
  | .error y => ∃ h s', Ending.at h s'.core = y ∧ x s = .error h s'

section
variable {e : Setting} {x y : Run Unit} {s t : State}

theorem Results.of_eq {v : Except Ending Point} (h : x s = y t) (hy : Results e y t v) :
    Results e x s v := by
  unfold Results at *
  split <;> simp_all

theorem results_next : Results e next s (.ok (.going s.core.next)) :=
  ⟨{ s with ip := s.ip + 1 }, rfl, rfl⟩

theorem results_goTo (a : Addr) : Results e (goTo a) s (.ok (.going (s.core.goTo a))) :=
  ⟨{ s with ip := a }, rfl, rfl⟩

theorem results_fault (f : Fault) : Results e (fault f) s (Core.broken f) :=
  ⟨.fault f, s, rfl, rfl⟩

theorem results_backtrack : Results e (backtrack e) s (.ok (.failing s.core)) := ⟨s, rfl, rfl⟩

theorem results_check (ok : Bool) : Results e (check e ok) s (.ok (s.core.check ok)) := by
  cases ok with
  | true => exact results_next
  | false => exact results_backtrack

theorem results_consume (n : Option Nat) :
    Results e (consume e n) s (.ok (s.core.consume n)) := by
  cases n with
  | none => exact results_backtrack
  | some n => exact ⟨{ s with ip := s.ip + 1, pos := s.pos + n }, rfl, rfl⟩

theorem results_push (hq : Quiet e) (f : Frame) :
    Results e (push e f *> next) s (.ok (.going (s.core.push f).next)) :=
  ⟨{ s with stack := s.stack.push f, ip := s.ip + 1 }, rfl, bind_push hq f (fun _ => next) s⟩

theorem results_accept : Results e (accept e) s (s.core.accept e) := by
  have hrefused := (accept_eq e (s := s) rfl).1
  unfold Core.accept
  by_cases h : s.core.isRefused e = true
  · rw [if_pos h]
    refine .of_eq (y := backtrack e) (t := s) ?_ results_backtrack
    simp only [accept, bind_get, hrefused, h, ↓reduceIte]
  rw [if_neg h]
  by_cases hlongest : e.options.has .findLongest = true
  · rw [if_pos hlongest]
    change Results e (accept e) s (if s.pos < s.start then _ else _)
    by_cases hlt : s.pos < s.start
    · rw [if_pos hlt]
      refine .of_eq (y := fault .underflow) (t := s) ?_ (results_fault _)
      simp only [accept, bind_get, hrefused, h, hlongest, hlt, ↓reduceIte, Bool.false_eq_true]
      rfl
    · rw [if_neg hlt]
      have hcore : s.core.longest e =
          if s.best.all (·.1 < s.pos - s.start) then some (s.pos - s.start, s.core.region e)
          else s.best := rfl
      rw [hcore]
      by_cases hlonger : s.best.all (·.1 < s.pos - s.start) = true
      · let t := s.emit e (.accept s.matchStart s.pos)
        have ht : t.core = s.core := core_emit _ _ _
        have hregion := (accept_eq e ht).2.2.1
        refine ⟨{ t with best := some (s.pos - s.start, t.region e) }, ?_, ?_⟩
        · change { t.core with best := some (s.pos - s.start, t.region e) } = _
          rw [ht, hregion, if_pos hlonger]
        · simp only [accept, bind_get, hrefused, h, hlongest, hlt, hlonger, ↓reduceIte,
            Bool.false_eq_true, emit, bind_modify]
          rfl
      · refine ⟨s, ?_, ?_⟩
        · rw [if_neg hlonger]
          rfl
        · simp only [accept, bind_get, hrefused, h, hlongest, hlt, hlonger, ↓reduceIte,
            Bool.false_eq_true]
  · rw [if_neg hlongest]
    refine ⟨.accepted, s.emit e (.accept s.matchStart s.pos), ?_, ?_⟩
    · rw [core_emit]
      rfl
    · simp only [accept, bind_get, hrefused, h, hlongest, ↓reduceIte, Bool.false_eq_true, emit,
        bind_modify]
      rfl

/-! ### Groups -/

theorem slotOf_none {g : Nat} (h : s.regs.captures.slot? g = none) :
    slotOf g s = .error (.fault (.outside s.regs.captures.slots.size g)) s := by
  simp only [slotOf, bind_get, h]
  rfl

theorem results_openGroup (hq : Quiet e) (g : Nat) (undo : Bool) :
    Results e (openGroup e g undo) s (s.core.openGroup g undo) := by
  cases h : s.regs.captures.slot? g with
  | none =>
    have hslot : s.core.regs.captures.slot? g = none := h
    rw [Core.openGroup, hslot]
    refine ⟨.fault (.outside s.regs.captures.slots.size g), s, rfl, ?_⟩
    cases undo with
    | false => exact bind_error (slotOf_none h)
    | true => exact bind_error (bind_error (slotOf_none h))
  | some slot =>
    have hslot : s.core.regs.captures.slot? g = some slot := h
    rw [Core.openGroup, hslot]
    obtain ⟨t, ht, hsave⟩ := saveIf_ok hq undo h
    have htslot : t.regs.captures.slot? g = some slot := by
      rw [show t.regs = s.regs from congrArg Core.regs ht]
      exact h
    let u : State := { t with
      ip := t.ip + 1
      regs := { t.regs with
        captures := t.regs.captures.setSlot g { slot with start := some t.pos } } }
    refine ⟨u, ?_, ?_⟩
    · change { t.core with
        ip := t.core.ip + 1
        regs := { t.core.regs with
          captures := t.core.regs.captures.setSlot g
            { slot with start := some t.core.pos } } } = _
      rw [ht]
      rfl
    · simp only [openGroup]
      rw [hsave, bind_ok (slotOf_ok htslot)]
      rfl

theorem results_closeGroup (hq : Quiet e) (g : Nat) (undo : Bool) :
    Results e (closeGroup e g undo) s (s.core.closeGroup e g undo) := by
  cases h : s.regs.captures.slot? g with
  | none =>
    have hslot : s.core.regs.captures.slot? g = none := h
    rw [Core.closeGroup, hslot]
    refine ⟨.fault (.outside s.regs.captures.slots.size g), s, rfl, ?_⟩
    cases undo with
    | false => exact bind_error (slotOf_none h)
    | true => exact bind_error (bind_error (slotOf_none h))
  | some slot =>
    have hslot : s.core.regs.captures.slot? g = some slot := h
    rw [Core.closeGroup, hslot]
    dsimp only
    obtain ⟨t, ht, hsave⟩ := saveIf_ok hq undo h
    have htslot : t.regs.captures.slot? g = some slot := by
      rw [show t.regs = s.regs from congrArg Core.regs ht]
      exact h
    cases hstart : slot.start with
    | none =>
      have hip : t.ip = s.ip := congrArg Core.ip ht
      refine ⟨.fault (.notOpened g t.ip), t, by rw [hip]; rfl, ?_⟩
      simp only [closeGroup]
      rw [hsave, bind_ok (slotOf_ok htslot), bind_get]
      simp only [hstart]
      rfl
    | some start =>
      let u : State := { t with
        ip := t.ip + 1
        regs := { t.regs with
          captures := t.regs.captures.closed g ⟨start, t.pos⟩
            (undo && e.program.has .captureHistory) } }
      refine ⟨u, ?_, ?_⟩
      · change { t.core with
          ip := t.core.ip + 1
          regs := { t.core.regs with
            captures := t.core.regs.captures.closed g ⟨start, t.core.pos⟩
              (undo && e.program.has .captureHistory) } } = _
        rw [ht]
        rfl
      · simp only [closeGroup]
        rw [hsave, bind_ok (slotOf_ok htslot), bind_get]
        simp only [hstart]
        cases hlog : undo && e.program.has .captureHistory with
        | false => simp [u, hlog, Captures.closed, modifyCaptures, modifyRegs, next]; rfl
        | true => simp [u, hlog, Captures.closed, modifyCaptures, modifyRegs, next]; rfl

theorem results_keepOut (hq : Quiet e) : Results e (keepOut e) s (.ok (.going s.core.keepOut)) := by
  let u : State := { s with
    ip := s.ip + 1
    stack := s.stack.push (.keep s.regs.keep)
    regs := { s.regs with keep := some s.pos } }
  refine ⟨u, rfl, ?_⟩
  simp only [keepOut, bind_get]
  rw [bind_push hq]
  rfl

theorem results_matchCopy (groups : List Nat) (fold : Bool) :
    Results e (matchCopy e groups fold) s (.ok (s.core.matchCopy e groups fold)) := by
  have hcore : s.core.matchCopy e groups fold =
      match copyLength? e.subject s.regs.captures s.pos fold groups with
      | some n => s.core.consume (some n)
      | none => s.core.check (e.program.has .unsetMatchesEmpty &&
          !groups.any s.regs.captures.isSet) := rfl
  rw [hcore]
  cases h : copyLength? e.subject s.regs.captures s.pos fold groups with
  | some n =>
    refine .of_eq (y := consume e (some n)) (t := s) ?_ (results_consume _)
    simp only [matchCopy, bind_get, h]
  | none =>
    refine .of_eq (y := check e (e.program.has .unsetMatchesEmpty &&
      !groups.any s.regs.captures.isSet)) (t := s) ?_ (results_check _)
    simp only [matchCopy, bind_get, h]
    rfl

theorem results_branchIfSet (groups : List Nat) (a : Addr) :
    Results e (branchIfSet groups a) s
      (.ok (.going (s.core.goTo (if groups.any s.regs.captures.isSet then s.ip + 1 else a)))) := by
  by_cases h : groups.any s.regs.captures.isSet = true
  · refine .of_eq (y := goTo (s.ip + 1)) (t := s) ?_ ?_
    · simp only [branchIfSet, bind_get, h, ↓reduceIte]
      rfl
    · rw [if_pos h]
      exact results_goTo _
  · refine .of_eq (y := goTo a) (t := s) ?_ ?_
    · simp only [branchIfSet, bind_get, h, Bool.false_eq_true, ↓reduceIte]
    · rw [if_neg h]
      exact results_goTo _

/-! ### Calls -/

theorem callState_eq (sub : Nat) (s : State) :
    callState e sub s =
      match s.regs.called e.program sub with
      | .ok c => .ok c s
      | .error f => .error (.fault f) s := by
  unfold callState Registers.called
  dsimp only
  cases e.program.tables.subroutines[sub]? with
  | none => rfl
  | some r =>
    simp only [bind_get]
    cases s.regs.captures.starts? r.captures with
    | none => rfl
    | some starts =>
      dsimp only
      split
      · rfl
      · split <;> rfl

theorem results_enterCall (hq : Quiet e) (target : Addr) (sub : Nat) :
    Results e (enterCall e target sub) s (s.core.enterCall e target sub) := by
  unfold Core.enterCall
  by_cases hlimit : e.limits.callDepth ≤ s.regs.depth
  · have hlimit' : e.limits.callDepth ≤ s.core.regs.depth := hlimit
    rw [if_pos hlimit']
    refine ⟨.limit (.callDepth e.limits.callDepth), s, rfl, ?_⟩
    simp only [enterCall, bind_get, hlimit, ↓reduceIte]
    rfl
  · have hlimit' : ¬ e.limits.callDepth ≤ s.core.regs.depth := hlimit
    have hsave := callState_eq (e := e) sub s
    have hregs : s.core.regs = s.regs := rfl
    rw [if_neg hlimit', hregs]
    cases hcalled : s.regs.called e.program sub with
    | error f =>
      rw [hcalled] at hsave
      refine ⟨.fault f, s, rfl, ?_⟩
      simp only [enterCall, bind_get, hlimit, ↓reduceIte]
      exact bind_error hsave
    | ok saved =>
      rw [hcalled] at hsave
      let t : State := { s with
        stack := s.stack.push (.call (s.ip + 1) sub saved)
        regs := { s.regs with depth := s.regs.depth + 1 } }
      refine ⟨{ t.emit e (.call target (s.regs.depth + 1)) with ip := target }, ?_, ?_⟩
      · change { (t.emit e (.call target (s.regs.depth + 1))).core with ip := target } = _
        rw [core_emit]
        rfl
      · simp only [enterCall, bind_get, hlimit, ↓reduceIte]
        rw [bind_ok hsave, bind_push hq]
        rfl

theorem results_leaveCall (hq : Quiet e) :
    Results e (leaveCall e) s (s.core.leaveCall e.program) := by
  unfold Core.leaveCall
  have hcall : s.stack.currentCall? = FrameStack.callFrom 0 s.core.frames := rfl
  cases hc : FrameStack.callFrom 0 s.core.frames with
  | none =>
    refine ⟨.fault (.missing .call s.ip), s, rfl, ?_⟩
    simp only [leaveCall, bind_get, hcall, hc]
    rfl
  | some call =>
    obtain ⟨back, sub, saved⟩ := call
    have hsave := callState_eq (e := e) sub s
    have hregs : s.core.regs = s.regs := rfl
    dsimp only
    rw [hregs]
    cases hcalled : s.regs.called e.program sub with
    | error f =>
      rw [hcalled] at hsave
      refine ⟨.fault f, s, rfl, ?_⟩
      simp only [leaveCall, bind_get, hcall, hc]
      rw [bind_ok require_some]
      exact bind_error hsave
    | ok undo =>
      rw [hcalled] at hsave
      have hdepth : (s.regs.setCallState e.program sub saved).depth = s.regs.depth := by
        unfold Registers.setCallState
        split <;> rfl
      let t : State := { s with
        stack := s.stack.push (.returned sub undo)
        regs := s.regs.setCallState e.program sub saved }
      have hrun : leaveCall e s = (if t.regs.depth = 0 then fault .underflow else
          modifyRegs (fun r => { r with depth := r.depth - 1 }) >>= fun _ =>
            emit e (.ret back) >>= fun _ => goTo back) t := by
        simp only [leaveCall, bind_get, hcall, hc]
        rw [bind_ok require_some]
        dsimp only
        rw [bind_ok hsave]
        simp only [modifyRegs, bind_modify]
        rw [bind_push hq, bind_get]
        by_cases hz : t.regs.depth = 0
        · have hz' : (s.regs.setCallState e.program sub saved).depth = 0 := hz
          simp only [hz, hz', beq_self_eq_true, ↓reduceIte]
          rfl
        · have hz' : ¬ (s.regs.setCallState e.program sub saved).depth = 0 := hz
          simp only [hz, hz', beq_iff_eq, ↓reduceIte]
          rfl
      have hdepth' : t.regs.depth = s.regs.depth := hdepth
      rw [hdepth'] at hrun
      dsimp only
      by_cases hz : s.regs.depth = 0
      · rw [if_pos hz] at hrun ⊢
        exact .of_eq hrun (results_fault _)
      · rw [if_neg hz] at hrun ⊢
        let u : State := { t with regs := { t.regs with depth := t.regs.depth - 1 } }
        refine ⟨{ u.emit e (.ret back) with ip := back }, ?_, ?_⟩
        · change { (u.emit e (.ret back)).core with ip := back } = _
          rw [core_emit]
          change ({ u.core with ip := back } : Core) = _
          simp only [u, State.core, hdepth']
          rfl
        · rw [hrun]
          rfl

/-! ### Loops -/

theorem loopState_eq (id : Nat) (s : State) :
    loopState e id s =
      match e.program.tables.loops[id]?, s.regs.counts[id]? with
      | some l, some n => .ok (l, n) s
      | _, _ => .error (.fault (.outside s.regs.counts.size id)) s := by
  simp only [loopState, bind_get]
  cases e.program.tables.loops[id]? <;> cases s.regs.counts[id]? <;> rfl

theorem results_loop {id : Nat} {turn : CountedLoop → Nat → Core}
    {f : CountedLoop × Nat → Run Unit} (hx : x s = (loopState e id >>= f) s)
    (h : ∀ l n, e.program.tables.loops[id]? = some l → s.regs.counts[id]? = some n →
      Results e (f (l, n)) s (.ok (.going (turn l n)))) :
    Results e x s (s.core.loop e id turn) := by
  have hloop := loopState_eq (e := e) id s
  have hcounts : s.core.regs.counts = s.regs.counts := rfl
  refine .of_eq hx ?_
  unfold Core.loop
  rw [hcounts]
  cases hl : e.program.tables.loops[id]? with
  | none =>
    rw [hl] at hloop
    exact ⟨.fault (.outside s.regs.counts.size id), s, rfl, bind_error hloop⟩
  | some l =>
    cases hn : s.regs.counts[id]? with
    | none =>
      rw [hl, hn] at hloop
      exact ⟨.fault (.outside s.regs.counts.size id), s, rfl, bind_error hloop⟩
    | some n =>
      rw [hl, hn] at hloop
      exact .of_eq (bind_ok hloop) (h l n hl hn)

/-- A state with the count of a loop changed, and a record of what it was. -/
def State.counting (s : State) (id before rounds : Nat) : State :=
  { s with
    stack := s.stack.push (.count id before)
    regs := { s.regs with counts := s.regs.counts.setIfInBounds id rounds } }

theorem core_counting (s : State) (id before rounds : Nat) :
    (s.counting id before rounds).core = s.core.counting id before rounds := rfl

theorem results_chooseRound (hq : Quiet e) (l : CountedLoop) :
    Results e (chooseRound e l) s (.ok (.going (roundChoice l s.core))) :=
  chooseRound_quiet hq l s

theorem results_enterLoop (hq : Quiet e) (id : Nat) :
    Results e (enterLoop e id) s (s.core.enterLoop e id) := by
  refine results_loop rfl fun l n _ _ => ?_
  rw [← core_counting]
  refine .of_eq (y := if l.min == 0 then chooseRound e l else goTo l.body)
    (bind_push hq (.count id n) _ s) ?_
  by_cases hmin : l.min = 0
  · rw [if_pos hmin, if_pos (by simpa using hmin)]
    exact results_chooseRound hq l
  · rw [if_neg hmin, if_neg (by simpa using hmin)]
    exact results_goTo l.body

theorem results_endRound (hq : Quiet e) (id : Nat) :
    Results e (endRound e id) s (s.core.endRound e id) := by
  refine results_loop rfl fun l n _ _ => ?_
  rw [← core_counting]
  refine .of_eq (y := if l.max.any (· ≤ n + 1) then goTo l.exit
    else if n + 1 < l.min then goTo l.body else chooseRound e l)
    (bind_push hq (.count id n) _ s) ?_
  split
  · exact results_goTo l.exit
  · split
    · exact results_goTo l.body
    · exact results_chooseRound hq l

/-! ### Markers -/

theorem viewFrom_locate (q : Frame → Bool) (frames above : List Frame) (level : Nat)
    (below : List Frame) (h : above.reverse ++ below = frames) :
    (FrameStack.viewFrom q frames above level below h).map
        (fun v => (v.above.reverse, v.frame, v.below)) =
      (locate q level below).map fun (F, m, K) => (above.reverse ++ F, m, K) := by
  induction below generalizing above level with
  | nil => rfl
  | cons f below ih =>
    have below_eq (level : Nat) (h' : (f :: above).reverse ++ below = frames) :
        (FrameStack.viewFrom q frames (f :: above) level below h').map
            (fun v => (v.above.reverse, v.frame, v.below)) =
          ((locate q level below).map fun (F, m, K) => (f :: F, m, K)).map
            fun (F, m, K) => (above.reverse ++ F, m, K) := by
      rw [ih, Option.map_map]
      congr 1
      funext ⟨F, m, K⟩
      simp
    cases f with
    | returned sub undo => exact below_eq _ _
    | call back sub saved =>
      simp only [FrameStack.viewFrom, locate]
      split
      · rfl
      · exact below_eq _ _
    | _ =>
      simp only [FrameStack.viewFrom, locate]
      split
      · simp
      · exact below_eq _ _

/-- What is found of a stack. -/
theorem view?_locate (q : Frame → Bool) (s : FrameStack) :
    (s.view? q).map (fun v => (v.above.reverse, v.frame, v.below)) = locate q 0 s.frames := by
  refine (viewFrom_locate q s.frames [] 0 s.frames rfl).trans ?_
  cases locate q 0 s.frames <;> rfl

theorem results_atMarker {what : Missing} {q : Frame → Bool}
    {turn : List Frame → Frame → List Frame → Point} {f : FrameView s.stack.frames → Run Unit}
    (hx : x s = (require what (s.stack.view? q) >>= f) s)
    (h : ∀ v : FrameView s.stack.frames,
      Results e (f v) s (.ok (turn v.above.reverse v.frame v.below))) :
    Results e x s (s.core.atMarker what q turn) := by
  have hview := view?_locate q s.stack
  have hframes : s.core.frames = s.stack.frames := rfl
  unfold Core.atMarker
  rw [hframes, ← hview]
  cases hv : s.stack.view? q with
  | none =>
    rw [hv] at hx
    exact ⟨.fault (.missing what s.ip), s, rfl, hx⟩
  | some v =>
    rw [hv] at hx
    exact .of_eq hx (h v)

theorem results_checkRound (id : Nat) (captures : Bool) :
    Results e (checkRound id captures) s (s.core.checkRound id captures) := by
  refine results_atMarker rfl fun v => ?_
  rw [List.any_reverse]
  exact results_goTo _

theorem sealed_view (v : FrameView s.stack.frames) :
    (s.stack.commit v).frames = sealed v.above.reverse v.below := FrameStack.commit_frames _ v

theorem results_endLook (mark : Nat) :
    Results e (endLook e mark) s (s.core.endLook mark) := by
  refine results_atMarker rfl fun v => ?_
  let t : State := ({ s with
    pos := FrameStack.savedPos v.frame, stack := s.stack.commit v } : State).emit e (.commit mark)
  refine ⟨{ t with ip := t.ip + 1 }, ?_, rfl⟩
  change { t.core with ip := t.core.ip + 1 } = _
  rw [show t.core = _ from core_emit _ _ _, ← sealed_view]
  rfl

theorem results_endAtomic (mark : Nat) :
    Results e (endAtomic e mark) s (s.core.endAtomic mark) := by
  refine results_atMarker rfl fun v => ?_
  let t : State := ({ s with stack := s.stack.commit v } : State).emit e (.commit mark)
  refine ⟨{ t with ip := t.ip + 1 }, ?_, rfl⟩
  change { t.core with ip := t.core.ip + 1 } = _
  rw [show t.core = _ from core_emit _ _ _, ← sealed_view]
  rfl

theorem results_checkPos (mark : Nat) :
    Results e (checkPos e mark) s (s.core.checkPos mark) :=
  results_atMarker rfl fun _ => results_check _

/-- What is left when everything down to the start of a look around is popped. -/
def Unwinds (e : Setting) (mark level : Nat) (frames : List Frame) (s : State) :
    Except Missing (List Frame × Registers) → Prop
  | .ok (K, r) => ∃ S : FrameStack, S.frames = K ∧
      unwindList e mark level frames s = .ok () { s with stack := S, regs := r }
  | .error what => ∃ t : State,
      unwindList e mark level frames s = .error (.fault (.missing what s.ip)) t

theorem Unwinds.of_eq {mark level level' : Nat} {F K : List Frame} {r : Registers}
    {v : Except Missing (List Frame × Registers)}
    (h : unwindList e mark level F s = unwindList e mark level' K { s with regs := r })
    (hv : Unwinds e mark level' K { s with regs := r } v) : Unwinds e mark level F s v := by
  unfold Unwinds at *
  rw [h]
  exact hv

theorem unwinds_unwound (mark level : Nat) (frames : List Frame) (s : State) :
    Unwinds e mark level frames s (unwound e.program mark level frames s.regs) := by
  induction frames generalizing level s with
  | nil => exact ⟨s, rfl⟩
  | cons f frames ih =>
    have below (level' : Nat)
        (h : unwindList e mark level (f :: frames) s =
          unwindList e mark level' frames { s with regs := s.regs.undo e.program f }) :
        Unwinds e mark level (f :: frames) s
          (unwound e.program mark level' frames (s.regs.undo e.program f)) :=
      .of_eq h (ih level' { s with regs := s.regs.undo e.program f })
    unfold unwound
    by_cases h : (level == 0 && FrameStack.isLook mark f) = true
    · rw [if_pos h]
      refine ⟨⟨frames, frames.length, rfl⟩, rfl, ?_⟩
      simp only [unwindList, unwindFrom, h, ↓reduceIte]
      rfl
    · rw [if_neg h]
      cases f with
      | returned sub c =>
        refine below _ ?_
        simp only [unwindList, unwindFrom, h, Bool.false_eq_true, ↓reduceIte]
        rfl
      | call back sub saved =>
        dsimp only
        by_cases hl : level = 0
        · subst hl
          exact ⟨s, rfl⟩
        · rw [if_neg (by simpa using hl)]
          refine below _ ?_
          simp only [unwindList, unwindFrom, h, hl, beq_iff_eq, Bool.false_eq_true, ↓reduceIte]
          rfl
      | _ =>
        refine below _ ?_
        simp only [unwindList, unwindFrom, h, Bool.false_eq_true, ↓reduceIte]
        rfl

theorem results_unwind (mark : Nat) :
    Results e (unwind e mark) s (s.core.unwind e.program mark) := by
  have hlist := unwinds_unwound (e := e) mark 0 s.stack.frames { s with stack := .empty }
  have hframes : s.core.frames = s.stack.frames := rfl
  have hregs : s.core.regs = s.regs := rfl
  unfold Core.unwind
  rw [hframes, hregs]
  cases hu : unwound e.program mark 0 s.stack.frames s.regs with
  | error what =>
    rw [hu] at hlist
    obtain ⟨t, ht⟩ := hlist
    refine ⟨.fault (.missing what s.ip), t, rfl, ?_⟩
    rw [unwind_eq, bind_error ht]
  | ok r =>
    obtain ⟨K, r⟩ := r
    rw [hu] at hlist
    obtain ⟨S, rfl, hlist⟩ := hlist
    refine ⟨{ s with ip := s.ip + 1, stack := S, regs := r }, rfl, ?_⟩
    rw [unwind_eq, bind_ok hlist]
    rfl

theorem results_stepBack (hq : Quiet e) (min : Nat) (max : Option Nat) :
    Results e (stepBack e min max) s (.ok (s.core.stepBack e.subject min max)) := by
  have hpos : s.core.pos = s.pos := rfl
  unfold Core.stepBack
  rw [hpos]
  cases h : back? e.subject s.pos min with
  | none =>
    refine ⟨s, rfl, ?_⟩
    simp only [stepBack, bind_get, h]
  | some p =>
    simp only [Results]
    split
    · rename_i hmore
      refine ⟨{ s with
        ip := s.ip + 1, pos := p
        stack := s.stack.push (.stepBack (s.ip + 1) p (max.map (· - min))) }, rfl, ?_⟩
      simp only [stepBack, bind_get, h, hmore, ↓reduceIte]
      rw [bind_push hq]
      rfl
    · rename_i hmore
      refine ⟨{ s with ip := s.ip + 1, pos := p }, rfl, ?_⟩
      simp only [stepBack, bind_get, h, hmore, Bool.false_eq_true, ↓reduceIte]
      rfl

theorem results_dropTop : Results e dropTop s s.core.drop := by
  obtain ⟨ip, pos, start, ⟨frames, size, hsize⟩, regs, tally, memo, best, events⟩ := s
  cases frames with
  | nil => exact ⟨.fault (.missing .alternative ip), _, rfl, rfl⟩
  | cons f K => exact ⟨_, rfl, rfl⟩

/-! ### Guards and absent operators -/

theorem results_passGuard (hq : Quiet e) (site : Nat) (within : Option Nat) :
    Results e (passGuard e site within) s (s.core.passGuard site within) := by
  have hmemo : s.core.memo = s.memo := rfl
  unfold Core.passGuard
  rw [hmemo]
  cases h : s.memo with
  | none =>
    refine .of_eq (y := next) (t := s) ?_ results_next
    simp only [passGuard, bind_get, h]
  | some memo =>
    have hpass : Results e (if memo.hasFailed site s.pos then backtrack e
          else push e (.guard site s.pos) >>= fun _ => next) s
        (.ok (if memo.hasFailed site s.core.pos then .failing s.core
          else .going (s.core.push (.guard site s.core.pos)).next)) := by
      have hpos : s.core.pos = s.pos := rfl
      rw [hpos]
      cases memo.hasFailed site s.pos with
      | true => exact results_backtrack
      | false => exact results_push hq _
    cases within with
    | none =>
      refine .of_eq ?_ hpass
      simp only [passGuard, bind_get, h]
      rfl
    | some id =>
      refine results_atMarker (f := fun v =>
        if FrameStack.savedPos v.frame == s.pos then next
        else if memo.hasFailed site s.pos then backtrack e
        else push e (.guard site s.pos) >>= fun _ => next) ?_ fun v => ?_
      · simp only [passGuard, bind_get, h]
        cases s.stack.view? (FrameStack.isRound id) <;> rfl
      · have hpos : s.core.pos = s.pos := rfl
        rw [hpos]
        cases hfresh : FrameStack.savedPos v.frame == s.pos with
        | true => exact results_next
        | false => exact hpass

theorem results_takeAbsent (hq : Quiet e) {r : Runner} {body : Addr}
    {found : Except Halt (Option Nat)} (h : absentEnd r e body s.tally.begun s.pos = found) :
    Results e (takeAbsent r e body) s (s.core.takeAbsent found) := by
  unfold Core.takeAbsent
  cases found with
  | error k =>
    refine ⟨k, s, rfl, ?_⟩
    simp only [takeAbsent, bind_get, h]
    rfl
  | ok found =>
    cases found with
    | none =>
      refine ⟨s, rfl, ?_⟩
      simp only [takeAbsent, bind_get, h]
    | some stop =>
      have hpos : s.core.pos = s.pos := rfl
      simp only [Results, hpos]
      by_cases hlt : s.pos < stop
      · refine ⟨{ s with
          ip := s.ip + 1, pos := stop
          stack := s.stack.push (.absent (s.ip + 1) s.pos stop) }, ?_, ?_⟩
        · rw [if_pos hlt]
          rfl
        · simp only [takeAbsent, bind_get, h, hlt, ↓reduceIte]
          rw [bind_push hq]
          rfl
      · refine ⟨{ s with ip := s.ip + 1, pos := stop }, ?_, ?_⟩
        · rw [if_neg hlt]
          rfl
        · simp only [takeAbsent, bind_get, h, hlt, ↓reduceIte]
          rfl

theorem results_takeAny (hq : Quiet e) (multiline : Bool) (before : Option UInt8) :
    Results e (takeAny e multiline before) s (.ok (.going (s.core.takeAny e multiline before))) :=
  passAny_quiet hq _ _ _ _ s

/-! ### Runs -/

/-- Where nothing interrupts it, it does not matter when a run inside a step begins. -/
theorem absentEnd_begun (hq : Quiet e) (r : Runner) (body : Addr) (begun begun' start : Nat) :
    absentEnd r e body begun start = absentEnd r e body begun' start := by
  have hupTo : ∀ stop, e.upTo stop begun = e.upTo stop begun' := by
    intro stop
    rw [Setting.upTo, Setting.upTo, hq.signal begun, hq.signal begun']
  have hblocked : blocked r e body begun start = blocked r e body begun' start := by
    funext stop
    rw [blocked, blocked, hupTo]
  rw [absentEnd, absentEnd, hblocked]

theorem results_exec (hq : Quiet e) (n : Nat) (i : Instr) :
    Results e (exec (inner n) e i) s
      (s.core.act e (fun body pos => absentEnd (inner n) e body 0 pos) i) := by
  have getting {f : State → Run Unit} {v : Except Ending Point} (h : Results e (f s) s v) :
      Results e (get >>= f) s v := .of_eq (bind_get f s) h
  cases i with
  | accept => exact getting results_accept
  | anyChars => exact getting (results_takeAny hq ..)
  | anyCharsBefore => exact getting (results_takeAny hq ..)
  | anchor => exact getting (results_check _)
  | backref => exact getting (results_matchCopy ..)
  | ifSet => exact getting (results_branchIfSet ..)
  | groupStart => exact getting (results_openGroup hq ..)
  | groupEnd => exact getting (results_closeGroup hq ..)
  | groupEndRecursive => exact getting (results_closeGroup hq ..)
  | keep => exact getting (results_keepOut hq)
  | fail => exact getting results_backtrack
  | jump => exact getting (results_goTo _)
  | fork a =>
    obtain ⟨t, ht, hf⟩ := fork_quiet hq a s
    refine getting ⟨{ t with ip := t.ip + 1 }, ?_, bind_ok hf⟩
    change { t.core with ip := t.core.ip + 1 } = _
    rw [ht]
    rfl
  | drop => exact getting results_dropTop
  | repeatEnter => exact getting (results_enterLoop hq _)
  | repeatNext => exact getting (results_endRound hq _)
  | roundStart => exact getting (results_push hq _)
  | roundEnd => exact getting (results_checkRound ..)
  | lookStart => exact getting (results_push hq _)
  | lookEnd => exact getting (results_endLook _)
  | atomicStart => exact getting (results_push hq _)
  | atomicEnd => exact getting (results_endAtomic _)
  | unwind => exact getting (results_unwind _)
  | stepBack => exact getting (results_stepBack hq ..)
  | checkPos => exact getting (results_checkPos _)
  | call => exact getting (results_enterCall hq ..)
  | ret => exact getting (results_leaveCall hq)
  | guard => exact getting (results_passGuard hq ..)
  | absent body => exact getting (results_takeAbsent hq (absentEnd_begun hq ..))
  | absentEnd => exact getting ⟨.accepted, s, rfl, rfl⟩
  | _ => exact getting (results_consume _)

/-- What an action that does not backtrack comes to, as far as the core tells. -/
def Comes (x : Run Unit) (s : State) : Except Ending Core → Prop
  | .ok d => ∃ s', s'.core = d ∧ x s = .ok () s'
  | .error y => ∃ h s', Ending.at h s'.core = y ∧ x s = .error h s'

theorem Comes.of_eq {v : Except Ending Core} (h : x s = y t) (hy : Comes y t v) : Comes x s v := by
  unfold Comes at *
  rw [h]
  exact hy

theorem comes_backtrackFrom (hq : Quiet e) (F : List Frame) (s : State) (hs : s.stack = .empty) :
    Comes (backtrackFrom e F F.length rfl) s (resumeFrom e F s.core) := by
  induction F generalizing s with
  | nil =>
    refine ⟨.exhausted, s, ?_, rfl⟩
    simp only [Ending.at, State.core, hs]
    rfl
  | cons f K ih =>
    cases f with
    | alternative ip pos => exact resume_quiet hq ip pos ⟨K, K.length, rfl⟩ s
    | stepBack ip pos more =>
      unfold resumeFrom
      simp only [backtrackFrom]
      cases e.subject.prev? pos with
      | none => exact ih s hs
      | some p =>
        obtain ⟨s', hc, hr⟩ := resume_quiet hq ip p
          (if more.all (1 < ·) && 0 < p then
            (⟨K, K.length, rfl⟩ : FrameStack).push (.stepBack ip p (more.map (· - 1)))
          else ⟨K, K.length, rfl⟩) s
        refine ⟨s', ?_, hr⟩
        rw [hc]
        split <;> rfl
    | absent ip start stop =>
      unfold resumeFrom
      simp only [backtrackFrom]
      cases (e.subject.prev? stop).filter (start ≤ ·) with
      | none => exact ih s hs
      | some p =>
        obtain ⟨s', hc, hr⟩ := resume_quiet hq ip p
          (if start < p then (⟨K, K.length, rfl⟩ : FrameStack).push (.absent ip start p)
          else ⟨K, K.length, rfl⟩) s
        refine ⟨s', ?_, hr⟩
        rw [hc]
        split <;> rfl
    | guard site pos => exact ih { s with memo := s.memo.map (·.markFailed site pos) } hs
    | _ =>
      exact .of_eq (y := backtrackFrom e K K.length rfl)
        (t := { s with regs := s.regs.undo e.program _ }) rfl (ih _ hs)

/-- Frames of the core itself play no part when others are popped. -/
theorem resumeFrom_frames (F : List Frame) (c : Core) (G : List Frame) :
    resumeFrom e F { c with frames := G } = resumeFrom e F c := by
  induction F generalizing c with
  | nil => rfl
  | cons f K ih =>
    cases hf : f.isChoice with
    | false =>
      rw [resumeFrom_undo hf, resumeFrom_undo hf]
      exact ih { c with regs := c.regs.undo e.program f }
    | true =>
      cases f with
      | alternative ip pos => rfl
      | stepBack ip pos more =>
        unfold resumeFrom
        cases e.subject.prev? pos with
        | none => exact ih c
        | some p => rfl
      | absent ip start stop =>
        unfold resumeFrom
        cases (e.subject.prev? stop).filter (start ≤ ·) with
        | none => exact ih c
        | some p => rfl
      | guard site pos => exact ih { c with memo := c.memo.map (·.markFailed site pos) }
      | _ => cases hf

theorem comes_backtrack (hq : Quiet e) (s : State) :
    Comes (backtrack e) s (resumeFrom e s.core.frames s.core) := by
  have h := comes_backtrackFrom hq s.stack.frames { s with stack := .empty } rfl
  have hcore : ({ s with stack := .empty } : State).core = { s.core with frames := [] } := rfl
  rw [hcore, resumeFrom_frames] at h
  exact .of_eq (backtrack_frames e s rfl) h

theorem comes_step (hq : Quiet e) (n : Nat) (s : State) :
    Comes (step (inner n) e) s (s.core.step n e) := by
  have hip : s.core.ip = s.ip := rfl
  unfold Core.step
  rw [hip]
  cases hi : e.program.code[s.ip]? with
  | none =>
    refine ⟨.fault (.outside e.program.size s.ip), s, rfl, ?_⟩
    simp only [step, bind_get, hi]
    rfl
  | some i =>
    have hexec := results_exec (s := s.fetched e i) hq n i
    rw [core_fetched] at hexec
    refine .of_eq (step_fetched _ _ _ _ hi) ?_
    dsimp only
    generalize s.core.act e _ i = v at hexec
    cases v with
    | error x => exact hexec
    | ok p =>
      cases p with
      | going d => exact hexec
      | failing d =>
        obtain ⟨t, rfl, ht⟩ := hexec
        exact .of_eq ht (comes_backtrack hq t)

/-- What a run comes to is what the core of its state comes to. -/
theorem run_core (hq : Quiet e) (n : Nat) (s : State) :
    Ending.of (run n e s) = s.core.run n e := by
  induction n generalizing s with
  | zero => rfl
  | succ n ih =>
    have hstep := comes_step hq n s
    rw [run_succ, Core.run]
    cases hs : s.core.step n e with
    | ok d =>
      rw [hs] at hstep
      obtain ⟨t, rfl, ht⟩ := hstep
      rw [ht]
      exact ih t
    | error y =>
      rw [hs] at hstep
      obtain ⟨h, t, ht, hr⟩ := hstep
      rw [hr]
      exact ht

end
end RegexMachine.Machine
