import RegexMachine.Proofs.Flow
import RegexMachine.Proofs.Programs
import RegexMachine.Proofs.Records
import RegexMachine.Proofs.SafeSteps

/-!
The effect of every instruction: where a step that goes on has led to, and what it has done to the
stack and the registers.
-/
namespace RegexMachine.Machine

/-! ## Steps that go on -/

/-- Where an action goes on, its answer and the state are as wanted. -/
def Ends {α : Type} (x : Run α) (Q : α → State → Prop) (s : State) : Prop :=
  ∀ a t, x s = .ok a t → Q a t

section
variable {α β : Type} {x : Run α} {Q : α → State → Prop} {s : State} {e : Setting}

theorem Ends.mono {Q' : α → State → Prop} (h : Ends x Q s) (hq : ∀ a t, Q a t → Q' a t) :
    Ends x Q' s := fun a t hx => hq a t (h a t hx)

theorem Ends.bind {f : α → Run β} {R : β → State → Prop}
    (h : Ends x (fun a t => Ends (f a) R t) s) : Ends (x >>= f) R s := by
  intro b t hb
  cases hx : x s with
  | ok a s' =>
    rw [bind_ok hx] at hb
    exact h a s' hx b t hb
  | error k s' =>
    rw [bind_error hx] at hb
    cases hb

theorem ends_pure {a : α} (h : Q a s) : Ends (pure a) Q s := by
  rintro _ _ ⟨⟩
  exact h

theorem ends_get {Q : State → State → Prop} (h : Q s s) : Ends get Q s := by
  rintro _ _ ⟨⟩
  exact h

theorem ends_modify {f : State → State} {Q : Unit → State → Prop} (h : Q () (f s)) :
    Ends (modify f) Q s := by
  rintro _ _ ⟨⟩
  exact h

theorem ends_halt (h : Halt) : Ends (halt h) Q s := nofun

theorem ends_require {w : Missing} {found : Option α} (h : ∀ a, found = some a → Q a s) :
    Ends (require w found) Q s := by
  cases found with
  | none => exact (Ends.bind (ends_get (ends_halt _)) : Ends (get >>= fun s => fault (.missing w s.ip)) Q s)
  | some a => exact ends_pure (h a rfl)

theorem ends_of_brings {x : Run Unit} {c : View} {Q : View → Prop} (h : Brings x c Q)
    (hs : s.view = c) : Ends x (fun _ t => Q t.view) s := fun _ _ hx => (h s hs).ok hx

end

section
variable {e : Setting} {s : State} {Q : Unit → State → Prop}

theorem ends_emit {ev : Event} (h : Q () (s.emit e ev)) : Ends (emit e ev) Q s := ends_modify h

theorem ends_push {f : Frame} (h : Q () { s with stack := s.stack.push f }) :
    Ends (push e f) Q s := fun _ _ hx => (guarantees_push h).ok hx

theorem ends_callState {sub : Nat} {Q : CallState → State → Prop}
    (hsubs : ∀ r ∈ e.program.tables.subroutines, r.Fits e.program.tables)
    (hfits : s.regs.Fits e.program)
    (h : ∀ r, e.program.tables.subroutines[sub]? = some r → Q (s.regs.saved r) s) :
    Ends (callState e sub) Q s := by
  intro c t hc
  cases hr : e.program.tables.subroutines[sub]? with
  | none =>
    unfold callState at hc
    rw [hr] at hc
    cases hc
  | some r =>
    rw [callState_ok hr (hsubs r (Array.mem_of_getElem? hr)) hfits] at hc
    cases hc
    exact h r hr

theorem ends_slotOf {g : Nat} {Q : Slot → State → Prop}
    (h : ∀ slot, s.regs.captures.slot? g = some slot → Q slot s) : Ends (slotOf g) Q s := by
  intro slot t hx
  simp only [slotOf, bind_get] at hx
  cases hs : s.regs.captures.slot? g with
  | none =>
    rw [hs] at hx
    cases hx
  | some slot' =>
    rw [hs] at hx
    cases hx
    exact h _ hs

theorem ends_loopState {id : Nat} {Q : CountedLoop × Nat → State → Prop}
    (h : ∀ l n, e.program.tables.loops[id]? = some l → s.regs.counts[id]? = some n → Q (l, n) s) :
    Ends (loopState e id) Q s := by
  intro r t hx
  simp only [loopState, bind_get] at hx
  cases hl : e.program.tables.loops[id]? <;> cases hn : s.regs.counts[id]? <;>
    rw [hl, hn] at hx <;> cases hx
  exact h _ _ hl hn

end

/-! ## Effects -/

/-- Frames that are passed on the way down to one that is found. None of them is of the invocation
that searches and passes the test; `level` invocations above have returned. -/
inductive Locates (q : Frame → Bool) : Nat → List Frame → Frame → Prop
  | here {m : Frame} (hm : q m = true) (hc : FrameStack.isCallFrame m = false) : Locates q 0 [] m
  | returned {level : Nat} {F : List Frame} {m : Frame} (sub : Nat) (undo : CallState)
    (h : Locates q (level + 1) F m) : Locates q level (.returned sub undo :: F) m
  | call {level : Nat} {F : List Frame} {m : Frame} (back : Addr) (sub : Nat) (saved : CallState)
    (h : Locates q level F m) : Locates q (level + 1) (.call back sub saved :: F) m
  | other {level : Nat} {F : List Frame} {f m : Frame} (hf : FrameStack.isCallFrame f = false)
    (h : Locates q level F m) : Locates q level (f :: F) m

theorem Locates.test {q : Frame → Bool} {level : Nat} {F : List Frame} {m : Frame}
    (h : Locates q level F m) : q m = true := by
  induction h with
  | here hm hc => exact hm
  | returned sub undo h ih => exact ih
  | call back sub saved h ih => exact ih
  | other hf h ih => exact ih

/-- What a frame that an instruction leaves is like. -/
def LeftBy (e : Setting) (i : Instr) (c : View) : Frame → Prop
  | .alternative b y => Leads e i c.ip c.pos b y
  | .stepBack b y _ => ∀ z ≤ y, Leads e i c.ip c.pos b z
  | .absent b start stop => ∀ z, start ≤ z → z ≤ stop → Leads e i c.ip c.pos b z
  | .capture g slot _ => i.Saves g ∧ c.regs.captures.slot? g = some slot
  | .count id _ => i.Counts id
  | .look mark y => i = .lookStart mark ∧ y = c.pos
  | .call _ _ _ => False
  | .returned _ _ => False
  | .guard _ _ => True
  | .keep _ => True
  | .atomic _ => True
  | .round _ _ => True
  | .void => True

/-- A frame resumes at an address and a position, and there may be frames in its place. -/
inductive Resuming (e : Setting) : Frame → Addr → Nat → List Frame → Prop
  | alternative (ip : Addr) (pos : Nat) : Resuming e (.alternative ip pos) ip pos []
  | stepBack {ip : Addr} {pos p : Nat} {more : Option Nat} {top : List Frame}
    (hp : e.subject.prev? pos = some p) (htop : top = [] ∨ ∃ more', top = [.stepBack ip p more']) :
    Resuming e (.stepBack ip pos more) ip p top
  | absent {ip : Addr} {start stop p : Nat} {top : List Frame}
    (hp : (e.subject.prev? stop).filter (start ≤ ·) = some p)
    (htop : top = [] ∨ top = [.absent ip start p]) : Resuming e (.absent ip start stop) ip p top

namespace Resuming
variable {e : Setting} {g : Frame} {a : Addr} {p : Nat} {top : List Frame}

theorem resumes (h : Resuming e g a p top) : g.resumes e = true := by
  cases h with
  | alternative => rfl
  | stepBack hp => simp [Frame.resumes, hp]
  | absent hp =>
    rw [Frame.resumes, hp]
    rfl

theorem back?_eq (h : Resuming e g a p top) : g.back? = some a := by cases h <;> rfl

theorem isChoice (h : Resuming e g a p top) : g.isChoice = true := by cases h <;> rfl

theorem top_choices (h : Resuming e g a p top) : ∀ f ∈ top, f.isChoice = true := by
  intro f hf
  cases h with
  | alternative => cases hf
  | stepBack hp htop =>
    rcases htop with rfl | ⟨more', rfl⟩
    · cases hf
    · exact List.mem_singleton.mp hf ▸ rfl
  | absent hp htop =>
    rcases htop with rfl | rfl
    · cases hf
    · exact List.mem_singleton.mp hf ▸ rfl

/-- A frame in the place of one that has resumed is the same one, moved on. -/
theorem becomes (h : Resuming e g a p top) : top = [] ∨ ∃ g', g.Becomes e.program g' ∧ top = [g'] := by
  cases h with
  | alternative => exact Or.inl rfl
  | stepBack hp htop =>
    rcases htop with rfl | ⟨more', rfl⟩
    · exact Or.inl rfl
    · exact Or.inr ⟨.stepBack a p more', ⟨fun _ => rfl, Or.inr rfl, fun _ => trivial⟩, rfl⟩
  | absent hp htop =>
    rcases htop with rfl | rfl
    · exact Or.inl rfl
    · exact Or.inr ⟨.absent a _ p, ⟨fun _ => rfl, Or.inr rfl, fun _ => trivial⟩, rfl⟩

theorem length_top (h : Resuming e g a p top) : top.length ≤ 1 := by
  rcases h.becomes with rfl | ⟨g', -, rfl⟩
  · exact Nat.zero_le 1
  · exact Nat.le_refl 1

end Resuming

end Machine

/-- Whether an instruction ends a group, and leaves a record of what it was. -/
def Instr.Ends (g : Nat) (undo : Bool) (i : Instr) : Prop :=
  i = .groupEnd g undo ∨ i = .groupEndRecursive g ∧ undo = true

theorem Instr.Ends.ended? {g : Nat} {undo : Bool} {i : Instr} (h : i.Ends g undo) :
    i.ended? = some g := by
  rcases h with rfl | ⟨rfl, -⟩ <;> rfl

theorem Instr.Counts.ended? {id : Nat} {i : Instr} (h : i.Counts id) : i.ended? = none := by
  cases i <;> first | rfl | exact h.elim

namespace Frame

def isCapture : Frame → Bool
  | .capture _ _ _ => true
  | _ => false

theorem isCapture_of_isChoice {f : Frame} (h : f.isChoice = true) : f.isCapture = false := by
  cases f <;> first | rfl | cases h

end Frame

/-- The record of a group that is about to change, if one is wanted. -/
def Captures.kept (c : Captures) (g : Nat) (slot : Slot) (undo : Bool) : List Frame :=
  if undo then [.capture g slot c.history] else []

namespace Machine

/-- What an instruction makes of the captures that leaves these frames. Only groups change, and their
records hold what they were. -/
inductive Sets (e : Setting) (i : Instr) (c : View) : List Frame → Captures → Prop
  | keeps {F : List Frame} (hi : i.ended? = none) (hF : ∀ f ∈ F, f.isCapture = false) :
    Sets e i c F c.regs.captures
  | opens {g : Nat} {undo : Bool} {slot : Slot} (hi : i = .groupStart g undo)
    (hslot : c.regs.captures.slot? g = some slot) :
    Sets e i c (c.regs.captures.kept g slot undo)
      (c.regs.captures.setSlot g { slot with start := some c.pos })
  | closes {g : Nat} {undo : Bool} {slot : Slot} {start : Nat} (hi : i.Ends g undo)
    (hslot : c.regs.captures.slot? g = some slot) (hstart : slot.start = some start) :
    Sets e i c (c.regs.captures.kept g slot undo)
      (c.regs.captures.closed g ⟨start, c.pos⟩ (undo && e.program.has .captureHistory))

namespace Sets
variable {e : Setting} {i : Instr} {c : View} {F : List Frame} {d : Captures}

theorem pushes {f : Frame} (hi : i.ended? = none) (hf : f.isCapture = false) :
    Sets e i c [f] c.regs.captures :=
  .keeps hi fun _ h => List.mem_singleton.mp h ▸ hf

/-- Only the start of a group enters one. -/
theorem start?_eq (h : Sets e i c F d) {g : Nat} (hg : ∀ undo, i ≠ .groupStart g undo) :
    d.start? g = c.regs.captures.start? g := by
  cases h with
  | keeps => rfl
  | opens hi hslot =>
    rw [Captures.start?, Captures.slot?_setSlot, if_neg fun h => hg _ (h.1 ▸ hi)]
    rfl
  | closes hi hslot hstart =>
    rw [Captures.start?, Captures.slot?_closed]
    split
    · rename_i h
      rw [h.1, Captures.start?, hslot]
      exact hstart.symm
    · rfl

end Sets

/-- What an instruction does where it goes on: to the place in the code and in the subject, to the
stack and to the registers. -/
inductive Effect (e : Setting) (i : Instr) (c d : View) : Prop
  /-- Frames are left that undo what has changed. -/
  | goes (F : List Frame) (hto : Leads e i c.ip c.pos d.ip d.pos) (hstart : d.start = c.start)
    (hd : d.frames = F ++ c.frames) (hF : ∀ f ∈ F, LeftBy e i c f) (hrec : Recorded F)
    (hfits : ∀ f ∈ F, f.Fits e.program)
    (hr : c.regs.Agrees e.program (d.regs.undoAll e.program F))
    (hsets : Sets e i c F d.regs.captures)
  | calls (t sub : Nat) (s : Subroutine) (hi : i = .call t sub)
    (hs : e.program.tables.subroutines[sub]? = some s)
    (hd : d = ⟨t, c.pos, c.start, .call (c.ip + 1) sub (c.regs.saved s) :: c.frames,
      { c.regs with depth := c.regs.depth + 1 }⟩)
  | returns (back sub : Nat) (saved : CallState) (s : Subroutine) (hi : i = .ret)
    (hcall : FrameStack.callFrom 0 c.frames = some (back, sub, saved))
    (hs : e.program.tables.subroutines[sub]? = some s) (hdepth : c.regs.depth ≠ 0)
    (hd : d = ⟨back, c.pos, c.start, .returned sub (c.regs.saved s) :: c.frames,
      { c.regs.setCallState e.program sub saved with depth := c.regs.depth - 1 }⟩)
  /-- Frames are undone down to one that resumes. -/
  | resumes (A : List Frame) (g : Frame) (L top : List Frame) (hc : c.frames = A ++ g :: L)
    (hg : Resuming e g d.ip d.pos top) (hstart : d.start = c.start) (hd : d.frames = top ++ L)
    (hr : d.regs = c.regs.undoAll e.program A)
  /-- A region is closed for good. -/
  | closes (q : Frame → Bool) (F : List Frame) (m : Frame) (K : List Frame)
    (hc : c.frames = F ++ m :: K) (hF : Locates q 0 F m)
    (hm : (∃ mark, i = .lookEnd mark ∧ m = .look mark d.pos) ∨
      (∃ mark, i = .atomicEnd mark ∧ m = .atomic mark ∧ d.pos = c.pos))
    (hip : d.ip = c.ip + 1) (hstart : d.start = c.start)
    (hd : d.frames = (F.map Frame.committed ++ .void :: K).dropWhile Frame.isVoid)
    (hr : d.regs = c.regs)
  /-- Everything since the start of a lookaround is undone. -/
  | unwinds (mark pos : Nat) (F K : List Frame) (hi : i = .unwind mark)
    (hc : c.frames = F ++ .look mark pos :: K)
    (hF : Locates (FrameStack.isLook mark) 0 F (.look mark pos))
    (hd : d = ⟨c.ip + 1, c.pos, c.start, K, c.regs.undoAll e.program F⟩)
  | drops (f : Frame) (K : List Frame) (hi : i = .drop) (hc : c.frames = f :: K)
    (hf : f.isChoice = true) (hd : d = ⟨c.ip + 1, c.pos, c.start, K, c.regs⟩)

/-! ## Backtracking -/

section
variable {e : Setting} {s t : State}

theorem resume_ok {ip : Addr} {pos : Nat} {stack : FrameStack} (h : resume e ip pos stack s = .ok () t) :
    t.view = { s.view with ip := ip, pos := pos, frames := stack.frames } :=
  ends_of_brings (Q := (· = _)) (brings_resume stack rfl) rfl () t h

/-- What a stack becomes of which a frame resumes: the frames above it are undone, and the frame is
gone or has moved on. -/
structure Resumes (e : Setting) (frames : List Frame) (r : Registers) (start : Nat) (t : State) :
    Prop where
  regs : ∃ A g L, frames = A ++ g :: L ∧ (∀ f ∈ A, f.resumes e = false) ∧ g.resumes e = true ∧
    g.back? = some t.ip ∧ t.regs = r.undoAll e.program A ∧ t.start = start ∧
    ∃ top, Resuming e g t.ip t.pos top ∧ t.stack.frames = top ++ L

theorem Resumes.under {f : Frame} {frames : List Frame} {r : Registers} {start : Nat}
    (hf : f.resumes e = false) (h : Resumes e frames (r.undo e.program f) start t) :
    Resumes e (f :: frames) r start t := by
  obtain ⟨A, g, L, hframes, hA, hg, hip, hregs, hstack⟩ := h
  refine ⟨f :: A, g, L, by rw [hframes]; rfl, fun f' hf' => ?_, hg, hip, hregs, hstack⟩
  rcases List.mem_cons.mp hf' with rfl | hf'
  · exact hf
  · exact hA f' hf'

theorem Resumes.here {g : Frame} {L top : List Frame} {ip : Addr} {pos : Nat}
    (hg : Resuming e g ip pos top)
    (ht : t.view = { s.view with ip := ip, pos := pos, frames := top ++ L }) :
    Resumes e (g :: L) s.regs s.start t := by
  obtain rfl : t.ip = ip := congrArg View.ip ht
  obtain rfl : t.pos = pos := congrArg View.pos ht
  exact ⟨[], g, L, rfl, nofun, hg.resumes, hg.back?_eq, congrArg View.regs ht,
    congrArg View.start ht, top, hg, congrArg View.frames ht⟩

theorem backtrackFrom_ok {frames : List Frame} {size : Nat} {hsize : size = frames.length}
    (h : backtrackFrom e frames size hsize s = .ok () t) :
    Resumes e frames s.regs s.start t := by
  induction frames generalizing size s with
  | nil => cases h
  | cons f frames ih =>
    cases f with
    | alternative ip pos => exact .here (.alternative ip pos) (resume_ok h)
    | stepBack ip pos more =>
      simp only [backtrackFrom] at h
      cases hp : e.subject.prev? pos with
      | none =>
        rw [hp] at h
        exact .under (by simp [Frame.resumes, hp]) (ih h)
      | some p =>
        rw [hp] at h
        have ht := resume_ok h
        split at ht
        · exact .here (.stepBack hp (Or.inr ⟨_, rfl⟩)) ht
        · exact .here (.stepBack hp (Or.inl rfl)) ht
    | absent ip start stop =>
      simp only [backtrackFrom] at h
      cases hp : (e.subject.prev? stop).filter (start ≤ ·) with
      | none =>
        rw [hp] at h
        exact .under (by rw [Frame.resumes, hp]; rfl) (ih h)
      | some p =>
        rw [hp] at h
        have ht := resume_ok h
        split at ht
        · exact .here (.absent hp (Or.inr rfl)) ht
        · exact .here (.absent hp (Or.inl rfl)) ht
    | guard site pos =>
      exact .under rfl (ih (s := { s with memo := s.memo.map (·.markFailed site pos) }) h)
    | _ => exact .under rfl (ih (s := { s with regs := s.regs.undo e.program _ }) h)

theorem backtrack_ok (h : backtrack e s = .ok () t) :
    Resumes e s.stack.frames s.regs s.start t := by
  rw [backtrack_eq] at h
  exact backtrackFrom_ok (s := { s with stack := .empty }) h

theorem Resumes.effect {i : Instr} {c : View} (h : Resumes e c.frames c.regs c.start t) :
    Effect e i c t.view := by
  obtain ⟨A, g, L, hframes, -, -, -, hregs, hstart, top, hg, hstack⟩ := h
  exact .resumes A g L top hframes hg hstart hstack hregs

end

/-! ## Instructions -/

/-- Where an action goes on from a view, it has done what an instruction does. -/
def Effective (e : Setting) (i : Instr) (x : Run Unit) (c : View) : Prop :=
  ∀ s : State, s.view = c → Ends x (fun _ t => Effect e i c t.view) s

section
variable {e : Setting} {i : Instr} {c d : View} {x : Run Unit}

theorem Effective.of_brings {Q : View → Prop} (h : Brings x c Q)
    (hq : ∀ d, Q d → Effect e i c d) : Effective e i x c :=
  fun _ hs => (ends_of_brings h hs).mono fun _ _ => hq _

/-- Neither the stack nor the registers have changed. -/
theorem Effect.moves (hi : i.ended? = none) (hto : Leads e i c.ip c.pos d.ip d.pos)
    (hstart : d.start = c.start) (hframes : d.frames = c.frames) (hregs : d.regs = c.regs) :
    Effect e i c d :=
  .goes [] hto hstart hframes nofun ⟨[], [], rfl, nofun, nofun⟩ nofun (.of_eq hregs)
    (hregs ▸ .keeps hi nofun)

/-- A frame was put on the stack. -/
theorem Effect.pushes {f : Frame} (hto : Leads e i c.ip c.pos d.ip d.pos)
    (hstart : d.start = c.start) (hframes : d.frames = f :: c.frames) (hf : LeftBy e i c f)
    (hfits : f.Fits e.program) (hr : c.regs.Agrees e.program (d.regs.undo e.program f))
    (hsets : Sets e i c [f] d.regs.captures) : Effect e i c d := by
  refine .goes [f] hto hstart hframes (fun _ h => List.mem_singleton.mp h ▸ hf) ?_
    (fun _ h => List.mem_singleton.mp h ▸ hfits) hr hsets
  by_cases hc : f.isChoice = true
  · exact ⟨[f], [], rfl, fun _ h => List.mem_singleton.mp h ▸ hc, nofun⟩
  · exact ⟨[], [f], rfl, nofun, fun _ h => List.mem_singleton.mp h ▸ by
      cases f <;> first | rfl | exact absurd rfl hc⟩

theorem effective_backtrack : Effective e i (backtrack e) c := fun s hs _ _ hx => by
  subst hs
  exact (backtrack_ok hx).effect

theorem effective_next (hi : i.ended? = none) (hto : Leads e i c.ip c.pos (c.ip + 1) c.pos) :
    Effective e i next c :=
  .of_brings (Q := (· = { c with ip := c.ip + 1 })) (brings_next rfl) fun _ hd =>
    hd ▸ .moves hi hto rfl rfl rfl

theorem effective_goTo {a : Addr} (hi : i.ended? = none) (hto : Leads e i c.ip c.pos a c.pos) :
    Effective e i (goTo a) c :=
  .of_brings (Q := (· = { c with ip := a })) (brings_goTo rfl) fun _ hd =>
    hd ▸ .moves hi hto rfl rfl rfl

theorem effective_check (ok : Bool) (hi : i.ended? = none)
    (hto : Leads e i c.ip c.pos (c.ip + 1) c.pos) : Effective e i (check e ok) c := by
  cases ok with
  | true => exact effective_next hi hto
  | false => exact effective_backtrack

theorem effective_consume (length : Option Nat) (hi : i.ended? = none)
    (hto : ∀ n, length = some n → Leads e i c.ip c.pos (c.ip + 1) (c.pos + n)) :
    Effective e i (consume e length) c := by
  cases length with
  | none => exact effective_backtrack
  | some n =>
    refine .of_brings (Q := (· = { c with ip := c.ip + 1, pos := c.pos + n }))
      (brings_modify fun s hs => ?_) fun _ hd => hd ▸ .moves hi (hto n rfl) rfl rfl rfl
    subst hs
    rfl

/-- A text of some length is passed. -/
theorem effective_text (width : Nat → Option Nat) (hi : i.ended? = none)
    (hto : ∀ y, Extent.text width c.pos y → Leads e i c.ip c.pos (c.ip + 1) y) :
    Effective e i (fun s => consume e (width s.pos) s) c := by
  intro s hs
  subst hs
  exact effective_consume (width s.pos) hi (fun n hn => hto _ ⟨n, hn, rfl⟩) s rfl

theorem effective_fork (a : Addr) : Effective e (.fork a) (fork e a *> next) c :=
  .of_brings
    (Q := (· = { c with ip := c.ip + 1, frames := .alternative a c.pos :: c.frames }))
    (Brings.andThen (brings_fork (brings_next rfl))) fun _ hd => by
    subst hd
    exact .pushes ⟨Or.inl rfl, rfl⟩ rfl rfl ⟨Or.inr rfl, rfl⟩ trivial (.refl _) (.pushes rfl rfl)

/-- A marker is left that has nothing to undo. -/
theorem effective_marker {f : Frame} (hi : i.ended? = none) (hcapture : f.isCapture = false)
    (hto : Leads e i c.ip c.pos (c.ip + 1) c.pos) (hf : LeftBy e i c f) (hfits : f.Fits e.program)
    (hundo : ∀ r : Registers, r.undo e.program f = r) :
    Effective e i (push e f *> next) c :=
  .of_brings (Q := (· = { c with ip := c.ip + 1, frames := f :: c.frames }))
    (Brings.andThen (brings_push (brings_next rfl))) fun _ hd => by
    subst hd
    exact .pushes hto rfl rfl hf hfits (.of_eq (hundo _)) (.pushes hi hcapture)

end

/-! ### Groups -/

section
variable {e : Setting} {i : Instr} {s : State} {g : Nat}

/-- The slot of a group has been changed, either with a record or in a group without records. -/
theorem effect_slot {c d : View} (undo : Bool) {slot : Slot} (slot' : Slot) (history : History)
    (hfits : c.regs.Fits e.program) (hs : c.regs.captures.slot? g = some slot)
    (hto : Leads e i c.ip c.pos d.ip d.pos) (hstart : d.start = c.start)
    (hsaves : undo = true → i.Saves g)
    (hundo : undo = false → ¬ e.program.Restores g ∧ history = c.regs.captures.history)
    (hframes : d.frames = c.regs.captures.kept g slot undo ++ c.frames)
    (hregs : d.regs = { c.regs with
      captures := ⟨c.regs.captures.slots.setIfInBounds g slot', history⟩ })
    (hsets : Sets e i c (c.regs.captures.kept g slot undo) d.regs.captures) :
    Effect e i c d := by
  have hlt := Captures.slot?_lt hs
  cases undo with
  | true =>
    refine .pushes hto hstart hframes ⟨hsaves rfl, hs⟩
      (show g < _ by rw [← hfits.slots]; exact hlt) (.of_eq ?_) hsets
    rw [hregs]
    have hback : (c.regs.captures.slots.setIfInBounds g slot').setIfInBounds g slot =
        c.regs.captures.slots := by
      apply Array.ext_getElem?
      intro k
      by_cases hk : g = k
      · subst hk
        rw [Array.getElem?_setIfInBounds_self_of_lt (by simpa using hlt)]
        exact hs.symm
      · rw [Array.getElem?_setIfInBounds_ne hk, Array.getElem?_setIfInBounds_ne hk]
    simp only [Registers.undo, Captures.restore, hback]
  | false =>
    obtain ⟨hplain, rfl⟩ := hundo rfl
    refine .goes [] hto hstart hframes (by simp) ⟨[], [], rfl, by simp, by simp⟩ (by simp) ?_ hsets
    rw [hregs]
    refine ⟨by simp, fun k hk => ?_, rfl, rfl, rfl, rfl⟩
    have hne : g ≠ k := fun h => hplain (h ▸ hk)
    exact Array.getElem?_setIfInBounds_ne hne

/-- The stack after a record of a group has been left, if one is wanted. -/
def Saved (s : State) (g : Nat) (undo : Bool) (t : State) : Prop :=
  (t.ip = s.ip ∧ t.pos = s.pos ∧ t.start = s.start) ∧ t.regs = s.regs ∧
    ∀ slot, s.regs.captures.slot? g = some slot →
      t.stack.frames = s.regs.captures.kept g slot undo ++ s.stack.frames

theorem ends_saveSlot : Ends (saveSlot e g) (fun _ t => Saved s g true t) s := by
  refine Ends.bind (ends_slotOf fun slot hslot => Ends.bind (ends_get (ends_push
    ⟨⟨rfl, rfl, rfl⟩, rfl, ?_⟩)))
  intro slot' hslot'
  obtain rfl : slot = slot' := Option.some.inj (hslot.symm.trans hslot')
  rfl

/-- A group is changed after a record of it has been left, if one is wanted. -/
theorem ends_recorded {rest : Run Unit} {Q : Unit → State → Prop} {undo : Bool}
    (h : ∀ t, Saved s g undo t → Ends rest Q t) :
    Ends (if undo = true then saveSlot e g >>= fun _ => rest else rest) Q s := by
  cases undo with
  | true => exact Ends.bind (ends_saveSlot.mono fun _ t ht => h t ht)
  | false => exact h s ⟨⟨rfl, rfl, rfl⟩, rfl, fun _ _ => rfl⟩

theorem effective_openGroup {c : View} {undo : Bool} (hc : c.Fits e.program)
    (hundo : undo = false → ¬ e.program.Restores g) :
    Effective e (.groupStart g undo) (openGroup e g undo) c := by
  intro s hs
  subst hs
  refine ends_recorded fun t ⟨⟨hip, hpos, hstart⟩, hregs, hframes⟩ => ?_
  refine Ends.bind (ends_slotOf fun slot hslot => Ends.bind (ends_get ?_))
  refine Ends.bind (ends_modify (ends_modify ?_))
  rw [hregs] at hslot
  refine effect_slot undo { slot with start := some t.pos } s.regs.captures.history hc.regs hslot
    ⟨congrArg (· + 1) hip, hpos⟩ hstart (fun h => ⟨rfl, h⟩) (fun h => ⟨hundo h, rfl⟩)
    (hframes slot hslot) ?_ ?_
  · change ({ t.regs with captures := t.regs.captures.setSlot g _ } : Registers) = _
    rw [hregs]
    rfl
  · change Sets e _ s.view _ (t.regs.captures.setSlot g { slot with start := some t.pos })
    rw [hregs, hpos]
    exact .opens rfl hslot

theorem effective_closeGroup {c : View} (undo : Bool) (hc : c.Fits e.program)
    (hi : i.Ends g undo) (hto : Leads e i c.ip c.pos (c.ip + 1) c.pos)
    (hsaves : undo = true → i.Saves g) (hundo : undo = false → ¬ e.program.Restores g) :
    Effective e i (closeGroup e g undo) c := by
  intro s hs
  subst hs
  refine ends_recorded fun t ⟨⟨hip, hpos, ht⟩, hregs, hframes⟩ => ?_
  refine Ends.bind (ends_slotOf fun slot hslot => Ends.bind (ends_get ?_))
  rw [hregs] at hslot
  cases hstart : slot.start with
  | none => exact ends_halt _
  | some start =>
    refine Ends.bind (ends_modify ?_)
    let after := s.regs.captures.closed g ⟨start, t.pos⟩ (undo && e.program.has .captureHistory)
    have hclosed : ∀ d : View, d.ip = t.ip + 1 → d.pos = t.pos → d.start = t.start →
        d.frames = t.stack.frames → d.regs = { s.regs with captures := after } →
        Effect e i s.view d := by
      intro d hdip hdpos hdstart hd hr
      refine effect_slot undo ⟨some start, some ⟨start, t.pos⟩⟩ after.history hc.regs hslot ?_
        (hdstart.trans ht) hsaves (fun h => ⟨hundo h, by simp only [after, h]; rfl⟩)
        (hd.trans (hframes slot hslot)) ?_ ?_
      · rw [hdip, hdpos, hip, hpos]
        exact hto
      · rw [hr]
        exact congrArg (fun captures => ({ s.regs with captures := captures } : Registers))
          (Captures.closed_eq ..)
      · rw [hr]
        simp only [after, hpos]
        exact .closes hi hslot hstart
    split
    · rename_i hboth
      refine Ends.bind (ends_modify (ends_modify (hclosed _ rfl rfl rfl rfl ?_)))
      change ({ t.regs with captures := (t.regs.captures.setSlot g _).record g _ } : Registers) = _
      simp only [after, hregs, hboth]
      rfl
    · rename_i hboth
      refine ends_modify (hclosed _ rfl rfl rfl rfl ?_)
      change ({ t.regs with captures := t.regs.captures.setSlot g _ } : Registers) = _
      simp only [after, hregs, Bool.not_eq_true _ ▸ hboth]
      rfl

theorem effective_keepOut {c : View} : Effective e .keep (keepOut e) c := by
  intro s hs
  subst hs
  refine Ends.bind (ends_get (Ends.bind (ends_push (Ends.bind (ends_modify (ends_modify ?_))))))
  exact .pushes ⟨rfl, rfl⟩ rfl rfl trivial trivial (.refl _) (.pushes rfl rfl)

theorem effective_matchCopy {c : View} (groups : List Nat) (fold : Bool) :
    Effective e (.backref groups fold) (matchCopy e groups fold) c := by
  intro s hs
  subst hs
  have hto : ∀ k, Extent.onward e.subject.size s.pos (s.pos + k) →
      Leads e (.backref groups fold) s.ip s.pos (s.ip + 1) (s.pos + k) := fun k h => ⟨rfl, h⟩
  refine Ends.bind (ends_get ?_)
  split
  · rename_i n hn
    refine effective_consume (c := s.view) (some n) rfl (fun k hk => ?_) s rfl
    cases hk
    exact hto n (onward_of_copy (c := s.view) hn)
  · split
    · exact effective_next (c := s.view) rfl (hto 0 (Extent.onward_refl _ _)) s rfl
    · exact effective_backtrack s rfl

theorem effective_branchIfSet {c : View} (groups : List Nat) (a : Addr) :
    Effective e (.ifSet groups a) (branchIfSet groups a) c := by
  have hto : ∀ b, b = c.ip + 1 ∨ b = a → Leads e (.ifSet groups a) c.ip c.pos b c.pos :=
    fun b h => ⟨h, rfl⟩
  intro s hs
  refine Ends.bind (ends_get ?_)
  split
  · exact effective_next rfl (hto _ (Or.inl rfl)) s hs
  · exact effective_goTo rfl (hto _ (Or.inr rfl)) s hs

/-! ### Calls -/

theorem length_saved {r : Registers} {sub : Subroutine} (hr : r.Fits e.program)
    (hfits : sub.Fits e.program.tables) :
    (r.saved sub).counts.length = sub.loops.stop - sub.loops.first := by
  have := hr.counts
  have := hfits.size
  simp only [Registers.saved, Array.length_toList, Array.size_extract]
  omega

/-- What a view becomes when a subroutine is called. -/
def View.called (c : View) (target : Addr) (sub : Nat) (r : Subroutine) : View :=
  ⟨target, c.pos, c.start, .call (c.ip + 1) sub (c.regs.saved r) :: c.frames,
    { c.regs with depth := c.regs.depth + 1 }⟩

/-- What a view becomes when the call of a subroutine is returned from. -/
def View.left (c : View) (p : Program) (back : Addr) (sub : Nat) (saved : CallState)
    (r : Subroutine) : View :=
  ⟨back, c.pos, c.start, .returned sub (c.regs.saved r) :: c.frames,
    { c.regs.setCallState p sub saved with depth := c.regs.depth - 1 }⟩

theorem ends_enterCall {c : View} (target : Addr) (sub : Nat) (hc : c.Fits e.program)
    (hsubs : ∀ r ∈ e.program.tables.subroutines, r.Fits e.program.tables) {s : State}
    (hs : s.view = c) :
    Ends (enterCall e target sub) (fun _ t => ∃ r, e.program.tables.subroutines[sub]? = some r ∧
      t.view = c.called target sub r) s := by
  subst hs
  refine Ends.bind (ends_get ?_)
  dsimp only
  split
  · exact Ends.bind (ends_halt _)
  · refine Ends.bind (ends_callState hsubs hc.regs fun r hr => ?_)
    refine Ends.bind (ends_push (Ends.bind (ends_modify ?_)))
    refine ends_of_brings (c := { s.view with
      frames := .call (s.ip + 1) sub (s.regs.saved r) :: s.stack.frames
      regs := { s.regs with depth := s.regs.depth + 1 } })
      (Q := fun d => ∃ r, e.program.tables.subroutines[sub]? = some r ∧ d = s.view.called target sub r)
      (.andThen (brings_emit (brings_goTo ?_))) rfl
    exact ⟨r, hr, rfl⟩

theorem effective_enterCall {c : View} (target : Addr) (sub : Nat) (hc : c.Fits e.program)
    (hsubs : ∀ r ∈ e.program.tables.subroutines, r.Fits e.program.tables) :
    Effective e (.call target sub) (enterCall e target sub) c := fun _ hs =>
  (ends_enterCall target sub hc hsubs hs).mono fun _ _ ⟨r, hr, hd⟩ => .calls target sub r rfl hr hd

/-- The call that is returned from belongs to the stack. -/
theorem callFrom_mem {level : Nat} {frames : List Frame} {back : Addr} {sub : Nat}
    {saved : CallState} (h : FrameStack.callFrom level frames = some (back, sub, saved)) :
    .call back sub saved ∈ frames := by
  induction frames generalizing level with
  | nil => cases h
  | cons f frames ih =>
    cases f with
    | call back' sub' saved' =>
      rw [FrameStack.callFrom] at h
      split at h
      · cases h
        exact List.mem_cons_self
      · exact List.mem_cons_of_mem _ (ih h)
    | _ => exact List.mem_cons_of_mem _ (ih h)

theorem ends_leaveCall {c : View} (hc : c.Fits e.program)
    (hsubs : ∀ r ∈ e.program.tables.subroutines, r.Fits e.program.tables) {s : State}
    (hs : s.view = c) :
    Ends (leaveCall e) (fun _ t => ∃ back sub saved r,
      FrameStack.callFrom 0 c.frames = some (back, sub, saved) ∧
      e.program.tables.subroutines[sub]? = some r ∧ c.regs.depth ≠ 0 ∧
      t.view = c.left e.program back sub saved r) s := by
  subst hs
  refine Ends.bind (ends_get (Ends.bind (ends_require fun ⟨back, sub, saved⟩ hcall => ?_)))
  obtain ⟨r, hr, hlen⟩ := hc.frames _ (callFrom_mem hcall)
  refine Ends.bind (ends_callState hsubs hc.regs fun r' hr' => ?_)
  obtain rfl : r = r' := Option.some.inj (hr.symm.trans hr')
  refine Ends.bind (ends_modify (Ends.bind (ends_push (Ends.bind (ends_get ?_)))))
  dsimp only
  split
  · exact Ends.bind (ends_halt _)
  · rename_i hdepth
    have hsame : (s.regs.setCallState e.program sub saved).depth = s.regs.depth := by
      unfold Registers.setCallState
      rw [hr]
    have hne : s.regs.depth ≠ 0 := by simpa [hsame] using hdepth
    refine Ends.bind (ends_modify ?_)
    refine (ends_of_brings (c := { s.view with
      frames := .returned sub (s.regs.saved r) :: s.stack.frames
      regs := { s.regs.setCallState e.program sub saved with depth := s.regs.depth - 1 } })
      (Q := (· = s.view.left e.program back sub saved r))
      (.andThen (brings_emit (brings_goTo rfl))) ?_).mono fun _ _ ht =>
        ⟨back, sub, saved, r, hcall, hr, hne, ht⟩
    simp only [State.view, FrameStack.push_frames, hsame]

theorem effective_leaveCall {c : View} (hc : c.Fits e.program)
    (hsubs : ∀ r ∈ e.program.tables.subroutines, r.Fits e.program.tables) :
    Effective e .ret (leaveCall e) c := fun _ hs =>
  (ends_leaveCall hc hsubs hs).mono fun _ _ ⟨back, sub, saved, r, hcall, hr, hdepth, hd⟩ =>
    .returns back sub saved r rfl hcall hr hdepth hd

end

/-! ### Loops -/

section
variable {e : Setting} {i : Instr} {c : View}

/-- A count has been set after a record of it was left, and a choice may have been left after that. -/
theorem effect_rounds {d : View} {l : CountedLoop} {round out : Bool} {id n rounds : Nat}
    (hfits : c.regs.Fits e.program) (hn : c.regs.counts[id]? = some n) (hi : i.Counts id)
    (hround : round = true → Leads e i c.ip c.pos l.body c.pos)
    (hout : out = true → Leads e i c.ip c.pos l.exit c.pos)
    (hd : Rounds l round out (c.counting id n rounds) d) : Effect e i c d := by
  have hid := (Array.getElem?_eq_some_iff.mp hn).1
  have hback : (c.regs.counts.setIfInBounds id rounds).setIfInBounds id n = c.regs.counts := by
    apply Array.ext_getElem?
    intro k
    by_cases hk : id = k
    · subst hk
      rw [Array.getElem?_setIfInBounds_self_of_lt (by simpa using hid), hn]
    · rw [Array.getElem?_setIfInBounds_ne hk, Array.getElem?_setIfInBounds_ne hk]
  obtain ⟨C, hframes, hC, hto⟩ : ∃ C, d.frames = C ++ .count id n :: c.frames ∧
      (∀ f ∈ C, ∃ a, f = .alternative a c.pos ∧ Leads e i c.ip c.pos a c.pos) ∧
      Leads e i c.ip c.pos d.ip c.pos := by
    rcases hd.case with ⟨hr, hip, h⟩ | ⟨ho, hip, h⟩ | ⟨hr, ho, ⟨hip, h⟩ | ⟨hip, h⟩⟩
    · exact ⟨[], h, nofun, hip ▸ hround hr⟩
    · exact ⟨[], h, nofun, hip ▸ hout ho⟩
    · exact ⟨[_], h, fun f hf => ⟨_, List.mem_singleton.mp hf, hout ho⟩, hip ▸ hround hr⟩
    · exact ⟨[_], h, fun f hf => ⟨_, List.mem_singleton.mp hf, hround hr⟩, hip ▸ hout ho⟩
  have hchoice : ∀ f ∈ C, f.isChoice = true := fun f hf => by
    obtain ⟨a, rfl, -⟩ := hC f hf
    rfl
  have hpos : d.pos = c.pos := hd.pos
  refine .goes (C ++ [.count id n]) (hpos ▸ hto) hd.start (by simp [hframes]) (fun f hf => ?_)
    ⟨C, _, rfl, hchoice, fun f hf => List.mem_singleton.mp hf ▸ rfl⟩ (fun f hf => ?_) (.of_eq ?_)
    ?_
  · rcases List.mem_append.mp hf with hf | hf
    · obtain ⟨a, rfl, ha⟩ := hC f hf
      exact ha
    · exact List.mem_singleton.mp hf ▸ hi
  · rcases List.mem_append.mp hf with hf | hf
    · obtain ⟨a, rfl, -⟩ := hC f hf
      trivial
    · exact List.mem_singleton.mp hf ▸ (show id < _ by rw [← hfits.counts]; exact hid)
  · rw [Registers.undoAll_append, Registers.undoAll_choices hchoice, hd.regs]
    simp only [View.counting, Registers.undoAll_cons, Registers.undoAll_nil, Registers.undo, hback]
  · rw [hd.regs]
    refine .keeps hi.ended? fun f hf => ?_
    rcases List.mem_append.mp hf with hf | hf
    · exact Frame.isCapture_of_isChoice (hchoice f hf)
    · exact List.mem_singleton.mp hf ▸ rfl

theorem effective_enterLoop (id : Nat) (hc : c.Fits e.program) :
    Effective e (.repeatEnter id) (enterLoop e id) c := by
  intro s hs
  subst hs
  refine Ends.bind (ends_loopState fun l n hl hn => Ends.bind (ends_push (Ends.bind
    (ends_modify ?_))))
  have hround : ∀ d, Rounds l true (decide (l.min = 0)) (s.view.counting id n 0) d →
      Effect e (.repeatEnter id) s.view d := fun d hd =>
    effect_rounds hc.regs hn rfl (fun _ => ⟨l, hl, Or.inl rfl, rfl⟩)
      (fun h => ⟨l, hl, Or.inr ⟨of_decide_eq_true h, rfl⟩, rfl⟩) hd
  refine ends_of_brings (c := s.view.counting id n 0) ?_ rfl
  split
  · rename_i hmin
    have hzero : l.min = 0 := by simpa using hmin
    exact brings_chooseRound fun d hd => hround d (by simpa [hzero] using hd)
  · exact brings_goTo (hround _ ⟨rfl, rfl, rfl, Or.inl ⟨rfl, rfl, rfl⟩⟩)

theorem effective_endRound (id : Nat) (hc : c.Fits e.program) :
    Effective e (.repeatNext id) (endRound e id) c := by
  intro s hs
  subst hs
  refine Ends.bind (ends_loopState fun l n hl hn => Ends.bind (ends_push (Ends.bind
    (ends_modify ?_))))
  have hround : ∀ d, Rounds l true true (s.view.counting id n (n + 1)) d →
      Effect e (.repeatNext id) s.view d := fun d hd =>
    effect_rounds hc.regs hn rfl (fun _ => ⟨l, hl, Or.inl rfl, rfl⟩)
      (fun _ => ⟨l, hl, Or.inr rfl, rfl⟩) hd
  refine ends_of_brings (c := s.view.counting id n (n + 1)) ?_ rfl
  split
  · exact brings_goTo (hround _ ⟨rfl, rfl, rfl, Or.inr (Or.inl ⟨rfl, rfl, rfl⟩)⟩)
  · split
    · exact brings_goTo (hround _ ⟨rfl, rfl, rfl, Or.inl ⟨rfl, rfl, rfl⟩⟩)
    · exact brings_chooseRound hround

theorem effective_checkRound (id : Nat) (captures : Bool) :
    Effective e (.roundEnd id captures) (checkRound id captures) c := by
  intro s hs
  subst hs
  have hto : ∀ b, b = s.ip + 1 ∨ b = s.ip + 2 →
      Leads e (.roundEnd id captures) s.ip s.pos b s.pos := fun b h => ⟨h, rfl⟩
  refine Ends.bind (ends_get (Ends.bind (ends_require fun v hv => ?_)))
  dsimp only
  split
  · exact effective_goTo (c := s.view) rfl (hto _ (Or.inr rfl)) s rfl
  · exact effective_goTo (c := s.view) rfl (hto _ (Or.inl rfl)) s rfl

theorem effective_passGuard {site : Nat} {within : Option Nat} (hsite : site < e.program.tables.guards) :
    Effective e (.guard site within) (passGuard e site within) c := by
  intro s hs
  have hto : Leads e (.guard site within) c.ip c.pos (c.ip + 1) c.pos := ⟨rfl, rfl⟩
  have hnext : Ends next (fun _ t => Effect e (.guard site within) c t.view) s :=
    effective_next rfl hto s hs
  have htest : ∀ memo : Memo, Ends (if memo.hasFailed site s.pos then backtrack e else do
      push e (.guard site s.pos)
      next) (fun _ t => Effect e (.guard site within) c t.view) s := by
    intro memo
    split
    · exact effective_backtrack s hs
    · exact effective_marker (f := .guard site s.pos) rfl rfl hto trivial hsite (fun _ => rfl) s hs
  refine Ends.bind (ends_get ?_)
  cases s.memo with
  | none => exact hnext
  | some memo =>
    cases within with
    | none => exact htest memo
    | some check =>
      refine Ends.bind (ends_require fun v hv => Ends.bind (ends_pure ?_))
      dsimp only
      split
      · exact hnext
      · exact htest memo

theorem onward_of_anyFrom {t : Subject} {multiline : Bool} {pos q : Nat}
    (h : anyFrom t multiline pos q) : Extent.onward t.size pos q := by
  obtain ⟨k, h⟩ := h
  refine Extent.times_onward (fun p q hpq => ?_) h
  exact Extent.text_onward (fun _ _ hn => Extent.onward_of_le (Subject.anyLength?_bounds hn).1) hpq

theorem effective_takeAny (multiline : Bool) (before : Option UInt8) (hi : i.ended? = none)
    (hto : ∀ y, Extent.onward e.subject.size c.pos y → Leads e i c.ip c.pos (c.ip + 1) y) :
    Effective e i (takeAny e multiline before) c := by
  intro s hs
  subst hs
  refine Ends.bind (ends_get (ends_of_brings (c := s.view) (brings_passAny
    (Q := Effect e i s.view) fun q ps hq hps => ?_) rfl))
  have hchoice : ∀ f ∈ ps.map (Frame.alternative (s.ip + 1)), f.isChoice = true := fun f hf => by
    obtain ⟨p, -, rfl⟩ := List.mem_map.mp hf
    rfl
  refine .goes _ (hto q (onward_of_anyFrom hq)) rfl rfl (fun f hf => ?_)
    ⟨_, [], (List.append_nil _).symm, hchoice, nofun⟩ (fun f hf => ?_)
    (.of_eq (Registers.undoAll_choices hchoice _))
    (.keeps hi fun f hf => Frame.isCapture_of_isChoice (hchoice f hf))
  · obtain ⟨p, hp, rfl⟩ := List.mem_map.mp hf
    exact hto p (onward_of_anyFrom (hps p hp))
  · obtain ⟨p, -, rfl⟩ := List.mem_map.mp hf
    trivial

end

/-! ### Regions -/

/-- A search for a marker comes to it past frames that it does not count. -/
theorem viewFrom_locates {q : Frame → Bool} {frames above below : List Frame} {level : Nat}
    {h : above.reverse ++ below = frames} {v : FrameView frames}
    (hv : FrameStack.viewFrom q frames above level below h = some v) :
    ∃ F, v.above = F.reverse ++ above ∧ below = F ++ v.frame :: v.below ∧
      Locates q level F v.frame := by
  induction below generalizing above level with
  | nil => cases hv
  | cons f below ih =>
    have hother : FrameStack.isCallFrame f = false →
        (if level = 0 && q f then some (⟨above, f, below, h⟩ : FrameView frames)
          else FrameStack.viewFrom q frames (f :: above) level below (by simpa using h)) = some v →
        ∃ F, v.above = F.reverse ++ above ∧ f :: below = F ++ v.frame :: v.below ∧
          Locates q level F v.frame := by
      intro hf hfound
      split at hfound
      · rename_i hq
        obtain ⟨hlevel, hq⟩ := Bool.and_eq_true_iff.mp hq
        obtain rfl := of_decide_eq_true hlevel
        obtain rfl := Option.some.inj hfound
        exact ⟨[], rfl, rfl, .here hq hf⟩
      · obtain ⟨F, habove, hbelow, hF⟩ := ih hfound
        exact ⟨f :: F, by simp [habove], by rw [hbelow]; rfl, .other hf hF⟩
    cases f with
    | returned sub undo =>
      obtain ⟨F, habove, hbelow, hF⟩ := ih hv
      exact ⟨.returned sub undo :: F, by simp [habove], by rw [hbelow]; rfl, .returned sub undo hF⟩
    | call back sub saved =>
      unfold FrameStack.viewFrom at hv
      dsimp only at hv
      split at hv
      · cases hv
      · rename_i hlevel
        obtain ⟨F, habove, hbelow, hF⟩ := ih hv
        obtain ⟨k, rfl⟩ := Nat.exists_eq_succ_of_ne_zero hlevel
        exact ⟨.call back sub saved :: F, by simp [habove], by rw [hbelow]; rfl,
          .call back sub saved hF⟩
    | _ => exact hother rfl hv

section
variable {e : Setting} {i : Instr} {c : View}

/-- A region has been closed. -/
theorem effect_commit {s : State} {q : Frame → Bool} {v : FrameView s.stack.frames} {d : View}
    (hv : s.stack.view? q = some v)
    (hm : (∃ mark, i = .lookEnd mark ∧ v.frame = .look mark d.pos) ∨
      (∃ mark, i = .atomicEnd mark ∧ v.frame = .atomic mark ∧ d.pos = s.pos))
    (hip : d.ip = s.ip + 1) (hstart : d.start = s.start)
    (hd : d.frames = (s.stack.commit v).frames) (hr : d.regs = s.regs) :
    Effect e i s.view d := by
  obtain ⟨F, habove, hbelow, hF⟩ := viewFrom_locates hv
  refine .closes q F v.frame v.below hbelow hF hm hip hstart ?_ hr
  rw [hd, FrameStack.commit_frames, habove]
  simp

theorem effective_endLook (mark : Nat) : Effective e (.lookEnd mark) (endLook e mark) c := by
  intro s hs
  subst hs
  refine Ends.bind (ends_get (Ends.bind (ends_require fun v hv => Ends.bind (ends_modify ?_))))
  refine ends_of_brings (Brings.andThen (brings_emit (brings_next ?_))) rfl
  have hlook : v.frame = .look mark (FrameStack.savedPos v.frame) := by
    obtain ⟨F, -, -, hF⟩ := viewFrom_locates hv
    have htest := hF.test
    cases hf : v.frame with
    | look m pos =>
      rw [hf] at htest
      rw [show m = mark by simpa [FrameStack.isLook] using htest]
      rfl
    | _ =>
      rw [hf] at htest
      cases htest
  exact effect_commit hv (Or.inl ⟨mark, rfl, hlook⟩) rfl rfl rfl rfl

theorem effective_endAtomic (mark : Nat) : Effective e (.atomicEnd mark) (endAtomic e mark) c := by
  intro s hs
  subst hs
  refine Ends.bind (ends_get (Ends.bind (ends_require fun v hv => Ends.bind (ends_modify ?_))))
  refine ends_of_brings (Brings.andThen (brings_emit (brings_next ?_))) rfl
  have hatomic : v.frame = .atomic mark := by
    obtain ⟨F, -, -, hF⟩ := viewFrom_locates hv
    have htest := hF.test
    cases hf : v.frame with
    | atomic m =>
      rw [hf] at htest
      rw [show m = mark by simpa [FrameStack.isAtomic] using htest]
    | _ =>
      rw [hf] at htest
      cases htest
  exact effect_commit hv (Or.inr ⟨mark, rfl, hatomic, rfl⟩) rfl rfl rfl rfl

theorem effective_checkPos (mark : Nat) : Effective e (.checkPos mark) (checkPos e mark) c :=
  fun s hs => by
  have hto : Leads e (.checkPos mark) c.ip c.pos (c.ip + 1) c.pos := ⟨rfl, rfl⟩
  exact Ends.bind (ends_get (Ends.bind (ends_require fun _ _ => effective_check _ rfl hto s hs)))

/-- Unwinding takes frames off and undoes them, down to the lookaround that it looks for. -/
theorem ends_unwindFrom {mark level : Nat} {frames : List Frame} {size : Nat}
    {hsize : size = frames.length} {s : State} :
    Ends (unwindFrom e mark level frames size hsize) (fun _ t => ∃ F pos K,
      frames = F ++ .look mark pos :: K ∧
      Locates (FrameStack.isLook mark) level F (.look mark pos) ∧
      t.view = { s.view with frames := K, regs := s.regs.undoAll e.program F }) s := by
  induction frames generalizing level size s with
  | nil => exact ends_require fun _ h => nomatch h
  | cons f frames ih =>
    -- A frame that is undone, with what comes of the frames below it.
    have hunder : ∀ (level level' size : Nat) (hsize : size = frames.length) (s : State),
        (∀ F pos, Locates (FrameStack.isLook mark) level' F (.look mark pos) →
          Locates (FrameStack.isLook mark) level (f :: F) (.look mark pos)) →
        Ends (modifyRegs (·.undo e.program f) >>= fun _ => unwindFrom e mark level' frames size hsize)
          (fun _ t => ∃ F pos K, f :: frames = F ++ .look mark pos :: K ∧
            Locates (FrameStack.isLook mark) level F (.look mark pos) ∧
            t.view = { s.view with frames := K, regs := s.regs.undoAll e.program F }) s := by
      intro level level' size hsize s hpass
      refine Ends.bind (ends_modify (ih.mono fun _ t ⟨F, pos, K, hframes, hF, ht⟩ => ?_))
      exact ⟨f :: F, pos, K, by rw [hframes]; rfl, hpass F pos hF, ht⟩
    unfold unwindFrom
    dsimp only
    split
    · rename_i hlook
      obtain ⟨hlevel, hlook⟩ := Bool.and_eq_true_iff.mp hlook
      obtain rfl : level = 0 := by simpa using hlevel
      cases f with
      | look m pos =>
        obtain rfl : m = mark := by simpa [FrameStack.isLook] using hlook
        exact ends_modify ⟨[], pos, frames, rfl, .here hlook rfl, rfl⟩
      | _ => cases hlook
    · split
      · exact hunder _ _ _ _ _ fun F pos hF => .returned _ _ hF
      · split
        · exact ends_require fun _ h => nomatch h
        · rename_i hlevel
          obtain ⟨k, rfl⟩ := Nat.exists_eq_succ_of_ne_zero (n := level) (by simpa using hlevel)
          exact hunder _ _ _ _ _ fun F pos hF => .call _ _ _ hF
      · rename_i hreturned hcall
        refine hunder _ _ _ _ _ fun F pos hF => .other ?_ hF
        cases f with
        | call back sub saved => exact (hcall back sub saved hsize rfl).elim
        | returned sub undo => exact (hreturned sub undo hsize rfl).elim
        | _ => rfl

theorem effective_unwind (mark : Nat) : Effective e (.unwind mark) (unwind e mark) c := by
  intro s hs
  subst hs
  refine Ends.bind (x := modifyGet _) ?_
  rintro _ _ ⟨⟩
  refine Ends.bind (ends_unwindFrom.mono fun _ t ht => ends_modify ?_)
  obtain ⟨F, pos, K, hframes, hF, ht⟩ := ht
  refine .unwinds mark pos F K rfl hframes hF ?_
  rw [show State.view { t with ip := t.ip + 1 } = { t.view with ip := t.view.ip + 1 } from rfl, ht]
  rfl

theorem effective_stepBack (min : Nat) (max : Option Nat) :
    Effective e (.stepBack min max) (stepBack e min max) c := by
  intro s hs
  refine Ends.bind (ends_get ?_)
  split
  · exact effective_backtrack s hs
  · subst hs
    rename_i p hp
    have hle : ∀ z ≤ p, Leads e (.stepBack min max) s.ip s.pos (s.ip + 1) z := fun z hz =>
      ⟨rfl, Nat.le_trans hz (back?_le hp)⟩
    dsimp only
    split
    · refine Ends.bind (ends_push (ends_modify ?_))
      exact .pushes (hle p (Nat.le_refl p)) rfl rfl hle trivial (.refl _) (.pushes rfl rfl)
    · exact ends_modify (.moves rfl (hle p (Nat.le_refl p)) rfl rfl rfl)

theorem effective_takeAbsent (r : Runner) (b : Addr) :
    Effective e (.absent b) (takeAbsent r e b) c := by
  intro s hs
  refine Ends.bind (ends_get ?_)
  split
  · exact ends_halt _
  · exact effective_backtrack s hs
  · subst hs
    rename_i stop hstop
    have hle := onward_of_absentEnd hstop
    have hto : ∀ z, s.pos ≤ z → z ≤ stop → Leads e (.absent b) s.ip s.pos (s.ip + 1) z :=
      fun z hz hz' => ⟨rfl, hz, Nat.le_trans hz' hle.2⟩
    split
    · refine Ends.bind (ends_push (ends_modify ?_))
      exact .pushes (hto stop hle.1 (Nat.le_refl _)) rfl rfl hto trivial (.refl _) (.pushes rfl rfl)
    · exact ends_modify (.moves rfl (hto stop hle.1 (Nat.le_refl _)) rfl rfl rfl)

/-! ### Ends -/

/-- What is dropped is a choice. -/
theorem effective_dropTop {f : Frame} {K : List Frame} (hc : c.frames = f :: K)
    (hf : f.isChoice = true) : Effective e .drop dropTop c := by
  intro s hs
  subst hs
  refine Ends.bind (ends_get (Ends.bind (ends_require fun ⟨g, stack⟩ hpop => ends_modify ?_)))
  have hstack : stack.frames = K := by
    unfold FrameStack.pop? at hpop
    split at hpop
    · cases hpop
    · rename_i g' K' hframes
      cases hpop
      exact (List.cons.inj (hframes.symm.trans hc)).2
  exact .drops f K rfl hc hf (hstack ▸ rfl)

theorem effective_accept : Effective e .accept (accept e) c := by
  intro s hs
  refine Ends.bind (ends_get ?_)
  dsimp only
  split
  · exact effective_backtrack s hs
  · split
    · split
      · exact Ends.bind (ends_halt _)
      · split
        · refine Ends.bind (ends_emit (Ends.bind (ends_modify ?_)))
          refine effective_backtrack _ ?_
          rw [← hs, ← view_emit s e]
          rfl
        · exact effective_backtrack s hs
    · exact Ends.bind (ends_emit (ends_halt _))

end

/-! ### What effects have in common -/

/-- Void frames that are taken off the top undo nothing. -/
theorem become_settled {p : Program} {K M N : List Frame} (h : Become p K M) (hN : Settled M N) :
    ∃ A L, K = A ++ L ∧ Become p L N ∧ ∀ r : Registers, r.undoAll p A = r := by
  obtain ⟨vs, hvs, rfl⟩ := hN
  induction vs generalizing K with
  | nil => exact ⟨[], K, rfl, h, fun _ => rfl⟩
  | cons v vs ih =>
    cases h with
    | cons hf hK =>
      rename_i f K
      obtain ⟨A, L, rfl, hL, hA⟩ := ih (fun g hg => hvs g (List.mem_cons_of_mem _ hg)) hK
      refine ⟨f :: A, L, rfl, hL, fun r => ?_⟩
      have hvoid := hf.undo r
      rw [hvs v (by simp)] at hvoid
      rw [Registers.undoAll_cons, ← hvoid]
      exact hA r

/-- Closing a region for good undoes nothing, and what was recorded can still be undone. -/
theorem passes_commit {p : Program} {c d : View} {F K : List Frame} {m : Frame}
    (hc : c.frames = F ++ m :: K) (hm : ∀ r : Registers, r.undo p m = r)
    (hd : d.frames = (F.map Frame.committed ++ .void :: K).dropWhile Frame.isVoid)
    (hr : d.regs = c.regs) : Passes p c d := by
  have hpile : Become p c.frames (F.map Frame.committed ++ .void :: K) := by
    rw [hc]
    refine List.rel_append ?_ (.cons (Frame.becomes_void hm) (become_refl _ _))
    exact List.forall₂_map_right_iff.mpr
      (List.forall₂_same.mpr fun f _ => Frame.becomes_committed p f)
  obtain ⟨A, L, hK, hL, hA⟩ := become_settled hpile (.dropVoids _)
  exact .takes A L hK (hd ▸ hL) (.of_eq (hr.trans (hA _).symm))

theorem Effect.start_eq {e : Setting} {i : Instr} {c d : View} (h : Effect e i c d) :
    d.start = c.start := by
  cases h with
  | goes F hto hstart => exact hstart
  | resumes A g L top hc hg hstart => exact hstart
  | closes q F m K hc hF hm hip hstart => exact hstart
  | calls t sub s hi hs hd => rw [hd]
  | returns back sub saved s hi hcall hs hdepth hd => rw [hd]
  | unwinds mark pos F K hi hc hF hd => rw [hd]
  | drops f K hi hc hf hd => rw [hd]

/-- Whatever an instruction does can be undone. -/
theorem Effect.passes {e : Setting} {i : Instr} {c d : View} (h : Effect e i c d)
    (hsubs : ∀ r ∈ e.program.tables.subroutines, r.Fits e.program.tables)
    (hfits : c.Fits e.program) : Passes e.program c d := by
  cases h with
  | goes F hto hstart hd hF hrec hF' hr => exact .adds F hd hrec hF' hr
  | calls t sub s hi hs hd =>
    subst hd
    exact .pushes rfl ⟨s, hs, length_saved hfits.regs (hsubs s (Array.mem_of_getElem? hs))⟩ (.refl _)
  | returns back sub saved s hi hcall hs hdepth hd =>
    subst hd
    obtain ⟨r, hr, hlen⟩ := hfits.frames _ (callFrom_mem hcall)
    obtain rfl : s = r := Option.some.inj (hs.symm.trans hr)
    have hsub := hsubs s (Array.mem_of_getElem? hs)
    exact .pushes rfl ⟨s, hs, length_saved hfits.regs hsub⟩
      (.of_eq (Registers.undo_returned hs hsub hfits.regs hdepth hlen))
  | resumes A g L top hc hg hstart hd hr =>
    have hchoice : ∀ r : Registers, r.undo e.program g = r := fun r =>
      Registers.undo_of_isChoice _ r g hg.isChoice
    rcases hg.becomes with rfl | ⟨g', hg', rfl⟩
    · refine .takes (A ++ [g]) L (by simp [hc]) (hd ▸ become_refl _ _) (.of_eq ?_)
      rw [Registers.undoAll_append]
      exact hr.trans (hchoice _).symm
    · refine .takes A (g :: L) hc ?_ (.of_eq hr)
      rw [hd]
      exact .cons hg' (become_refl _ _)
  | closes q F m K hc hF hm hip hstart hd hr =>
    refine passes_commit hc (fun r => ?_) hd hr
    rcases hm with ⟨_, -, rfl⟩ | ⟨_, -, rfl, -⟩ <;> rfl
  | unwinds mark pos F K hi hc hF hd =>
    subst hd
    refine .takes (F ++ [.look mark pos]) K (by simp [hc]) (become_refl _ _) (.of_eq ?_)
    rw [Registers.undoAll_append]
    rfl
  | drops f K hi hc hf hd =>
    subst hd
    exact .takes [f] K hc (become_refl _ _) (.of_eq (Registers.undo_of_isChoice _ _ f hf).symm)

/-! ## Steps -/

/-- The numbers of an instruction belong to its program. -/
theorem verified_instr {p : Program} (h : Program.verify p.code p.tables = none) {x : Addr}
    {i : Instr} (hi : p.code[x]? = some i) : i.error? p.tables p.code.size x = none := by
  have hlt : x < p.code.size := (Array.getElem?_eq_some_iff.mp hi).1
  have hcode : Program.codeError? p.code p.tables 0 p.code.size = none := by
    unfold Program.verify at h
    split at h
    · cases h
    · split at h
      · cases h
      · exact (Option.or_eq_none_iff.mp h).1
  exact Program.codeError?_none hcode ⟨Nat.zero_le x, by rwa [Nat.zero_add]⟩ hi

theorem effective_exec {e : Setting} {c : View} {i : Instr} (r : Runner)
    (hi : e.program.code[c.ip]? = some i)
    (hverified : Program.verify e.program.code e.program.tables = none)
    (hsubs : ∀ r ∈ e.program.tables.subroutines, r.Fits e.program.tables)
    (htop : i = .drop → ∃ f K, c.frames = f :: K ∧ f.isChoice = true) (hc : c.Fits e.program) :
    Effective e i (exec r e i) c := by
  cases i with
  | accept => exact effective_accept
  | byte b => exact effective_text (e.subject.byteLength? · b) rfl fun _ h => ⟨rfl, h⟩
  | text bytes => exact effective_text (e.subject.textLength? · bytes) rfl fun _ h => ⟨rfl, h⟩
  | foldedText bytes =>
    exact effective_text (e.subject.foldedLength? · bytes) rfl fun _ h => ⟨rfl, h⟩
  | charClass k => exact effective_text (e.subject.classLength? · k) rfl fun _ h => ⟨rfl, h⟩
  | charType type negated ascii =>
    exact effective_text (e.subject.typeLength? · type negated ascii) rfl fun _ h => ⟨rfl, h⟩
  | anyChar multiline =>
    exact effective_text (e.subject.anyLength? · multiline) rfl fun _ h => ⟨rfl, h⟩
  | anyChars multiline => exact effective_takeAny multiline none rfl fun _ h => ⟨rfl, h⟩
  | anyCharsBefore multiline b => exact effective_takeAny multiline (some b) rfl fun _ h => ⟨rfl, h⟩
  | anchor a =>
    exact fun s => effective_check (i := .anchor a) (e.subject.holds e.origin s.pos a) rfl ⟨rfl, rfl⟩ s
  | backref groups fold => exact effective_matchCopy groups fold
  | ifSet groups a => exact effective_branchIfSet groups a
  | groupStart g undo =>
    refine effective_openGroup hc fun hundo hrestores => ?_
    cases hundo.symm.trans (hrestores _ _ (Or.inl hi))
  | groupEnd g undo =>
    refine effective_closeGroup undo hc (Or.inl rfl) ⟨rfl, rfl⟩ (fun h => ⟨rfl, h⟩) fun hundo hrestores => ?_
    cases hundo.symm.trans (hrestores _ _ (Or.inr hi))
  | groupEndRecursive g =>
    exact effective_closeGroup true hc (Or.inr ⟨rfl, rfl⟩) ⟨rfl, rfl⟩ (fun _ => rfl) nofun
  | keep => exact effective_keepOut
  | fail => exact effective_backtrack
  | jump a => exact effective_goTo rfl ⟨rfl, rfl⟩
  | fork a => exact effective_fork a
  | drop =>
    obtain ⟨f, K, hf, hchoice⟩ := htop rfl
    exact effective_dropTop hf hchoice
  | repeatEnter id => exact effective_enterLoop id hc
  | repeatNext id => exact effective_endRound id hc
  | roundStart id =>
    exact fun s hs => effective_marker (i := .roundStart id) (f := .round id s.pos) rfl rfl ⟨rfl, rfl⟩
      trivial trivial (fun _ => rfl) s hs
  | roundEnd id captures => exact effective_checkRound id captures
  | lookStart mark =>
    exact fun s hs => effective_marker (i := .lookStart mark) (f := .look mark s.pos) rfl rfl
      ⟨Or.inl rfl, rfl⟩ ⟨rfl, congrArg View.pos hs⟩ trivial (fun _ => rfl) s hs
  | lookEnd mark => exact effective_endLook mark
  | atomicStart mark =>
    exact effective_marker (f := .atomic mark) rfl rfl ⟨rfl, rfl⟩ trivial trivial fun _ => rfl
  | atomicEnd mark => exact effective_endAtomic mark
  | unwind mark => exact effective_unwind mark
  | stepBack min max => exact effective_stepBack min max
  | checkPos mark => exact effective_checkPos mark
  | call a sub => exact effective_enterCall a sub hc hsubs
  | ret => exact effective_leaveCall hc hsubs
  | guard site within =>
    have herror := verified_instr hverified hi
    refine effective_passGuard ?_
    have hoperand := (Option.or_eq_none_iff.mp herror).2
    simp only [Instr.operandError?] at hoperand
    split at hoperand
    · assumption
    · cases hoperand
  | absent b => exact effective_takeAbsent r b
  | absentEnd => exact fun _ _ => ends_halt _

/-- What every step does. -/
theorem step_effect {e : Setting} {s t : State} (r : Runner) (h : step r e s = .ok () t)
    (hverified : Program.verify e.program.code e.program.tables = none)
    (hsubs : ∀ r ∈ e.program.tables.subroutines, r.Fits e.program.tables)
    (htop : e.program.code[s.ip]? = some .drop → ∃ f K, s.stack.frames = f :: K ∧ f.isChoice = true)
    (hs : s.view.Fits e.program) :
    ∃ i, e.program.code[s.ip]? = some i ∧ Effect e i s.view t.view := by
  cases hi : e.program.code[s.ip]? with
  | none =>
    simp only [step, bind_get, hi] at h
    cases h
  | some i =>
    rw [step_fetched r e s i hi] at h
    exact ⟨i, rfl, effective_exec r hi hverified hsubs (fun hd => htop (hd ▸ hi)) hs _
      (view_fetched s e i) _ _ h⟩

end RegexMachine.Machine
