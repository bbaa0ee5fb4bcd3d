import RegexMachine.Proofs.Settling

/-!
Two runs under one observer. The runs are of different programs and need not take the same number of
steps; what is observed of them is left open but for the ways in which it follows from what is
observed later. An observer counts the steps of the first run only.

Both runs have the same captures all the time, while each has its own counts of rounds. What their
stacks bring back of what they have in common is told by the mementos on them.
-/
namespace RegexMachine.Machine

/-- What a step comes to. -/
abbrev Outcome := Except Ending Core

/-! ## Steps -/

/-- What is left of an action once the machine has backtracked. -/
def outcome (e : Setting) : Except Ending Point → Outcome
  | .ok (.going d) => .ok d
  | .ok (.failing d) => resumeFrom e d.frames d
  | .error y => .error y

/-- An address that is watched, and with how many open calls. -/
abbrev Stop := Option (Addr × Nat)

/-- The machine stands where it is watched. -/
def Core.StopsAt (s : Stop) (c : Core) : Prop := s = some (c.ip, c.regs.depth)

/-- A step that is not watched and does not depend on the clock. -/
def StepsTo (e : Setting) (s : Stop) (c : Core) (v : Outcome) : Prop :=
  ¬ c.StopsAt s ∧ ∀ n, c.step n e = v

theorem stepsTo_act {e : Setting} {s : Stop} {c : Core} {i : Instr} {v : Except Ending Point}
    (hi : e.program.code[c.ip]? = some i) (hs : ¬ c.StopsAt s)
    (hact : ∀ spans, c.act e spans i = v) : StepsTo e s c (outcome e v) := by
  refine ⟨hs, fun n => ?_⟩
  simp only [Core.step, hi, hact]
  cases v with
  | error y => rfl
  | ok p => cases p <;> rfl

/-- Steps without a choice between two cores. -/
inductive Glides (e : Setting) (s : Stop) : Core → Core → Prop
  | refl (c : Core) : Glides e s c c
  | step {c d b : Core} (h : StepsTo e s c (.ok d)) (h' : Glides e s d b) : Glides e s c b

/-- Between two addresses nothing is watched at some number of open calls, and nothing anywhere at
greater numbers. -/
def Stop.Clears (s : Stop) (depth x y : Nat) : Prop :=
  ∀ a k : Nat, s = some (a, k) → k < depth ∨ k = depth ∧ (a < x ∨ y ≤ a)

namespace Stop.Clears

variable {s : Stop} {k x y w v : Nat} {c : Core}

theorem inside (h : s.Clears k x y) (hx : x ≤ w) (hy : v ≤ y) : s.Clears k w v := by
  intro a j hs
  have := h a j hs
  omega

/-- A call leads away from all that is watched. -/
theorem deeper (h : s.Clears k x y) (w v : Nat) : s.Clears (k + 1) w v := by
  intro a j hs
  have := h a j hs
  omega

theorem passes (h : s.Clears c.regs.depth x y) (hx : x ≤ c.ip) (hy : c.ip < y) : ¬ c.StopsAt s := by
  intro hs
  rcases h _ _ hs with hlt | ⟨-, hlt | hle⟩
  · exact Nat.lt_irrefl _ hlt
  · exact Nat.not_lt.mpr hx hlt
  · exact Nat.not_lt.mpr hle hy

end Stop.Clears

/-! ## Observers -/

/-- Two runs end alike: for the same reason, where all faults count as one. -/
def Ending.Akin : Ending → Ending → Prop
  | .accepted _, y => ∃ c, y = .accepted c
  | .exhausted _, y => ∃ c, y = .exhausted c
  | .broken h, y => ∃ h', y = .broken h' ∧ h.Like (fun _ _ => True) h'

/-- One who watches each of two runs at some place, and what is seen of them within some steps of the
first one. A step of either run may be looked past where it is not watched, and so may a step of both
that depends on the clock: the second run has all the time it needs. -/
structure Observer (e e' : Setting) where
  stop : Stop
  stop' : Stop
  sees : Nat → Outcome → Outcome → Prop
  left : ∀ {n c v v'}, StepsTo e stop c v → (∀ m < n, sees m v v') → sees n (.ok c) v'
  right : ∀ {n v c' v'}, StepsTo e' stop' c' v' → sees n v v' → sees n v (.ok c')
  meet : ∀ {n c c'}, ¬ c.StopsAt stop → ¬ c'.StopsAt stop' →
    (∀ m < n, c.step m e = .error (.broken .late) ∨
      ∃ v', (∃ N, ∀ k, N ≤ k → c'.step k e' = v') ∧ sees m (c.step m e) v') →
    sees n (.ok c) (.ok c')
  ending : ∀ {n y y'}, y.Akin y' → sees n (.error y) (.error y')

variable {e e' : Setting} {O : Observer e e'} {c c' d d' : Core} {n : Nat} {p p' : Program}
  {F F' K K' : List Frame}

namespace Observer

variable {v v' : Outcome}

theorem both (O : Observer e e') (hs : StepsTo e O.stop c v) (hs' : StepsTo e' O.stop' c' v')
    (hnext : ∀ m < n, O.sees m v v') : O.sees n (.ok c) (.ok c') :=
  O.left hs fun m hm => O.right hs' (hnext m hm)

theorem glides_left (O : Observer e e') (hc : Glides e O.stop c d)
    (hd : ∀ m ≤ n, O.sees m (.ok d) v') : O.sees n (.ok c) v' := by
  induction hc generalizing n with
  | refl => exact hd n (Nat.le_refl n)
  | step hs _ ih => exact O.left hs fun m hm => ih fun k hk => hd k (by omega)

theorem glides_right (O : Observer e e') (hc : Glides e' O.stop' c' d')
    (hd : O.sees n v (.ok d')) : O.sees n v (.ok c') := by
  induction hc with
  | refl => exact hd
  | step hs _ ih => exact O.right hs (ih hd)

theorem glides (O : Observer e e') (hc : Glides e O.stop c d) (hc' : Glides e' O.stop' c' d')
    (hd : ∀ m ≤ n, O.sees m (.ok d) (.ok d')) : O.sees n (.ok c) (.ok c') :=
  O.glides_left hc fun m hm => O.glides_right hc' (hd m hm)

/-- Neither run is watched between two addresses of its code, at a number of open calls. -/
structure Clears (O : Observer e e') (depth : Nat) (x x' y y' : Addr) : Prop where
  left : O.stop.Clears depth x y
  right : O.stop'.Clears depth x' y'

theorem Clears.inside {k x x' y y' w w' u u' : Nat} (h : O.Clears k x x' y y') (hx : x ≤ w)
    (hy : u ≤ y) (hx' : x' ≤ w') (hy' : u' ≤ y') : O.Clears k w w' u u' :=
  ⟨h.left.inside hx hy, h.right.inside hx' hy'⟩

theorem Clears.deeper {k x x' y y' : Nat} (h : O.Clears k x x' y y') (w w' u u' : Addr) :
    O.Clears (k + 1) w w' u u' := ⟨h.left.deeper w u, h.right.deeper w' u'⟩

end Observer

/-! ## What two runs have in common -/

/-- Registers but for the counts of rounds. -/
def Registers.uncounted (r : Registers) : Registers := { r with counts := #[] }

/-- Two runs are at the same place of the subject, with registers that differ in counts only. -/
structure Level (c c' : Core) : Prop where
  pos : c'.pos = c.pos
  regs : c'.regs.uncounted = c.regs.uncounted

namespace Level

theorem captures (h : Level c c') : c'.regs.captures = c.regs.captures :=
  (congrArg Registers.captures h.regs :)

theorem keep (h : Level c c') : c'.regs.keep = c.regs.keep := (congrArg Registers.keep h.regs :)

theorem depth (h : Level c c') : c'.regs.depth = c.regs.depth := (congrArg Registers.depth h.regs :)

/-- Nothing that two runs have in common has changed. -/
theorem of_eq (h : Level c c') (hp : d.pos = c.pos) (hp' : d'.pos = c'.pos)
    (hr : d.regs.uncounted = c.regs.uncounted) (hr' : d'.regs.uncounted = c'.regs.uncounted) :
    Level d d' :=
  ⟨hp'.trans (h.pos.trans hp.symm), hr'.trans (h.regs.trans hr.symm)⟩

end Level

/-- What code gives back when it is undone, besides what two runs have in common. -/
def Registers.ledger (r : Registers) : Array Nat × Nat := (r.counts, r.depth)

/-- What a frame brings back when it is undone, but for counts. -/
inductive Memento where
  | group (group : Nat) (slot : Slot) (history : History)
  | keep (start : Option Nat)
  | call
  /-- Starts of the groups of a subroutine. -/
  | returned (groups : Option IdRange) (starts : List (Option Nat))

def Frame.memento? (p : Program) : Frame → Option Memento
  | .capture g slot history => some (.group g slot history)
  | .keep start => some (.keep start)
  | .call _ _ _ => some .call
  | .returned sub c => some (.returned ((p.tables.subroutines[sub]?).map (·.captures)) c.starts)
  | _ => none

/-- The mementos on a stack, topmost first. -/
def mementos (p : Program) (F : List Frame) : List Memento := F.filterMap (Frame.memento? p)

namespace Memento

def undo (r : Registers) : Memento → Registers
  | group g slot history => { r with captures := r.captures.restore g slot history }
  | keep start => { r with keep := start }
  | call => { r with depth := r.depth - 1 }
  | returned groups starts => { r with
      captures := groups.elim r.captures (r.captures.setStarts · starts), depth := r.depth + 1 }

/-- Whether the slot that was saved is not that of its group now. -/
def isChanged (c : Captures) : Memento → Bool
  | group g slot _ => c.slot? g != some slot
  | _ => false

end Memento

theorem Registers.uncounted_undo (p : Program) (r : Registers) (f : Frame) :
    (r.undo p f).uncounted =
      (Frame.memento? p f).elim r.uncounted (Memento.undo r.uncounted) := by
  cases f with
  | returned sub c =>
    simp only [undo, setCallState, Frame.memento?, Option.elim_some, Memento.undo]
    cases p.tables.subroutines[sub]? <;> rfl
  | _ => rfl

/-- Mementos tell all that frames bring back of what two runs have in common. -/
theorem Registers.uncounted_undoAll (p : Program) (F : List Frame) (r : Registers) :
    (r.undoAll p F).uncounted = (mementos p F).foldl Memento.undo r.uncounted := by
  induction F generalizing r with
  | nil => rfl
  | cons f F ih =>
    rw [undoAll_cons, ih, uncounted_undo, mementos, mementos, List.filterMap_cons]
    cases Frame.memento? p f <;> rfl

theorem Registers.uncounted_undoAll_congr {r r' : Registers} (hr : r'.uncounted = r.uncounted)
    (hF : mementos p' F' = mementos p F) :
    (r'.undoAll p' F').uncounted = (r.undoAll p F).uncounted := by
  rw [uncounted_undoAll, uncounted_undoAll, hr, hF]

theorem mementos_append (p : Program) (F G : List Frame) :
    mementos p (F ++ G) = mementos p F ++ mementos p G :=
  List.filterMap_append

theorem mementos_voids {vs : List Frame} (hv : ∀ f ∈ vs, f = .void) : mementos p vs = [] := by
  refine List.filterMap_eq_nil_iff.mpr fun f hf => ?_
  rw [hv f hf]
  rfl

/-- What is left of a region that was closed brings back what the region would have. -/
theorem mementos_committed (p : Program) (F : List Frame) :
    mementos p (F.map Frame.committed) = mementos p F := by
  rw [mementos, List.filterMap_map]
  congr 1
  funext f
  cases f <;> rfl

theorem any_changed (p : Program) (F : List Frame) (captures : Captures) :
    F.any (changed captures) = (mementos p F).any (·.isChanged captures) := by
  induction F with
  | nil => rfl
  | cons f F ih =>
    rw [mementos, List.filterMap_cons, List.any_cons, ih, mementos]
    cases f <;> simp [changed, Frame.memento?, Memento.isChanged]

/-! ## Backtracking -/

theorem resumeFrom_undoAll (hF : ∀ f ∈ F, f.isChoice = false) (K : List Frame) (c : Core) :
    resumeFrom e (F ++ K) c = resumeFrom e K { c with regs := c.regs.undoAll e.program F } := by
  induction F generalizing c with
  | nil => rfl
  | cons f F ih =>
    rw [List.cons_append, resumeFrom_undo (hF f (by simp)), ih fun g hg => hF g (by simp [hg])]
    rfl

/-- Void frames on the top make no difference. -/
theorem resumeFrom_settled (h : Settled K K') (c : Core) : resumeFrom e K c = resumeFrom e K' c := by
  obtain ⟨vs, hv, rfl⟩ := h
  rw [resumeFrom_undoAll fun f hf => by rw [hv f hf]; rfl, Registers.undoAll_voids _ hv]

/-- What is seen where both runs backtrack into some frames, each with the counts and the open calls that
it had when those were on the top. -/
def Fallback (O : Observer e e') (n : Nat) (K K' : List Frame) (k k' : Array Nat × Nat) : Prop :=
  ∀ m ≤ n, ∀ d d' : Core, Level d d' → d.regs.ledger = k → d'.regs.ledger = k' →
    O.sees m (resumeFrom e K d) (resumeFrom e' K' d')

namespace Fallback

variable {k k' l l' : Array Nat × Nat} {m : Nat}

theorem mono (h : Fallback O n K K' k k') (hm : m ≤ n) : Fallback O m K K' k k' :=
  fun j hj => h j (Nat.le_trans hj hm)

/-- Frames that are undone were put on the stacks. -/
theorem under (h : Fallback O n K K' k k') (hF : ∀ f ∈ F, f.isChoice = false)
    (hF' : ∀ f ∈ F', f.isChoice = false) (hsame : mementos e'.program F' = mementos e.program F)
    (hk : ∀ r : Registers, r.ledger = l → (r.undoAll e.program F).ledger = k)
    (hk' : ∀ r : Registers, r.ledger = l' → (r.undoAll e'.program F').ledger = k') :
    Fallback O n (F ++ K) (F' ++ K') l l' := by
  intro m hm d d' hd hl hl'
  rw [resumeFrom_undoAll hF, resumeFrom_undoAll hF']
  exact h m hm _ _ ⟨hd.pos, Registers.uncounted_undoAll_congr hd.regs hsame⟩ (hk _ hl) (hk' _ hl')

theorem settled {L L' : List Frame} (h : Fallback O n K K' k k') (hK : Settled K L)
    (hK' : Settled K' L') : Fallback O n L L' k k' := by
  intro m hm d d' hd hk hk'
  rw [← resumeFrom_settled hK, ← resumeFrom_settled hK']
  exact h m hm d d' hd hk hk'

/-- Alternatives at the same place of the subject were put on the stacks. -/
theorem alternative {a a' : Addr} {q : Nat}
    (h : ∀ m ≤ n, ∀ d d' : Core, Level d d' → d.ip = a → d'.ip = a' → d.pos = q → d.frames = K →
      d'.frames = K' → d.regs.ledger = k → d'.regs.ledger = k' → O.sees m (.ok d) (.ok d')) :
    Fallback O n (.alternative a q :: K) (.alternative a' q :: K') k k' :=
  fun m hm _ _ hd hk hk' => h m hm _ _ ⟨rfl, hd.regs⟩ rfl rfl rfl rfl rfl hk hk'

end Fallback
end RegexMachine.Machine
