import RegexMachine.Proofs.ConcordTrees

/-!
Counted loops and copies. The code that counts the rounds of a repeat comes to its exit with the same
matches, in the same order, as code that has a copy of the body for each round, from whatever state
both are entered. The bodies may themselves have loops of either kind, regions and calls.

The match that is seen at the exit is the place of the subject, what the groups have matched with their
histories, and where the match begins if that was set. The counts are not a part of it.
-/
namespace RegexMachine
open Compile

/-! ## What is seen at an exit -/

namespace Machine

/-- A match so far. -/
structure Sight where
  pos : Nat
  captures : Captures
  keep : Option Nat
deriving DecidableEq, Repr

/-- Matches one after another, and why there are no more of them if that is known. -/
abbrev Sights := List Sight × Option Halt

def State.sight (s : State) : Sight := ⟨s.pos, s.regs.captures, s.regs.keep⟩

/-- A run that is late has not stopped. -/
def Halt.final? : Halt → Option Halt
  | .late => none
  | h => some h

/-- What a run comes by at an address, with a number of open calls, in so many steps at most. Whenever
it is there it backtracks at once. Runs inside a step have the steps that are left. -/
def exits (e : Setting) (y : Addr) (depth : Nat) : Nat → State → Sights
  | 0, _ => ([], none)
  | n + 1, s =>
    if s.ip = y ∧ s.regs.depth = depth then
      match backtrack e s with
      | .ok _ t =>
        let rest := exits e y depth n t
        (s.sight :: rest.1, rest.2)
      | .error h _ => ([s.sight], h.final?)
    else
      match step (inner n) e s with
      | .ok _ t => exits e y depth n t
      | .error h _ => ([], h.final?)

/-- A choice is left at an address outside of the code. If the machine backtracks so far that it resumes
it, nothing is left to try of what comes after, and the run stops there. -/
def State.fenced (s : State) (p : Program) (y : Addr) : State :=
  { s with stack := s.stack.push (.alternative (y + p.size + 1) s.pos) }

/-- All that has been seen is seen elsewhere too, and if nothing more is to come, for the same reason.
All faults count as one. -/
def Sights.Within (r r' : Sights) : Prop :=
  match r with
  | (seen, none) => seen <+: r'.1
  | (seen, some h) => r'.1 = seen ∧ ∃ h', r'.2 = some h' ∧ h.Like (fun _ _ => True) h'

/-- What one run shows within some steps another one shows from some number of steps on. -/
def Shows (f f' : Nat → Sights) : Prop := ∀ n, ∃ N, ∀ k, N ≤ k → (f n).Within (f' k)

/-! ### Runs of cores -/

def Core.sight (c : Core) : Sight := ⟨c.pos, c.regs.captures, c.regs.keep⟩

def Ending.final? : Ending → Option Halt
  | .accepted _ => some .accepted
  | .exhausted _ => some .exhausted
  | .broken h => h.final?

theorem Ending.final?_at (h : Halt) (c : Core) : (Ending.at h c).final? = h.final? := by
  cases h <;> rfl

/-- What is seen of the runs of a core. -/
def sights (e : Setting) (y : Addr) (depth : Nat) : Nat → Outcome → Sights
  | _, .error u => ([], u.final?)
  | 0, .ok _ => ([], none)
  | n + 1, .ok c =>
    if c.ip = y ∧ c.regs.depth = depth then
      let rest := sights e y depth n (resumeFrom e c.frames c)
      (c.sight :: rest.1, rest.2)
    else sights e y depth n (c.step n e)

variable {e e' : Setting} {y y' depth depth' n : Nat} {c c' : Core} {v v' : Outcome} {r r' : Sights}

theorem sights_error (n : Nat) (u : Ending) : sights e y depth n (.error u) = ([], u.final?) := by
  cases n <;> rfl

theorem sights_step (h : ¬ c.StopsAt (some (y, depth))) :
    sights e y depth (n + 1) (.ok c) = sights e y depth n (c.step n e) := by
  refine if_neg fun hc => h ?_
  rw [Core.StopsAt, hc.1, hc.2]

/-- What a run shows is told by its core. -/
theorem exits_core (hq : Quiet e) (n : Nat) (s : State) :
    exits e y depth n s = sights e y depth n (.ok s.core) := by
  induction n generalizing s with
  | zero => rfl
  | succ n ih =>
    rw [exits, sights]
    refine if_congr Iff.rfl ?_ ?_
    · have hback := comes_backtrack hq s
      cases hv : resumeFrom e s.core.frames s.core with
      | ok d =>
        rw [hv] at hback
        obtain ⟨t, rfl, ht⟩ := hback
        rw [ht]
        simp only [ih]
        rfl
      | error u =>
        rw [hv] at hback
        obtain ⟨h, t, rfl, ht⟩ := hback
        rw [ht]
        simp only [sights_error, Ending.final?_at]
        rfl
    · have hstep := comes_step hq n s
      cases hv : s.core.step n e with
      | ok d =>
        rw [hv] at hstep
        obtain ⟨t, rfl, ht⟩ := hstep
        rw [ht]
        exact ih t
      | error u =>
        rw [hv] at hstep
        obtain ⟨h, t, rfl, ht⟩ := hstep
        rw [ht]
        simp only [sights_error, Ending.final?_at]

/-! ### One who sees the matches -/

theorem Sights.nothing_within (r : Sights) : Sights.Within ([], none) r := List.nil_prefix

theorem Sights.Within.cons (h : r.Within r') (s : Sight) :
    Sights.Within (s :: r.1, r.2) (s :: r'.1, r'.2) := by
  obtain ⟨seen, ended⟩ := r
  cases ended with
  | none => exact List.prefix_cons_inj s |>.mpr h
  | some k => exact ⟨congrArg (s :: ·) h.1, h.2⟩

/-- One who watches two runs at their exits. -/
def spectator (e e' : Setting) (y depth y' depth' : Nat) : Observer e e' where
  stop := some (y, depth)
  stop' := some (y', depth')
  sees n v v' := ∃ N, ∀ k, N ≤ k → (sights e y depth n v).Within (sights e' y' depth' k v')
  left {n c v v'} hs h := by
    cases n with
    | zero => exact ⟨0, fun _ _ => Sights.nothing_within _⟩
    | succ n =>
      rw [sights_step hs.1, hs.2 n]
      exact h n (Nat.lt_succ_self n)
  right {n v c' v'} hs h := by
    obtain ⟨N, hN⟩ := h
    refine ⟨N + 1, fun k hk => ?_⟩
    obtain ⟨k, rfl⟩ : ∃ j, k = j + 1 := ⟨k - 1, by omega⟩
    rw [sights_step hs.1, hs.2 k]
    exact hN k (by omega)
  meet {n c c'} hs hs' h := by
    cases n with
    | zero => exact ⟨0, fun _ _ => Sights.nothing_within _⟩
    | succ n =>
      rw [sights_step hs]
      obtain hstep | ⟨v', ⟨M, hM⟩, N, hN⟩ := h n (Nat.lt_succ_self n)
      · rw [hstep, sights_error]
        exact ⟨0, fun _ _ => Sights.nothing_within _⟩
      · refine ⟨max M N + 1, fun k hk => ?_⟩
        obtain ⟨k, rfl⟩ : ∃ j, k = j + 1 := ⟨k - 1, by omega⟩
        rw [sights_step hs', hM k (by omega)]
        exact hN k (by omega)
  ending {n u u'} h := by
    refine ⟨0, fun k _ => ?_⟩
    rw [sights_error, sights_error]
    cases u with
    | accepted c =>
      obtain ⟨d, rfl⟩ := h
      exact ⟨rfl, _, rfl, rfl⟩
    | exhausted c =>
      obtain ⟨d, rfl⟩ := h
      exact ⟨rfl, _, rfl, rfl⟩
    | broken k =>
      obtain ⟨k', rfl, hlike⟩ := h
      cases k with
      | late => exact Sights.nothing_within _
      | fault f =>
        obtain ⟨f', rfl, -⟩ := hlike
        exact ⟨rfl, _, rfl, f', rfl, trivial⟩
      | _ =>
        obtain rfl : k' = _ := hlike
        exact ⟨rfl, _, rfl, rfl⟩

/-- Both runs are at their exits, where they show the same match and backtrack. -/
theorem spectator_stops {x x' : Addr} (hc : Abreast (spectator e e' y depth y' depth') n x x' c c')
    (hstop : c.StopsAt (some (y, depth))) (hstop' : c'.StopsAt (some (y', depth'))) :
    (spectator e e' y depth y' depth').sees n (.ok c) (.ok c') := by
  have hsights {e : Setting} {y depth : Nat} {c : Core} (h : c.StopsAt (some (y, depth))) (n : Nat) :
      sights e y depth (n + 1) (.ok c) =
        (c.sight :: (sights e y depth n (resumeFrom e c.frames c)).1,
          (sights e y depth n (resumeFrom e c.frames c)).2) := by
    cases h
    exact if_pos ⟨rfl, rfl⟩
  cases n with
  | zero => exact ⟨0, fun _ _ => Sights.nothing_within _⟩
  | succ n =>
    obtain ⟨N, hN⟩ := hc.failing (Nat.le_succ n)
    refine ⟨N + 1, fun k hk => ?_⟩
    obtain ⟨k, rfl⟩ : ∃ j, k = j + 1 := ⟨k - 1, by omega⟩
    have hsame : c'.sight = c.sight := by
      rw [Core.sight, Core.sight, hc.level.pos, hc.level.captures, hc.level.keep]
    rw [hsights hstop, hsights hstop', hsame]
    exact (hN k (by omega)).cons c.sight

/-- Where the fence is resumed there is nothing to see. -/
theorem spectator_fence {x x' : Addr} (hx : y + e.program.size < x) (hx' : y' + e'.program.size < x')
    (hc : c.ip = x) (hc' : c'.ip = x') :
    (spectator e e' y depth y' depth').sees n (.ok c) (.ok c') := by
  have hstep {e : Setting} {y depth x : Nat} {c : Core} (hx : y + e.program.size < x) (hc : c.ip = x) :
      StepsTo e (some (y, depth)) c (.error (.broken (.fault (.outside e.program.size c.ip)))) := by
    subst hc
    refine ⟨fun h => ?_, fun n => ?_⟩
    · cases h
      omega
    · have hnone : e.program.code[c.ip]? = none := by
        refine Array.getElem?_eq_none ?_
        rw [Program.size] at hx
        omega
      simp only [Core.step, hnone]
  exact Observer.both _ (hstep hx hc) (hstep hx' hc') fun m _ =>
    Observer.ending _ ⟨_, rfl, _, rfl, trivial⟩

end Machine

/-! ## Repeats -/

/-- The code of a repeat stands between two addresses as it is written by a plan, and its loops are in
the table. -/
def Program.HasRepeat (p : Program) (l : Layout) (b : Bounds) (greedy : Bool) (plan : RepeatPlan)
    (body : Node Measured) (x y : Addr) : Prop :=
  ∃ (depth : Nat) (place : Place) (i i' : Issued) (chunk : Chunk),
    repeatCode b greedy depth plan body.info (fun q => nodeCode none q body) place l i =
      .ok chunk i' ∧
    place.base = x ∧ y = x + chunk.size ∧
    (∀ k instr, chunk[k]? = some instr → p.code[x + k]? = some (link p.tables.subroutines instr)) ∧
    ∀ id, i.loops.size ≤ id → id < i'.loops.size → p.tables.loops[id]? = i'.loops[id]?

/-- A pattern with a counted loop is written without guards. -/
theorem Compile.layoutOf_counted {a : Analyzed} {note : Measured} {b : Bounds} {mode : RepeatMode}
    {body : Node Measured} (hnode : .repeated note b mode body ∈ a.tree.root.subtrees)
    (hplan : repeatPlan b body = .counted) (called : List Nat) (o : Options) (e : Encoding)
    (depth : Nat) : (layoutOf a called o e depth).guardDepth = 0 := by
  have hforbids : a.tree.root.subtrees.any forbidsGuards = true :=
    Array.any_eq_true'.mpr ⟨_, hnode, by simp [forbidsGuards, hplan]⟩
  have hnone : guardsAllowed a.tree.root = false := by
    simp [guardsAllowed, hforbids]
  simp [layoutOf, hnone]

namespace Machine

variable {p : Program} {l : Layout} {root : Node Measured} {b : Bounds} {greedy : Bool}
  {plan plan' : RepeatPlan} {body : Node Measured} {x x' y y' : Nat} {e e' : Setting} {s s' : State}

theorem HasRepeat.laid (h : p.HasRepeat l b greedy plan body x y) (hbare : l.guardDepth = 0)
    (sc : Scene) :
    let B : Built := ⟨p.code, p.tables.loops, p.tables.subroutines, l, sc⟩
    ∃ z, B.RepeatAt b greedy plan body.info (sc.ways body) (B.LaidAt none body) none (fun _ => True) z
      x y := by
  obtain ⟨depth, place, i, i', chunk, hcode, rfl, rfl, hplaced, hloops⟩ := h
  let B : Built := ⟨p.code, p.tables.loops, p.tables.subroutines, l, sc⟩
  have hbody := Built.nodeCode_writes B body none (.inl hbare)
  obtain ⟨-, hspell⟩ := Built.repeatCode_writes b greedy depth plan body.info (sc.ways body) hbody
    (fun _ => hbare) _ _ _ _ hcode
  obtain ⟨found, hfound⟩ := hspell hplaced hloops fun _ => True
  let z : Zone := ⟨place.within, 0, 0⟩
  have hat := hfound none (.bare hbare) z ⟨rfl, Nat.zero_le _, Nat.zero_le _⟩
  exact ⟨z, Built.carries_repeat (B.carries_laid body none) b plan (fun _ _ h => h) hat (Nat.le_refl _)
    (Nat.le_refl _)⟩

theorem Partners.symm (h : Partners e e') : Partners e' e :=
  ⟨h.quiet', h.quiet, h.subject.symm, h.origin.symm, h.callDepth.symm, h.captures.symm,
    h.history.symm, h.unset.symm⟩

/-- Two states in which the same match has been found so far, with as many open calls. Each has a count
for every loop of its program. -/
structure Matched (e e' : Setting) (s s' : State) : Prop where
  pos : s'.pos = s.pos
  captures : s'.regs.captures = s.regs.captures
  keep : s'.regs.keep = s.regs.keep
  depth : s'.regs.depth = s.regs.depth
  counts : s.regs.counts.size = e.program.tables.loops.size
  counts' : s'.regs.counts.size = e'.program.tables.loops.size

theorem Matched.symm (h : Matched e e' s s') : Matched e' e s' s :=
  ⟨h.pos.symm, h.captures.symm, h.keep.symm, h.depth.symm, h.counts', h.counts⟩

/-- One run shows what the other one shows, whatever the plans. -/
theorem shows_replanned (hpartners : Partners e e') (hp : e.program.Equipped l root)
    (hp' : e'.program.Equipped l root) (hbare : l.guardDepth = 0)
    (hcode : e.program.HasRepeat l b greedy plan body x y)
    (hcode' : e'.program.HasRepeat l b greedy plan' body x' y') (hmin : 0 < body.info.minChars)
    (hb : b.Allows) (hmeans : plan.Means b) (hmeans' : plan'.Means b) (hs : Matched e e' s s')
    (hip : s.ip = x) (hip' : s'.ip = x') :
    Shows (fun n => exits e y s.regs.depth n (s.fenced e.program y))
      fun n => exits e' y' s'.regs.depth n (s'.fenced e'.program y') := by
  intro n
  let sc : Scene := ⟨e.subject, 0, false⟩
  let B : Built := ⟨e.program.code, e.program.tables.loops, e.program.tables.subroutines, l, sc⟩
  let B' : Built := ⟨e'.program.code, e'.program.tables.loops, e'.program.tables.subroutines, l, sc⟩
  let O := spectator e e' y s.regs.depth y' s'.regs.depth
  let c := (s.fenced e.program y).core
  let c' := (s'.fenced e'.program y').core
  have T : Siblings e.program e'.program B B' B.loops.size B'.loops.size :=
    ⟨rfl, rfl, rfl, fun id _ h => ⟨(Array.getElem?_eq_some_iff.mp h).1, h⟩,
      fun id _ h => ⟨(Array.getElem?_eq_some_iff.mp h).1, h⟩⟩
  obtain ⟨z, hlaid⟩ := HasRepeat.laid hcode hbare sc
  obtain ⟨z', hlaid'⟩ := HasRepeat.laid hcode' hbare sc
  have hconcur : Concur O n B.loops.size B'.loops.size z z' x x' y y' :=
    (T.replanned (accords_equipped hp hp' T rfl rfl rfl body none) hmin hb hmeans hmeans').concur O rfl rfl
      hpartners hlaid hlaid'
  have hclears : O.Clears c.regs.depth x x' y y' := by
    refine ⟨fun a k h => ?_, fun a k h => ?_⟩
    · cases h
      exact .inr ⟨rfl, .inr (Nat.le_refl y)⟩
    · cases h
      exact .inr ⟨hs.depth, .inr (Nat.le_refl y')⟩
  have hc : Abreast O n x x' c c' := by
    refine ⟨hip, hip', ⟨hs.pos, ?_⟩, hs.counts, hs.counts', ?_⟩
    · change s'.regs.uncounted = s.regs.uncounted
      rw [Registers.uncounted, Registers.uncounted, hs.captures, hs.keep, hs.depth]
    · have hframes : c'.frames = .alternative (y' + e'.program.size + 1) s.pos :: s'.stack.frames := by
        rw [← hs.pos]
        rfl
      rw [hframes]
      refine .alternative fun m _ d d' _ hd hd' _ _ _ _ _ => ?_
      exact spectator_fence (Nat.lt_succ_self _) (Nat.lt_succ_self _) hd hd'
  have hwait : Awaits O n B.loops.size B'.loops.size z z' y y' c c' := by
    intro m _ d d' hd hg
    have hdepth : d.regs.depth = s.regs.depth := hg.depth
    have hdepth' : d'.regs.depth = s'.regs.depth := hd.depth.trans (hdepth.trans hs.depth.symm)
    refine spectator_stops hd ?_ ?_
    · rw [Core.StopsAt, hd.ip, hdepth]
    · rw [Core.StopsAt, hd.ip', hdepth']
  obtain ⟨N, hN⟩ := hconcur n (Nat.le_refl n) c c' hclears hc hwait
  refine ⟨N, fun k hk => ?_⟩
  dsimp only
  rw [exits_core hpartners.quiet, exits_core hpartners.quiet']
  exact hN k hk

/-- A program that is the code of a repeat, with one group. -/
def alone (chunk : Chunk) (loops : Array CountedLoop) : Program :=
  ⟨chunk.push .accept, ⟨loops, #[], .empty, 1, 0, 0, 0, .empty, .empty, .unknown⟩, .ascii⟩

theorem link_nothing (i : Instr) : link #[] i = i := by
  cases i <;> rfl

theorem alone_hasRepeat {chunk : Chunk} {i : Issued}
    (h : repeatCode b greedy 0 plan body.info (fun q => nodeCode none q body) (Place.start 0) l
      ⟨#[], 0, 0, 0, .empty⟩ = .ok chunk i) :
    (alone chunk i.loops).HasRepeat l b greedy plan body 0 chunk.size := by
  refine ⟨0, Place.start 0, _, i, chunk, h, rfl, (Nat.zero_add _).symm, fun k instr hk => ?_,
    fun _ _ _ => rfl⟩
  have hlt := (Array.getElem?_eq_some_iff.mp hk).1
  change (chunk.push .accept)[0 + k]? = some (link #[] instr)
  rw [Nat.zero_add, Array.getElem?_push_lt hlt, link_nothing, ← hk, Array.getElem?_eq_getElem hlt]

/-- Where nothing is called no subroutines are needed. -/
theorem alone_equipped (hl : l.subroutines = #[]) (chunk : Chunk) (loops : Array CountedLoop) :
    (alone chunk loops).Equipped l root := by
  refine ⟨fun g sub hsub => ?_, fun r hr => ?_⟩
  · rw [hl] at hsub
    cases hsub
  · exact absurd hr (Array.not_mem_empty r)

/-- The body of the pattern `(?:a(b)?){2,3}`. -/
def pairs : Node Measured :=
  let note (least most : Nat) : Measured := ⟨⟨0, 0⟩, ⟨least, some most, least, .empty, 0⟩⟩
  .sequence (note 1 2) [
    .atom (note 1 1) (.literal #[97] false),
    .repeated (note 0 1) ⟨0, some 1⟩ .greedy
      (.group (note 1 1) (.capture 1 none) (.atom (note 1 1) (.literal #[98] false)))]

/-- Its layout. -/
def pairsLayout : Layout := ⟨.ascii, ⟨#[], #[]⟩, #[], #[], false, 0⟩

/-- Its code with a counted loop. -/
def countedPairs : Chunk :=
  #[.repeatEnter 0, .byte 97, .fork 6, .groupStart 1 true, .byte 98, .groupEnd 1 true, .repeatNext 0]

/-- Its code with copies. -/
def copiedPairs : Chunk :=
  #[.byte 97, .fork 5, .groupStart 1 true, .byte 98, .groupEnd 1 true,
    .byte 97, .fork 10, .groupStart 1 true, .byte 98, .groupEnd 1 true,
    .fork 16, .byte 97, .fork 16, .groupStart 1 true, .byte 98, .groupEnd 1 true]

/-- A run of either on the text `aabab`. -/
def pairsRun (chunk : Chunk) (loops : Array CountedLoop) : Setting :=
  ⟨alone chunk loops, ⟨#[97, 97, 98, 97, 98], .ascii, false, false⟩, ⟨0, 0, 1024, 0, 16384⟩, .empty, 0,
    fun _ => false, false⟩

def pairsLoops : Array CountedLoop := #[⟨2, some 3, true, 1, 7⟩]

/-- Where the run begins. -/
def pairsStart (e : Setting) : State := State.initial.enter e 0 0

/-- The longest match is tried first, and the places are not in order. -/
example : (exits (pairsRun countedPairs pairsLoops) 7 0 60
      ((pairsStart (pairsRun countedPairs pairsLoops)).fenced (alone countedPairs pairsLoops) 7)).1.map
        (·.pos) = [5, 4, 3, 2] := by
  decide +kernel

end Machine
end RegexMachine
