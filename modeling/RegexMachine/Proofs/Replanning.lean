import RegexMachine.Proofs.BareCode
import RegexMachine.Proofs.Routines

/-!
Code whose repeats do not follow the plans that were chosen for them. A repeat of what cannot be empty
may be laid out by any plan that says its bounds, each occurrence by one of its own.
-/
namespace RegexMachine
open Compile Machine

/-- A plan by which bounds can be laid out, if the body cannot be empty. -/
def RepeatPlan.Means (b : Bounds) : RepeatPlan → Prop
  | .skip => b.max = some 0
  | .optional => b = ⟨0, some 1⟩
  | .star => b = ⟨0, none⟩
  | .plus => b = ⟨1, none⟩
  | .unroll => b ≠ ⟨0, none⟩
  | .counted => True

theorem repeatPlan_means (b : Bounds) (body : Node Measured) : (repeatPlan b body).Means b := by
  obtain ⟨min, max⟩ := b
  unfold repeatPlan
  split
  · rename_i h
    exact h
  · rename_i h h'
    exact congrArg₂ Bounds.mk h h'
  · rename_i h h'
    exact congrArg₂ Bounds.mk h h'
  · rename_i h h'
    exact congrArg₂ Bounds.mk h h'
  · split
    · rename_i hstar _ _
      rintro ⟨⟩
      exact hstar rfl rfl
    · trivial

theorem repeatPlan_counted {b : Bounds} {body : Node Measured} (h : repeatPlan b body = .counted) :
    b.max ≠ some 0 := by
  intro hmax
  unfold repeatPlan at h
  rw [hmax] at h
  cases h

/-- Bounds that are in order and allow a round. -/
structure Bounds.Allows (b : Bounds) : Prop where
  order : ∀ m, b.max = some m → b.min ≤ m
  round : b.max ≠ some 0

/-- The plan that was chosen for a repeat, or any other one where the body cannot be empty. -/
def RepeatPlan.Suits (b : Bounds) (body : Node Measured) (plan : RepeatPlan) : Prop :=
  plan = repeatPlan b body ∨ plan.Means b ∧ 0 < body.info.minChars ∧ b.Allows

namespace Built

variable (B : Built)

mutual

/-- The code of a node stands between two addresses, where repeats may follow other plans. -/
def LaidAt (peek : Option UInt8) : Node Measured → Part
  | .atom _ a => fun _ _ _ x y => B.AtomAt a x y
  | .repeated _ b mode body =>
    let loop := B.LoopAt (anyCharsCode? mode (repeatPlan b body) peek body) fun φ later z x y =>
      ∃ plan : RepeatPlan, plan.Suits b body ∧
        B.RepeatAt b (mode != .lazy) plan body.info (B.scene.ways body) (LaidAt none body) φ later z x y
    if mode == .possessive then B.AtomicAt loop else loop
  | .group _ (.capture g _) body => B.CaptureAt g (LaidAt none body)
  | .group _ .plain body => LaidAt none body
  | .group _ .atomic body => B.AtomicAt (LaidAt none body)
  | .group _ .absent body => B.AbsentAt (LaidAt none body)
  | .conditional _ _ gs yes no => B.ConditionalAt gs (LaidAt none yes) (LaidOptionAt no)
  | .look _ k body => B.LookAt k body.info (LaidAt none body)
  | .sequence _ items => LaidSequenceAt items
  | .alternation _ branches => LaidBranchesAt branches

def LaidOptionAt : Option (Node Measured) → Part
  | none => fun _ _ _ x y => x = y
  | some n => LaidAt none n

def LaidSequenceAt : List (Node Measured) → Part
  | [] => fun _ _ _ x y => x = y
  | n :: ns => fun φ later z x y =>
    ∃ w, LaidAt (peekByte? ns) n φ (leads (B.scene.waysAll ns) later) z x w ∧
      LaidSequenceAt ns φ later z w y

def LaidBranchesAt : List (Node Measured) → Part
  | [] => fun _ _ _ x y => x = y
  | n :: ns => fun φ later z x y =>
    match ns with
    | [] => LaidAt none n φ later z x y
    | _ :: _ =>
      ∃ w, B.code[x]? = some (.fork (w + 1)) ∧ LaidAt none n φ later z (x + 1) w ∧
        B.code[w]? = some (.jump y) ∧ LaidBranchesAt ns φ later z (w + 1) y

end

variable {B} {part part' : Part} {b : Bounds} {body : Node Measured} {mode : RepeatMode}

/-- A repeat stands as it was planned. -/
theorem carries_planned (hpart : Carries part part') :
    Carries (B.RepeatAt b (mode != .lazy) (repeatPlan b body) body.info (B.scene.ways body) part)
      fun φ later z x y => ∃ plan : RepeatPlan, plan.Suits b body ∧
        B.RepeatAt b (mode != .lazy) plan body.info (B.scene.ways body) part' φ later z x y := by
  intro later later' z z' x y h hchecks hloops
  exact ⟨repeatPlan b body, .inl rfl,
    carries_repeat hpart b _ (fun _ _ h => h) h hchecks hloops⟩

mutual

/-- Code that follows the plans that were chosen is a special case. -/
theorem carries_laid (B : Built) :
    ∀ (n : Node Measured) (peek : Option UInt8), Carries (B.NodeAt peek n) (B.LaidAt peek n)
  | .atom _ a, peek => by
    rw [NodeAt, LaidAt]
    exact carries_refl
  | .repeated _ b mode body, peek => by
    have hbody := carries_laid B body none
    rw [NodeAt, LaidAt]
    split
    · exact carries_atomic (carries_loop (carries_planned hbody))
    · exact carries_loop (carries_planned hbody)
  | .group _ (.capture g _) body, peek => by
    rw [NodeAt, LaidAt]
    exact carries_capture (carries_laid B body none)
  | .group _ .plain body, peek => by
    rw [NodeAt, LaidAt]
    exact carries_laid B body none
  | .group _ .atomic body, peek => by
    rw [NodeAt, LaidAt]
    exact carries_atomic (carries_laid B body none)
  | .group _ .absent body, peek => by
    rw [NodeAt, LaidAt]
    exact carries_absent (carries_laid B body none)
  | .conditional _ _ gs yes no, peek => by
    rw [NodeAt, LaidAt]
    exact carries_conditional (carries_laid B yes none)
      (carries_laidOption B no)
  | .look _ k body, peek => by
    rw [NodeAt, LaidAt]
    exact carries_look (carries_laid B body none)
  | .sequence _ items, peek => by
    rw [NodeAt, LaidAt]
    exact carries_laidSequence B items
  | .alternation _ branches, peek => by
    rw [NodeAt, LaidAt]
    exact carries_laidBranches B branches

theorem carries_laidOption (B : Built) :
    ∀ no : Option (Node Measured), Carries (B.OptionAt no) (B.LaidOptionAt no)
  | none => by
    rw [OptionAt, LaidOptionAt]
    exact carries_refl
  | some n => by
    rw [OptionAt, LaidOptionAt]
    exact carries_laid B n none

theorem carries_laidSequence (B : Built) :
    ∀ ns : List (Node Measured), Carries (B.SequenceAt ns) (B.LaidSequenceAt ns)
  | [] => by
    rw [SequenceAt, LaidSequenceAt]
    exact carries_refl
  | n :: ns => by
    have hn := carries_laid B n (peekByte? ns)
    have hns := carries_laidSequence B ns
    rw [SequenceAt, LaidSequenceAt]
    rintro later later' z z' x y ⟨w, hfirst, hrest⟩ hchecks hloops
    exact ⟨w, hn hfirst hchecks hloops, hns hrest hchecks hloops⟩

theorem carries_laidBranches (B : Built) :
    ∀ ns : List (Node Measured), Carries (B.BranchesAt ns) (B.LaidBranchesAt ns)
  | [] => by
    rw [BranchesAt, LaidBranchesAt]
    exact carries_refl
  | [n] => by
    rw [BranchesAt, LaidBranchesAt]
    exact carries_laid B n none
  | n :: m :: ns => by
    have hn := carries_laid B n none
    have hns := carries_laidBranches B (m :: ns)
    rw [BranchesAt, LaidBranchesAt]
    rintro later later' z z' x y ⟨w, hfork, hfirst, hjump, hrest⟩ hchecks hloops
    exact ⟨w, hfork, hn hfirst hchecks hloops, hjump, hns hrest hchecks hloops⟩

end

end Built

/-! ## Subroutines -/

/-- What is known of a subroutine: what it runs, its groups and loops, and where its code stands. -/
structure Program.Laid (p : Program) (l : Layout) (root : Node Measured) (r : Subroutine)
    (n : Node Measured) (B : Built) (y : Addr) : Prop where
  runs : root.calledBody? r.group = some n
  code : B.code = p.code
  subs : B.subs = p.tables.subroutines
  layout : B.layout = l
  loops : ∀ (id : Nat) c, B.loops[id]? = some c → p.tables.loops[id]? = some c
  stop : B.loops.size = r.loops.stop
  fits : r.Fits p.tables
  captures : r.captures = groupRange (groupNode root r.group) r.group
  ret : p.code[y]? = some .ret
  stands : ∃ later, B.RoutineAt r.group (B.LaidAt none n) none later ⟨none, 0, r.loops.first⟩ r.entry y

/-- The subroutines of a program are those of the groups of a tree that are called. Their repeats may
follow other plans. -/
structure Program.Equipped (p : Program) (l : Layout) (root : Node Measured) : Prop where
  called : ∀ g sub, (l.subroutines[g]?).join = some sub →
    ∃ r : Subroutine, p.tables.subroutines[sub]? = some r ∧ r.group = g
  laid : ∀ r : Subroutine, r ∈ p.tables.subroutines → ∃ n B y, p.Laid l root r n B y

theorem Built.carries_routine {B : Built} {part part' : Part} (h : Carries part part') (g : Nat) :
    Carries (B.RoutineAt g part) (B.RoutineAt g part') := by
  intro later later' z z' x y hroutine hchecks hloops
  unfold RoutineAt at hroutine ⊢
  split
  · rw [if_pos ‹_›] at hroutine
    exact h hroutine hchecks hloops
  · rw [if_neg ‹_›] at hroutine
    obtain ⟨w, last, hstart, hinside, hend, hlast, rfl⟩ := hroutine
    exact ⟨w, last, hstart, h hinside hchecks hloops, hend, hlast, rfl⟩

/-- A compiled program is one whose repeats follow the plans that were chosen for them. -/
theorem Program.Compiled.equipped {p : Program} {l : Layout} {root : Node Measured}
    (hp : p.Compiled l root) (sc : Scene) : p.Equipped l root := by
  refine ⟨hp.called, fun r hr => ?_⟩
  obtain ⟨n, loops, y, hroutine⟩ := hp.routine hr sc
  let B : Built := ⟨p.code, loops, p.tables.subroutines, l, sc⟩
  refine ⟨n, B, y, hroutine.runs, rfl, rfl, rfl, hroutine.serves.loops, hroutine.stop, hroutine.fits,
    hroutine.captures, hroutine.ret, fun _ => True, ?_⟩
  exact Built.carries_routine (B.carries_laid n none) r.group (hroutine.code fun _ => True)
    (Nat.le_refl _) (Nat.le_refl _)

end RegexMachine
