import RegexMachine.Proofs.Layout

/-!
Code without guards. Only guards depend on what the match can be completed with, so code that has none
stands where it is whatever the subject is; more loops in the table do not matter either.
-/
namespace RegexMachine

/-- Code of one shape without guards is code of another one, whatever comes after them. There may be
fewer checks and loops around the second. -/
def Carries (part part' : Part) : Prop :=
  ∀ ⦃later later' z z' x y⦄, part none later z x y → z'.checks ≤ z.checks → z'.loops ≤ z.loops →
    part' none later' z' x y

namespace Built

/-- The same code on another subject, with another table of loops. -/
def onSubject (B : Built) (loops : Array CountedLoop) (sc : Scene) : Built :=
  { B with loops := loops, scene := sc }

variable {B : Built} {loops : Array CountedLoop} {sc : Scene} {part part' other other' : Part}
  {z z' : Zone} {later later' : Nat → Prop} {x y : Addr} {f f' : Way} {info : Info} {greedy : Bool}

theorem carries_refl {q : Addr → Addr → Prop} :
    Carries (fun _ _ _ x y => q x y) (fun _ _ _ x y => q x y) := fun _ _ _ _ _ _ h _ _ => h

theorem carries_loop {instr? : Option Instr} (hpart : Carries part part') :
    Carries (B.LoopAt instr? part) ((B.onSubject loops sc).LoopAt instr? part') :=
  fun _ _ _ _ _ _ h hchecks hloops => h.imp_right (And.imp_right (hpart · hchecks hloops))

theorem GuardAt.carried (h : B.GuardAt none later z x y) :
    (B.onSubject loops sc).GuardAt none later' z' x y := by
  rcases h with rfl | ⟨ψ, id, hψ, -⟩
  · exact Or.inl rfl
  · cases hψ

theorem carries_round (hpart : Carries part part') :
    Carries (B.RoundAt info part) ((B.onSubject loops sc).RoundAt info part') := by
  intro later later' z z' x y h hchecks hloops
  unfold RoundAt at h ⊢
  split
  · rw [if_pos ‹_›] at h
    exact hpart h hchecks hloops
  · rw [if_neg ‹_›] at h
    obtain ⟨id, w, hid, hstart, hbody, hend, rfl⟩ := h
    exact ⟨id, w, Nat.le_trans hchecks hid, hstart, hpart hbody (Nat.le_refl _) hloops, hend, rfl⟩

theorem carries_star (hpart : Carries part part') :
    Carries (B.StarAt greedy info f part) ((B.onSubject loops sc).StarAt greedy info f' part') := by
  rintro later later' z z' x y ⟨g, o, w, hguard, hoffer, hround, hjump, rfl⟩ hchecks hloops
  exact ⟨g, o, w, hguard.carried, hoffer, carries_round hpart hround hchecks hloops, hjump, rfl⟩

theorem carries_plus (hpart : Carries part part') :
    Carries (B.PlusAt greedy info f part) ((B.onSubject loops sc).PlusAt greedy info f' part') := by
  intro later later' z z' x y h hchecks hloops
  unfold PlusAt at h ⊢
  split
  · rw [if_pos ‹_›] at h
    obtain ⟨g, w, henter, hguard, hfork, hround, hjump, rfl⟩ := h
    exact ⟨g, w, henter, hguard.carried, hfork, carries_round hpart hround hchecks hloops, hjump, rfl⟩
  · rw [if_neg ‹_›] at h
    obtain ⟨g, w, hguard, hround, hfork, rfl⟩ := h
    exact ⟨g, w, hguard.carried, carries_round hpart hround hchecks hloops, hfork, rfl⟩

theorem carries_times (hpart : Carries part part') (n : Nat) :
    Carries (TimesAt f part n) (TimesAt f' part' n) := by
  induction n with
  | zero => exact carries_refl
  | succ n ih =>
    rintro later later' z z' x y ⟨w, hfirst, hrest⟩ hchecks hloops
    exact ⟨w, hpart hfirst hchecks hloops, ih hrest hchecks hloops⟩

theorem carries_upTo (hpart : Carries part part') (n : Nat) :
    Carries (B.UpToAt greedy f part n) ((B.onSubject loops sc).UpToAt greedy f' part' n) := by
  induction n with
  | zero => exact carries_refl
  | succ n ih =>
    rintro later later' z z' x y ⟨o, w, hoffer, hfirst, hrest⟩ hchecks hloops
    exact ⟨o, w, hoffer, hpart hfirst hchecks hloops, ih hrest hchecks hloops⟩

theorem carries_unrolled (hpart : Carries part part') (b : Bounds) :
    Carries (B.UnrolledAt b greedy info f part)
      ((B.onSubject loops sc).UnrolledAt b greedy info f' part') := by
  intro later later' z z' x y h hchecks hloops
  unfold UnrolledAt at h ⊢
  split
  · rename_i hmax
    rw [hmax] at h
    obtain ⟨w, hfirst, hrest⟩ := h
    exact ⟨w, carries_times hpart _ hfirst hchecks hloops, carries_plus hpart hrest hchecks hloops⟩
  · rename_i hmax
    rw [hmax] at h
    obtain ⟨w, hfirst, hrest⟩ := h
    exact ⟨w, carries_times hpart _ hfirst hchecks hloops, carries_upTo hpart _ hrest hchecks hloops⟩

theorem carries_counted (hpart : Carries part part') (b : Bounds)
    (hmore : ∀ (id : Nat) l, B.loops[id]? = some l → loops[id]? = some l) :
    Carries (B.CountedAt b greedy info part)
      ((B.onSubject loops sc).CountedAt b greedy info part') := by
  rintro later later' z z' x y ⟨id, w, hid, henter, hloop, hround, hnext, rfl⟩ hchecks hloops
  exact ⟨id, w, Nat.le_trans hloops hid, henter, hmore id _ hloop,
    carries_round hpart hround hchecks (Nat.le_refl _), hnext, rfl⟩

theorem carries_repeat (hpart : Carries part part') (b : Bounds) (plan : RepeatPlan)
    (hmore : ∀ (id : Nat) l, B.loops[id]? = some l → loops[id]? = some l) :
    Carries (B.RepeatAt b greedy plan info f part)
      ((B.onSubject loops sc).RepeatAt b greedy plan info f' part') := by
  unfold RepeatAt
  split
  · exact carries_refl
  · exact carries_upTo hpart 1
  · exact carries_star hpart
  · exact carries_plus hpart
  · exact carries_unrolled hpart b
  · exact carries_counted hpart b hmore

theorem carries_atomic (hpart : Carries part part') :
    Carries (B.AtomicAt part) ((B.onSubject loops sc).AtomicAt part') := by
  rintro later later' z z' x y ⟨mark, w, hstart, hbody, hend, rfl⟩ hchecks hloops
  exact ⟨mark, w, hstart, hpart hbody hchecks hloops, hend, rfl⟩

theorem carries_absent (hpart : Carries part part') :
    Carries (B.AbsentAt part) ((B.onSubject loops sc).AbsentAt part') := by
  rintro later later' z z' x y ⟨w, habsent, hjump, hbody, hend, rfl⟩ hchecks hloops
  exact ⟨w, habsent, hjump, hpart hbody hchecks hloops, hend, rfl⟩

theorem carries_conditional {groups : List Nat} (hyes : Carries part part')
    (hno : Carries other other') :
    Carries (B.ConditionalAt groups part other)
      ((B.onSubject loops sc).ConditionalAt groups part' other') := by
  rintro later later' z z' x y ⟨w, hset, hthen, hjump, helse⟩ hchecks hloops
  exact ⟨w, hset, hyes hthen hchecks hloops, hjump, hno helse hchecks hloops⟩

theorem carries_capture {group : Nat} (hpart : Carries part part') :
    Carries (B.CaptureAt group part) ((B.onSubject loops sc).CaptureAt group part') := by
  intro later later' z z' x y h hchecks hloops
  change ite (B.layout.calls.isCalled group = true) _ _ at h
  change ite (B.layout.calls.isCalled group = true) _ _
  split
  · rwa [if_pos ‹_›] at h
  · rw [if_neg ‹_›] at h
    obtain ⟨w, hstart, hbody, hend, rfl⟩ := h
    exact ⟨w, hstart, hpart hbody hchecks hloops, hend, rfl⟩

theorem carries_lookBody {k : Look} {mark : Nat} (hpart : Carries part part') :
    Carries (B.LookBodyAt k info part mark)
      ((B.onSubject loops sc).LookBodyAt k info part' mark) := by
  rintro later later' z z' x y ⟨hstart, h⟩ hchecks hloops
  refine ⟨hstart, ?_⟩
  split
  · rw [if_pos ‹_›] at h
    obtain ⟨w, hback, hbody, hcheck, rfl⟩ := h
    exact ⟨w, hback, hpart hbody hchecks hloops, hcheck, rfl⟩
  · rw [if_neg ‹_›] at h
    exact hpart h hchecks hloops

theorem carries_look {k : Look} (hpart : Carries part part') :
    Carries (B.LookAt k info part) ((B.onSubject loops sc).LookAt k info part') := by
  rintro later later' z z' x y ⟨mark, w, h⟩ hchecks hloops
  refine ⟨mark, w, ?_⟩
  split
  · rw [if_pos ‹_›] at h
    exact ⟨h.1, carries_lookBody hpart h.2.1 hchecks hloops, h.2.2⟩
  · rw [if_neg ‹_›] at h
    exact ⟨carries_lookBody hpart h.1 hchecks hloops, h.2⟩

mutual

/-- The code of a tree that has no guards stands whatever the subject is. -/
theorem carries_node (hmore : ∀ (id : Nat) l, B.loops[id]? = some l → loops[id]? = some l) :
    ∀ (n : Node Measured) (peek : Option UInt8),
      Carries (B.NodeAt peek n) ((B.onSubject loops sc).NodeAt peek n)
  | .atom _ a, peek => by
    rw [NodeAt, NodeAt]
    exact carries_refl
  | .repeated _ b mode body, peek => by
    have hbody := carries_node hmore body none
    rw [NodeAt, NodeAt]
    split
    · exact carries_atomic (carries_loop (carries_repeat hbody b _ hmore))
    · exact carries_loop (carries_repeat hbody b _ hmore)
  | .group _ (.capture g _) body, peek => by
    rw [NodeAt, NodeAt]
    exact carries_capture (carries_node hmore body none)
  | .group _ .plain body, peek => by
    rw [NodeAt, NodeAt]
    exact carries_node hmore body none
  | .group _ .atomic body, peek => by
    rw [NodeAt, NodeAt]
    exact carries_atomic (carries_node hmore body none)
  | .group _ .absent body, peek => by
    rw [NodeAt, NodeAt]
    exact carries_absent (carries_node hmore body none)
  | .conditional _ _ gs yes no, peek => by
    rw [NodeAt, NodeAt]
    exact carries_conditional (carries_node hmore yes none) (carries_option hmore no)
  | .look _ k body, peek => by
    rw [NodeAt, NodeAt]
    exact carries_look (carries_node hmore body none)
  | .sequence _ items, peek => by
    rw [NodeAt, NodeAt]
    exact carries_sequence hmore items
  | .alternation _ branches, peek => by
    rw [NodeAt, NodeAt]
    exact carries_branches hmore branches

theorem carries_option (hmore : ∀ (id : Nat) l, B.loops[id]? = some l → loops[id]? = some l) :
    ∀ no : Option (Node Measured), Carries (B.OptionAt no) ((B.onSubject loops sc).OptionAt no)
  | none => by
    rw [OptionAt, OptionAt]
    exact carries_refl
  | some n => by
    rw [OptionAt, OptionAt]
    exact carries_node hmore n none

theorem carries_sequence (hmore : ∀ (id : Nat) l, B.loops[id]? = some l → loops[id]? = some l) :
    ∀ ns : List (Node Measured), Carries (B.SequenceAt ns) ((B.onSubject loops sc).SequenceAt ns)
  | [] => by
    rw [SequenceAt, SequenceAt]
    exact carries_refl
  | n :: ns => by
    have hn := carries_node hmore n (Compile.peekByte? ns)
    have hns := carries_sequence hmore ns
    rw [SequenceAt, SequenceAt]
    rintro later later' z z' x y ⟨w, hfirst, hrest⟩ hchecks hloops
    exact ⟨w, hn hfirst hchecks hloops, hns hrest hchecks hloops⟩

theorem carries_branches (hmore : ∀ (id : Nat) l, B.loops[id]? = some l → loops[id]? = some l) :
    ∀ ns : List (Node Measured), Carries (B.BranchesAt ns) ((B.onSubject loops sc).BranchesAt ns)
  | [] => by
    rw [BranchesAt, BranchesAt]
    exact carries_refl
  | [n] => by
    rw [BranchesAt, BranchesAt]
    exact carries_node hmore n none
  | n :: m :: ns => by
    have hn := carries_node hmore n none
    have hns := carries_branches hmore (m :: ns)
    rw [BranchesAt, BranchesAt]
    rintro later later' z z' x y ⟨w, hfork, hfirst, hjump, hrest⟩ hchecks hloops
    exact ⟨w, hfork, hn hfirst hchecks hloops, hjump, hns hrest hchecks hloops⟩

end

end Built
end RegexMachine
