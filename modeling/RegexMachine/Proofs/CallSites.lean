import RegexMachine.Proofs.Numbers

/-!
Where calls are made. From a place in the subject, code of a tree makes a call at a later place, or
at that very place where the analysis has found that the tree calls the group before it has consumed
anything. Only a lookbehind goes back, and what is called there is a group whose definition makes no
calls itself.
-/
namespace RegexMachine

namespace CallGraph

mutual

theorem mem_earlyCalls {k : Nat} : ∀ (n : Node Measured) (acc : List Nat),
    k ∈ earlyCalls acc n ↔ k ∈ earlyCalls [] n ∨ k ∈ acc
  | .atom _ a, acc => by
    cases a <;> simp [earlyCalls]
  | .repeated _ b _ body, acc => by
    unfold earlyCalls
    split
    · simp
    · exact mem_earlyCalls body acc
  | .group _ _ body, acc => mem_earlyCalls body acc
  | .conditional _ _ _ yes no, acc => by
    simp only [earlyCalls]
    rw [mem_earlyCallsOption no (earlyCalls acc yes), mem_earlyCalls yes acc,
      mem_earlyCallsOption no (earlyCalls [] yes), or_assoc]
  | .look _ _ body, acc => mem_earlyCalls body acc
  | .sequence _ items, acc => mem_earlyCallsUntil items acc
  | .alternation _ branches, acc => mem_earlyCallsAll branches acc

theorem mem_earlyCallsOption {k : Nat} : ∀ (no : Option (Node Measured)) (acc : List Nat),
    k ∈ earlyCallsOption acc no ↔ k ∈ earlyCallsOption [] no ∨ k ∈ acc
  | none, acc => by simp [earlyCallsOption]
  | some n, acc => mem_earlyCalls n acc

theorem mem_earlyCallsUntil {k : Nat} : ∀ (ns : List (Node Measured)) (acc : List Nat),
    k ∈ earlyCallsUntil acc ns ↔ k ∈ earlyCallsUntil [] ns ∨ k ∈ acc
  | [], acc => by simp [earlyCallsUntil]
  | n :: ns, acc => by
    simp only [earlyCallsUntil]
    split
    · exact mem_earlyCalls n acc
    · rw [mem_earlyCallsUntil ns (earlyCalls acc n), mem_earlyCalls n acc,
        mem_earlyCallsUntil ns (earlyCalls [] n), or_assoc]

theorem mem_earlyCallsAll {k : Nat} : ∀ (ns : List (Node Measured)) (acc : List Nat),
    k ∈ earlyCallsAll acc ns ↔ k ∈ earlyCallsAll [] ns ∨ k ∈ acc
  | [], acc => by simp [earlyCallsAll]
  | n :: ns, acc => by
    simp only [earlyCallsAll]
    rw [mem_earlyCallsAll ns (earlyCalls acc n), mem_earlyCalls n acc,
      mem_earlyCallsAll ns (earlyCalls [] n), or_assoc]

end

/-- What the first of some items calls early, they call early. -/
theorem earlyCallsUntil_head {k : Nat} {n : Node Measured} {ns : List (Node Measured)}
    (h : k ∈ earlyCalls [] n) : k ∈ earlyCallsUntil [] (n :: ns) := by
  rw [earlyCallsUntil]
  split
  · exact h
  · exact (mem_earlyCallsUntil ns _).mpr (Or.inr h)

/-- After an item that may consume nothing, calls come early still. -/
theorem earlyCallsUntil_tail {k : Nat} {n : Node Measured} {ns : List (Node Measured)}
    (hn : n.info.minChars = 0) (h : k ∈ earlyCallsUntil [] ns) :
    k ∈ earlyCallsUntil [] (n :: ns) := by
  rw [earlyCallsUntil, if_neg (by omega)]
  exact (mem_earlyCallsUntil ns _).mpr (Or.inl h)

theorem earlyCallsAll_of_mem {k : Nat} {n : Node Measured} {ns : List (Node Measured)}
    (hn : n ∈ ns) (h : k ∈ earlyCalls [] n) : k ∈ earlyCallsAll [] ns := by
  induction ns with
  | nil => cases hn
  | cons m ns ih =>
    rw [earlyCallsAll, mem_earlyCallsAll]
    rcases List.mem_cons.mp hn with rfl | hn
    · exact Or.inr h
    · exact Or.inl (ih hn)

end CallGraph

namespace Node
open CallGraph

variable {α : Type}

theorem callees_subset {m n : Node α} (hm : m ∈ n.subtrees) : ∀ g ∈ m.callees, g ∈ n.callees := by
  intro g hg
  obtain ⟨k, hk, hcallee⟩ := List.mem_filterMap.mp hg
  exact List.mem_filterMap.mpr
    ⟨k, Array.mem_toList_iff.mpr (subtrees_trans (Array.mem_toList_iff.mp hk) hm), hcallee⟩

theorem callees_eq_nil_of_mem {m n : Node α} (hm : m ∈ n.subtrees) (hn : n.callees = []) :
    m.callees = [] :=
  List.eq_nil_iff_forall_not_mem.mpr fun g hg => by
    have hmem := callees_subset hm g hg
    rw [hn] at hmem
    cases hmem

theorem captured?_body_mem {n m body : Node α} {g : Nat} (hm : m ∈ n.subtrees)
    (h : m.captured? = some (g, body)) : body ∈ n.subtrees :=
  subtrees_trans (child_mem_subtrees (captured?_child h)) hm

/-- A tree can call a group before it has consumed anything: it has such a call, or a definition
of the group stands where whatever the group calls early the tree calls early. -/
def CallsEarly (n : Node Measured) (g : Nat) : Prop :=
  g ∈ earlyCalls [] n ∨ ∃ m ∈ n.subtrees, ∃ body, m.captured? = some (g, body) ∧
    ∀ k ∈ earlyCalls [] body, k ∈ earlyCalls [] n

/-- A group is defined in a tree without any calls. -/
def DefinesMute (n : Node Measured) (g : Nat) : Prop :=
  ∃ m ∈ n.subtrees, ∃ body, m.captured? = some (g, body) ∧ body.callees = []

/-- A match of a tree that begins at `p` can call a group at `q`. -/
structure Meets (n : Node Measured) (p g q : Nat) : Prop where
  site : g ∈ n.callees ∨ g ∈ n.groupNumbers
  place : p < q ∨ (p = q ∧ n.CallsEarly g) ∨ n.DefinesMute g

namespace Meets
variable {n m : Node Measured} {g p p' q : Nat}

theorem lift_site (hm : m ∈ n.subtrees) (h : m.Meets p' g q) :
    g ∈ n.callees ∨ g ∈ n.groupNumbers :=
  h.site.imp (callees_subset hm g) (groupNumbers_subset hm g)

theorem lift_mute (hm : m ∈ n.subtrees) (h : m.DefinesMute g) : n.DefinesMute g := by
  obtain ⟨k, hk, hmute⟩ := h
  exact ⟨k, subtrees_trans hk hm, hmute⟩

/-- What a part meets that may come first. -/
theorem early (h : m.Meets p' g q) (hm : m ∈ n.subtrees) (hp : p ≤ p')
    (hearly : ∀ k ∈ earlyCalls [] m, k ∈ earlyCalls [] n) : n.Meets p g q := by
  refine ⟨h.lift_site hm, ?_⟩
  rcases h.place with hq | ⟨rfl, hcalls⟩ | hmute
  · exact Or.inl (Nat.lt_of_le_of_lt hp hq)
  · rcases Nat.lt_or_eq_of_le hp with hlt | rfl
    · exact Or.inl hlt
    · refine Or.inr (Or.inl ⟨rfl, ?_⟩)
      rcases hcalls with hcall | ⟨k, hk, body, hcaptured, hbody⟩
      · exact Or.inl (hearly g hcall)
      · exact Or.inr ⟨k, subtrees_trans hk hm, body, hcaptured, fun j hj => hearly j (hbody j hj)⟩
  · exact Or.inr (Or.inr (lift_mute hm hmute))

/-- What a part meets that comes after something. -/
theorem late (h : m.Meets p' g q) (hm : m ∈ n.subtrees) (hp : p < p') : n.Meets p g q := by
  refine ⟨h.lift_site hm, ?_⟩
  rcases h.place with hq | ⟨rfl, -⟩ | hmute
  · exact Or.inl (Nat.lt_trans hp hq)
  · exact Or.inl hp
  · exact Or.inr (Or.inr (lift_mute hm hmute))

/-- What a part without calls meets, wherever it begins. -/
theorem behind (h : m.Meets p' g q) (hm : m ∈ n.subtrees) (hmute : m.callees = []) (p : Nat) :
    n.Meets p g q := by
  refine ⟨h.lift_site hm, Or.inr (Or.inr (lift_mute hm ?_))⟩
  rcases h.site with hcall | hdefined
  · rw [hmute] at hcall
    cases hcall
  · obtain ⟨k, hk, body, hcaptured⟩ := exists_captured hdefined
    exact ⟨k, hk, body, hcaptured, callees_eq_nil_of_mem (captured?_body_mem hk hcaptured) hmute⟩

/-- A call where the match begins. -/
theorem call (note : Measured) (t : Target) (g p : Nat) : (atom note (.call t g)).Meets p g p :=
  ⟨Or.inl (List.mem_filterMap.mpr ⟨_, Array.mem_toList_iff.mpr (self_mem_subtrees _), rfl⟩),
    Or.inr (Or.inl ⟨rfl, Or.inl (by simp [earlyCalls])⟩)⟩

/-- A group that is called where it is defined. -/
theorem definition (note : Measured) (name : Option String) (body : Node Measured) (g p : Nat) :
    (group note (.capture g name) body).Meets p g p := by
  have hself := self_mem_subtrees (group note (.capture g name) body)
  exact ⟨Or.inr (mem_groupNumbers.mpr ⟨_, hself, rfl⟩),
    Or.inr (Or.inl ⟨rfl, Or.inr ⟨_, hself, body, rfl, fun _ hk => hk⟩⟩)⟩

end Meets
end Node
end RegexMachine
