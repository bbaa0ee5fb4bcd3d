import Mathlib.Data.List.Basic
import RegexMachine.Pattern.Node

/-!
Trees as a whole: what is below a node, and what holds of all of it.
-/
namespace RegexMachine.Node

variable {α β : Type}

theorem sizeOf_children {n c : Node α} (h : c ∈ n.children) : sizeOf c < sizeOf n := by
  cases n with
  | atom p a => cases h
  | conditional p t gs yes no =>
    rcases List.mem_cons.mp h with rfl | h
    · simp
      omega
    · cases no with
      | none => cases h
      | some n =>
        obtain rfl := List.mem_singleton.mp h
        simp
        omega
  | sequence p items =>
    have := List.sizeOf_lt_of_mem h
    simp only [sequence.sizeOf_spec, children] at this ⊢
    omega
  | alternation p branches =>
    have := List.sizeOf_lt_of_mem h
    simp only [alternation.sizeOf_spec, children] at this ⊢
    omega
  | _ =>
    obtain rfl := List.mem_singleton.mp h
    simp
    try omega

/-- What holds of a node whenever it holds of its parts holds of every node. -/
@[elab_as_elim]
theorem induction {motive : Node α → Prop}
    (step : ∀ n : Node α, (∀ c ∈ n.children, motive c) → motive n) (n : Node α) : motive n :=
  step n fun c _ => induction step c
termination_by sizeOf n
decreasing_by exact sizeOf_children ‹_›

mutual

theorem visit_toList (acc : Array (Node α)) :
    ∀ n : Node α, (visit acc n).toList =
      acc.toList ++ n :: n.children.flatMap fun c => c.subtrees.toList
  | atom _ _ => by simp [visit, children]
  | repeated _ _ _ body => by simp [visit, children, visit_toList _ body, subtrees]
  | group _ _ body => by simp [visit, children, visit_toList _ body, subtrees]
  | conditional _ _ _ yes no => by
    simp [visit, children, visitOption_toList _ no, visit_toList _ yes, subtrees]
  | look _ _ body => by simp [visit, children, visit_toList _ body, subtrees]
  | sequence _ items => by simp [visit, children, visitAll_toList _ items]
  | alternation _ branches => by simp [visit, children, visitAll_toList _ branches]

theorem visitOption_toList (acc : Array (Node α)) :
    ∀ no : Option (Node α), (visitOption acc no).toList =
      acc.toList ++ no.toList.flatMap fun c => c.subtrees.toList
  | none => by simp [visitOption]
  | some n => by simp [visitOption, visit_toList _ n, subtrees]

theorem visitAll_toList (acc : Array (Node α)) :
    ∀ ns : List (Node α), (visitAll acc ns).toList =
      acc.toList ++ ns.flatMap fun c => c.subtrees.toList
  | [] => by simp [visitAll]
  | n :: ns => by simp [visitAll, visitAll_toList _ ns, visit_toList _ n, subtrees]

end

theorem subtrees_toList (n : Node α) :
    n.subtrees.toList = n :: n.children.flatMap fun c => c.subtrees.toList := by
  simp [subtrees, visit_toList #[] n]

theorem mem_subtrees {n m : Node α} :
    m ∈ n.subtrees ↔ m = n ∨ ∃ c ∈ n.children, m ∈ c.subtrees := by
  rw [← Array.mem_toList_iff, subtrees_toList]
  simp

theorem self_mem_subtrees (n : Node α) : n ∈ n.subtrees := mem_subtrees.mpr (Or.inl rfl)

theorem subtrees_any (n : Node α) (p : Node α → Bool) :
    n.subtrees.any p = (p n || n.children.any fun c => c.subtrees.any p) := by
  rw [← Array.any_toList, subtrees_toList]
  simp [List.any_flatMap]

/-- Rebuilding a tree node by node rebuilds its nodes. -/
theorem subtrees_rebuild {f : Node α → Node β} (hf : ∀ n, (f n).children = n.children.map f)
    (n : Node α) : (f n).subtrees = n.subtrees.map f := by
  induction n using Node.induction with
  | step n ih =>
    apply Array.ext'
    rw [subtrees_toList, Array.toList_map, subtrees_toList, hf, List.map_cons, List.flatMap_map,
      List.map_flatMap]
    congr 1
    refine List.flatMap_congr fun c hc => ?_
    rw [ih c hc, Array.toList_map]

/-! ## What holds of every node -/

/-- A test that every node of a tree passes. -/
def Everywhere (p : Node α → Bool) (n : Node α) : Prop := n.subtrees.all p = true

section
variable {p : Node α → Bool} {n : Node α}

theorem everywhere_iff : n.Everywhere p ↔ ∀ m ∈ n.subtrees, p m = true := Array.all_eq_true'

theorem Everywhere.child {c : Node α} (h : n.Everywhere p) (hc : c ∈ n.children) :
    c.Everywhere p :=
  everywhere_iff.mpr fun m hm => everywhere_iff.mp h m (mem_subtrees.mpr (Or.inr ⟨c, hc, hm⟩))

theorem Everywhere.self (h : n.Everywhere p) : p n = true :=
  everywhere_iff.mp h n (self_mem_subtrees n)

/-- A tree passes a test everywhere if it does and its parts do. -/
theorem everywhere_of_children (hself : p n = true)
    (hparts : ∀ c ∈ n.children, c.Everywhere p) : n.Everywhere p := by
  refine everywhere_iff.mpr fun m hm => ?_
  rcases mem_subtrees.mp hm with rfl | ⟨c, hc, hm⟩
  · exact hself
  · exact everywhere_iff.mp (hparts c hc) m hm

/-- A tree that is rebuilt node by node. -/
theorem Everywhere.rebuild {q : Node β → Bool} {f : Node α → Node β} (h : n.Everywhere p)
    (hf : ∀ n, (f n).children = n.children.map f) (hself : ∀ n, p n = true → q (f n) = true) :
    (f n).Everywhere q := by
  rw [everywhere_iff, subtrees_rebuild hf]
  intro m hm
  obtain ⟨k, hk, rfl⟩ := Array.mem_map.mp hm
  exact hself k (everywhere_iff.mp h k hk)

end

/-! ## Bounds and branches -/

/-- Whether the bounds of a node are in order, if it is a repeat. -/
def hasOrder : Node α → Bool
  | repeated _ b _ _ => b.max.all (b.min ≤ ·)
  | _ => true

/-- The least number of rounds of every repeat is no larger than the greatest. -/
def Ordered (n : Node α) : Prop := n.subtrees.all hasOrder = true

instance (n : Node α) : Decidable n.Ordered := inferInstanceAs (Decidable (_ = true))

theorem ordered_iff {n : Node α} : n.Ordered ↔ ∀ m ∈ n.subtrees, m.hasOrder = true :=
  everywhere_iff

theorem Ordered.child {n c : Node α} (h : n.Ordered) (hc : c ∈ n.children) : c.Ordered :=
  Everywhere.child h hc

theorem Ordered.self {n : Node α} (h : n.Ordered) : n.hasOrder = true := Everywhere.self h

/-- Whether there are branches to choose from, if a node is a choice. -/
def hasBranches : Node α → Bool
  | alternation _ branches => !branches.isEmpty
  | _ => true

/-- Whether a node is one that patterns can have. -/
def isProper (n : Node α) : Bool := n.hasOrder && n.hasBranches

/-- All bounds are in order, and all choices have branches. -/
def Proper (n : Node α) : Prop := n.Everywhere isProper

theorem Proper.ordered {n : Node α} (h : n.Proper) : n.Ordered :=
  ordered_iff.mpr fun m hm => (Bool.and_eq_true_iff.mp (everywhere_iff.mp h m hm)).1

theorem Proper.child {n c : Node α} (h : n.Proper) (hc : c ∈ n.children) : c.Proper :=
  Everywhere.child h hc

theorem Proper.self {n : Node α} (h : n.Proper) : n.isProper = true := Everywhere.self h

theorem proper_of_children {n : Node α} (hself : n.isProper = true)
    (hparts : ∀ c ∈ n.children, c.Proper) : n.Proper := everywhere_of_children hself hparts

end RegexMachine.Node
