import RegexMachine.Proofs.Parsing
import RegexMachine.Proofs.Trees

/-!
The numbers of the groups of a tree. Analysis keeps them in order, and no group of a pattern has a
number beyond those that were given.
-/
namespace RegexMachine

namespace Node

variable {α β : Type}

/-- Number of the group that a node is, if it is one. -/
def number? (n : Node α) : Option Nat := n.captured?.map (·.1)

/-- Numbers of the groups of a tree, once for each definition. -/
def groupNumbers (n : Node α) : List Nat := n.subtrees.toList.filterMap number?

theorem groupNumbers_eq (n : Node α) :
    n.groupNumbers = n.number?.toList ++ n.children.flatMap groupNumbers := by
  have hparts : (n.children.flatMap fun c => c.subtrees.toList).filterMap number? =
      n.children.flatMap groupNumbers := by
    induction n.children with
    | nil => rfl
    | cons c cs ih => rw [List.flatMap_cons, List.filterMap_append, ih, List.flatMap_cons]; rfl
  rw [groupNumbers, subtrees_toList, List.filterMap_cons, hparts]
  cases n.number? <;> rfl

theorem subtrees_trans {k m n : Node α} (hk : k ∈ m.subtrees) (hm : m ∈ n.subtrees) :
    k ∈ n.subtrees := by
  induction n using Node.induction with
  | step n ih =>
    rcases mem_subtrees.mp hm with rfl | ⟨c, hc, hm⟩
    · exact hk
    · exact mem_subtrees.mpr (Or.inr ⟨c, hc, ih c hc hm⟩)

theorem Everywhere.subtree {p : Node α → Bool} {m n : Node α} (h : n.Everywhere p)
    (hm : m ∈ n.subtrees) : m.Everywhere p :=
  everywhere_iff.mpr fun _ hk => everywhere_iff.mp h _ (subtrees_trans hk hm)

theorem mem_groupNumbers {g : Nat} {n : Node α} :
    g ∈ n.groupNumbers ↔ ∃ m ∈ n.subtrees, m.number? = some g := by
  simp [groupNumbers]

theorem groupNumbers_subset {m n : Node α} (hm : m ∈ n.subtrees) :
    ∀ g ∈ m.groupNumbers, g ∈ n.groupNumbers := by
  intro g hg
  obtain ⟨k, hk, hkg⟩ := mem_groupNumbers.mp hg
  exact mem_groupNumbers.mpr ⟨k, subtrees_trans hk hm, hkg⟩

theorem child_mem_subtrees {n c : Node α} (hc : c ∈ n.children) : c ∈ n.subtrees :=
  mem_subtrees.mpr (Or.inr ⟨c, hc, self_mem_subtrees c⟩)

/-- A group is defined somewhere in a tree. -/
theorem exists_captured {n : Node α} {g : Nat} (h : g ∈ n.groupNumbers) :
    ∃ m ∈ n.subtrees, ∃ body, m.captured? = some (g, body) := by
  obtain ⟨m, hm, hnumber⟩ := mem_groupNumbers.mp h
  obtain ⟨⟨g', body⟩, hcaptured, rfl⟩ := Option.map_eq_some_iff.mp hnumber
  exact ⟨m, hm, body, hcaptured⟩

theorem captured?_some {n body : Node α} {g : Nat} (h : n.captured? = some (g, body)) :
    ∃ note name, n = .group note (.capture g name) body := by
  cases n with
  | group note k inner =>
    cases k with
    | capture g name =>
      cases h
      exact ⟨note, name, rfl⟩
    | _ => cases h
  | _ => cases h

theorem captured?_child {n body : Node α} {g : Nat} (h : n.captured? = some (g, body)) :
    body ∈ n.children := by
  obtain ⟨note, name, rfl⟩ := captured?_some h
  exact List.mem_singleton.mpr rfl

theorem groupNumbers_capture (note : α) (g : Nat) (name : Option String) (body : Node α) :
    (group note (.capture g name) body).groupNumbers = g :: body.groupNumbers := by
  rw [groupNumbers_eq]
  simp [number?, captured?, children]

theorem groupNumbers_child {n c : Node α} (hc : c ∈ n.children) :
    ∀ g ∈ c.groupNumbers, g ∈ n.groupNumbers := groupNumbers_subset (child_mem_subtrees hc)

theorem number?_group (note : α) (k : Grouping) (body : Node α) (note' : β) (body' : Node β) :
    (group note k body).number? = (group note' k body').number? := by
  cases k <;> rfl

/-- A node that is rebuilt from rebuilt parts keeps the numbers. -/
theorem groupNumbers_rebuilt {f : Node α → Node β} {n : Node α} (hself : (f n).number? = n.number?)
    (hparts : (f n).children = n.children.map f)
    (ih : ∀ c ∈ n.children, (f c).groupNumbers = c.groupNumbers) :
    (f n).groupNumbers = n.groupNumbers := by
  rw [groupNumbers_eq, groupNumbers_eq, hself, hparts, List.flatMap_map]
  exact congrArg _ (List.flatMap_congr ih)

theorem groupNumbers_measure (s : Scale) (n : Node Span) :
    (n.measure s).groupNumbers = n.groupNumbers := by
  induction n using Node.induction with
  | step n ih =>
    refine groupNumbers_rebuilt ?_ (children_measure s n) ih
    cases n with
    | group note k body => rw [measure, number?_group]
    | _ => rw [measure]; rfl

/-- A lookbehind that is split has the groups of its branches. -/
theorem groupNumbers_splitLook (span : Span) (k : Look) (branches : List (Node Span)) :
    (splitLook span k branches).groupNumbers = branches.flatMap groupNumbers := by
  have hlook : ∀ b : Node Span, (Node.look span k b).groupNumbers = b.groupNumbers := fun b => by
    rw [groupNumbers_eq]
    simp [number?, captured?, children]
  have hlooks : (branches.map (Node.look span k)).flatMap groupNumbers =
      branches.flatMap groupNumbers := by
    rw [List.flatMap_map]
    exact List.flatMap_congr fun b _ => hlook b
  unfold splitLook
  dsimp only
  split <;> rw [groupNumbers_eq, ← hlooks] <;> rfl

theorem groupNumbers_branchesOf (n : Node Span) :
    n.branchesOf.flatMap groupNumbers = n.groupNumbers := by
  unfold branchesOf
  split
  · rw [groupNumbers_eq]
    rfl
  · exact List.flatMap_singleton ..

theorem groupNumbers_splitLooks (d : Dialect) (n : Node Measured) :
    (n.splitLooks d).groupNumbers = n.groupNumbers := by
  induction n using Node.induction with
  | step n ih =>
    cases hn : n.splitsBehind d with
    | true =>
      cases n with
      | look p k body =>
        have hbody := ih body (List.mem_singleton.mpr rfl)
        rw [splitsBehind] at hn
        rw [splitLooks, if_pos hn, groupNumbers_splitLook, groupNumbers_branchesOf, hbody,
          groupNumbers_eq (.look p k body)]
        simp [number?, captured?, children]
      | _ => cases hn
    | false =>
      refine groupNumbers_rebuilt ?_ (children_splitLooks d hn) ih
      cases n with
      | look p k body =>
        rw [splitsBehind] at hn
        rw [splitLooks, if_neg (by simp [hn])]
        rfl
      | group note k body => rw [splitLooks, number?_group]
      | _ => rw [splitLooks]; rfl

end Node

namespace Analyzed
open Node

theorem groupNumbers_mark (g : CallGraph) (n : Node Measured) :
    (mark g n).groupNumbers = n.groupNumbers := by
  induction n using Node.induction with
  | step n ih =>
    refine groupNumbers_rebuilt ?_ (children_mark g n) ih
    cases n with
    | group p k body => cases k <;> rfl
    | _ => rfl

/-- Analysis keeps the groups of a tree. -/
theorem ofTree_groupNumbers {d : Dialect} {e : Encoding} {t : PatternTree Span} {a : Analyzed}
    (h : Analyzed.ofTree d e t = .ok a) : a.tree.root.groupNumbers = t.root.groupNumbers := by
  obtain ⟨root, hroot, -, htree, -⟩ := ofTree_parts h
  obtain ⟨s, n, -, -, rfl, hn⟩ := measure_eq hroot
  rw [htree, groupNumbers_mark, groupNumbers_measure]
  rcases hn with rfl | ⟨s', rfl⟩
  · rfl
  · rw [groupNumbers_splitLooks, groupNumbers_measure]

end Analyzed

/-! ## Numbers that are given -/

namespace Pattern

namespace Numbering

/-- Numbers begin with 1, and none is larger than the largest one given. -/
def Bounded (n : Numbering) : Prop := ∀ g, some g ∈ n.numbers → 0 < g ∧ g ≤ n.count

theorem bounded_add {n : Numbering} (h : n.Bounded) (only : Bool) (d : GroupDef) :
    (n.add only d).Bounded := by
  unfold add
  split <;> intro g hg
  · rcases Array.mem_push.mp hg with hg | hg
    · exact h g hg
    · cases hg
  · rcases Array.mem_push.mp hg with hg | hg
    · exact ⟨(h g hg).1, Nat.le_succ_of_le (h g hg).2⟩
    · cases hg
      exact ⟨Nat.succ_pos _, Nat.le_refl _⟩

theorem bounded_ofDefs (only : Bool) (defs : Array GroupDef) : (ofDefs only defs).Bounded :=
  Array.foldl_induction (motive := fun _ (n : Numbering) => n.Bounded)
    (fun _ h => by simp [empty] at h) fun _ _ h => bounded_add h only _

theorem Bounded.number?_le {n : Numbering} (h : n.Bounded) {raw g : Nat}
    (hg : n.number? raw = some g) : 0 < g ∧ g ≤ n.count := by
  unfold number? at hg
  split at hg
  · cases hg
  · exact h g (Array.mem_of_getElem? (Option.join_eq_some_iff.mp hg))

/-- The number of a group that has been bound is the one that its own was given. -/
theorem bind_number? {n : Numbering} {m r : Node Span} (h : bind n m = .ok r) {g : Nat}
    (hg : r.number? = some g) : ∃ raw, m.number? = some raw ∧ n.number? raw = some g := by
  cases m with
  | group s k body =>
    simp only [bind, Bind.bind, Except.bind] at h
    split at h
    · cases h
    · cases h
      cases k with
      | capture raw name =>
        cases hraw : n.number? raw with
        | none => simp [bindGrouping, hraw, Node.number?, Node.captured?] at hg
        | some g' =>
          simp only [bindGrouping, hraw, Node.number?, Node.captured?, Option.map_some,
            Option.some.injEq] at hg
          exact ⟨raw, rfl, hg ▸ hraw⟩
      | _ => cases hg
  | conditional s t gs yes no =>
    simp only [bind, Bind.bind, Except.bind] at h
    repeat' split at h
    all_goals cases h
    cases hg
  | _ =>
    simp only [bind, Bind.bind, Except.bind] at h
    split at h
    · cases h
    · cases h
      cases hg

/-- The groups of a tree that is bound have numbers of groups of the tree. -/
theorem bind_groups {n : Numbering} {m r : Node Span} (h : bind n m = .ok r) :
    ∀ g ∈ r.groupNumbers, ∃ raw ∈ m.groupNumbers, n.number? raw = some g := by
  induction m using Node.induction generalizing r with
  | step m ih =>
    intro g hg
    obtain ⟨-, hparts⟩ := bind_ok h
    rw [Node.groupNumbers_eq, List.mem_append] at hg
    rw [Node.groupNumbers_eq]
    rcases hg with hg | hg
    · obtain ⟨raw, hraw, hnumber⟩ := bind_number? h (Option.mem_toList.mp hg)
      exact ⟨raw, List.mem_append_left _ (Option.mem_toList.mpr hraw), hnumber⟩
    · obtain ⟨c, hc, hg⟩ := List.mem_flatMap.mp hg
      obtain ⟨k, hk, hbind⟩ := hparts c hc
      obtain ⟨raw, hraw, hnumber⟩ := ih k hk hbind g hg
      exact ⟨raw, List.mem_append_right _ (List.mem_flatMap.mpr ⟨k, hk, hraw⟩), hnumber⟩

theorem bind_groupNumbers {n : Numbering} (hn : n.Bounded) {m r : Node Span}
    (h : bind n m = .ok r) : ∀ g ∈ r.groupNumbers, 0 < g ∧ g ≤ n.count := fun g hg =>
  let ⟨_, _, hnumber⟩ := bind_groups h g hg
  hn.number?_le hnumber

end Numbering

theorem resolve_groupNumbers {d : Dialect} {c : Cursor} {root : Node Span} {t : PatternTree Span}
    (h : resolve d c root = .ok t) :
    ∀ g ∈ t.root.groupNumbers, 0 < g ∧ g ≤ t.captures := by
  have hlast {only : Bool} (h : (do
      let n := Numbering.ofDefs only c.groups
      return ⟨← n.bind root, n.count, n.names, c.callsWhole⟩ :
        Except PatternError (PatternTree Span)) = .ok t) :
      ∀ g ∈ t.root.groupNumbers, 0 < g ∧ g ≤ t.captures := by
    simp only [Bind.bind, Except.bind] at h
    split at h
    · cases h
    · rename_i hb
      cases h
      exact Numbering.bind_groupNumbers (Numbering.bounded_ofDefs _ _) hb
  unfold resolve at h
  dsimp only at h
  split at h
  · split at h
    · cases h
    · exact hlast h
  · exact hlast h

/-- The groups of a pattern are among those that it is said to have. -/
theorem parse_groupNumbers {s : Setting} {o : Options} {properties : PropertyRegistry}
    {t : PatternTree Span} (h : (parse s o properties).1 = .ok t) :
    ∀ g ∈ t.root.groupNumbers, 0 < g ∧ g ≤ t.captures := by
  unfold parse at h
  split at h
  · cases h
  · rename_i root c _
    cases hr : resolve s.dialect c root with
    | error e =>
      rw [hr] at h
      cases h
    | ok t' =>
      rw [hr] at h
      cases h
      exact resolve_groupNumbers hr

end Pattern
end RegexMachine
