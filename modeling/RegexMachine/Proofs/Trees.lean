import RegexMachine.Compile.Program
import RegexMachine.Proofs.Emission
import RegexMachine.Proofs.Lengths

/-!
Trees as a whole: the nodes of a tree, and what the facts noted at its root say of them.
-/
namespace RegexMachine

namespace Node

theorem children_measure (s : Scale) (n : Node Span) :
    (measure s n).children = n.children.map (measure s) := by
  cases n with
  | conditional p t gs yes no => cases no <;> simp [measure, measureOption, children]
  | sequence p items => simp [measure, measureAll_eq, children]
  | alternation p branches => simp [measure, measureAll_eq, children]
  | _ => simp [measure, children]

end Node

theorem Analyzed.children_mark (g : CallGraph) (n : Node Measured) :
    (mark g n).children = n.children.map (mark g) := by
  cases n with
  | group p k body => cases k <;> rfl
  | conditional p t gs yes no => cases no <;> rfl
  | sequence p items => simp [mark, markAll_eq, Node.children]
  | alternation p branches => simp [mark, markAll_eq, Node.children]
  | _ => rfl

/-! ## Bounds and branches in an analyzed tree -/

namespace Node

variable {d : Dialect} {p : Node Measured → Bool} {q : Node Span → Bool}

theorem measure_hasOrder (s : Scale) (n : Node Span) : (n.measure s).hasOrder = n.hasOrder := by
  cases n <;> simp [Node.measure, hasOrder]

theorem measure_hasBranches (s : Scale) (n : Node Span) :
    (n.measure s).hasBranches = n.hasBranches := by
  cases n <;> simp [Node.measure, measureAll_eq, hasBranches]

theorem Ordered.measure {n : Node Span} (h : n.Ordered) (s : Scale) : (n.measure s).Ordered :=
  Everywhere.rebuild h (children_measure s) fun n hn => (measure_hasOrder s n).trans hn

theorem Proper.measure {n : Node Span} (h : n.Proper) (s : Scale) : (n.measure s).Proper := by
  refine Everywhere.rebuild h (children_measure s) fun n hn => ?_
  rw [isProper, measure_hasOrder, measure_hasBranches]
  exact hn

theorem splitLooksAll_eq (d : Dialect) (ns : List (Node Measured)) (done : List (Node Span)) :
    splitLooksAll d ns done = done.reverse ++ ns.map (splitLooks d) := by
  induction ns generalizing done with
  | nil => simp [splitLooksAll]
  | cons n ns ih => simp [splitLooksAll, ih]

theorem children_splitLooks (d : Dialect) {n : Node Measured} (hn : n.splitsBehind d = false) :
    (splitLooks d n).children = n.children.map (splitLooks d) := by
  cases n with
  | conditional p t gs yes no => cases no <;> simp [splitLooks, splitLooksOption, children]
  | sequence p items => simp [splitLooks, splitLooksAll_eq, children]
  | alternation p branches => simp [splitLooks, splitLooksAll_eq, children]
  | look p k body =>
    rw [splitsBehind] at hn
    simp [splitLooks, children, hn]
  | _ => simp [splitLooks, children]

theorem splitLooks_hasOrder {n : Node Measured} (hn : n.splitsBehind d = false) :
    (splitLooks d n).hasOrder = n.hasOrder := by
  cases n with
  | look p k body =>
    rw [splitsBehind] at hn
    simp [splitLooks, hn, hasOrder]
  | _ => simp [splitLooks, hasOrder]

theorem splitLooks_hasBranches {n : Node Measured} (hn : n.splitsBehind d = false) :
    (splitLooks d n).hasBranches = n.hasBranches := by
  cases n with
  | look p k body =>
    rw [splitsBehind] at hn
    simp [splitLooks, hn, hasBranches]
  | _ => simp [splitLooks, splitLooksAll_eq, hasBranches]

theorem Everywhere.branchesOf {n : Node Span} (h : n.Everywhere q) :
    ∀ b ∈ branchesOf n, b.Everywhere q := by
  intro b hb
  unfold Node.branchesOf at hb
  split at hb
  · exact h.child hb
  · obtain rfl := List.mem_singleton.mp hb
    exact h

/-- Splitting a lookbehind puts a node over one for each branch. -/
theorem Everywhere.splitLooks {n : Node Measured} (h : n.Everywhere p)
    (hself : ∀ n, n.splitsBehind d = false → p n = true → q (splitLooks d n) = true)
    (hlook : ∀ span k body, q (look span k body) = true)
    (hsplit : ∀ span k n, q n = true → q (splitLook span k (Node.branchesOf n)) = true) :
    (n.splitLooks d).Everywhere q := by
  induction n using Node.induction with
  | step n ih =>
    cases hn : n.splitsBehind d with
    | true =>
      cases n with
      | look note k body =>
        have hbody := ih body (List.mem_singleton.mpr rfl) (h.child (List.mem_singleton.mpr rfl))
        have hlooks : ∀ c ∈ (Node.branchesOf (body.splitLooks d)).map (Node.look note.span k),
            c.Everywhere q := by
          intro c hc
          obtain ⟨b, hb, rfl⟩ := List.mem_map.mp hc
          exact everywhere_of_children (hlook _ _ _) fun c hc =>
            List.mem_singleton.mp hc ▸ hbody.branchesOf b hb
        have hself := hsplit note.span k _ hbody.self
        rw [splitsBehind] at hn
        rw [Node.splitLooks, if_pos hn]
        unfold Node.splitLook at hself ⊢
        dsimp only at hself ⊢
        split at hself
        · rw [if_pos ‹_›]
          exact everywhere_of_children hself hlooks
        · rw [if_neg ‹_›]
          exact everywhere_of_children hself hlooks
      | _ => cases hn
    | false =>
      refine everywhere_of_children (hself n hn h.self) ?_
      rw [children_splitLooks d hn]
      simp only [List.mem_map]
      rintro _ ⟨c, hc, rfl⟩
      exact ih c hc (h.child hc)

theorem Ordered.splitLooks {n : Node Measured} (h : n.Ordered) (d : Dialect) :
    (n.splitLooks d).Ordered := by
  refine Everywhere.splitLooks h (fun n hn ho => ?_) (fun _ _ _ => rfl) fun span k n _ => ?_
  · rw [splitLooks_hasOrder hn]
    exact ho
  · unfold Node.splitLook
    dsimp only
    split <;> rfl

theorem Proper.splitLooks {n : Node Measured} (h : n.Proper) (d : Dialect) :
    (n.splitLooks d).Proper := by
  refine Everywhere.splitLooks h (fun n hn ho => ?_) (fun _ _ _ => rfl) fun span k n hn => ?_
  · rw [isProper, splitLooks_hasOrder hn, splitLooks_hasBranches hn]
    exact ho
  · have hbranches : (branchesOf n).isEmpty = false := by
      unfold branchesOf
      split
      · simpa [isProper, hasOrder, hasBranches] using hn
      · rfl
    unfold Node.splitLook
    dsimp only
    split
    · rfl
    · simpa [isProper, hasOrder, hasBranches] using hbranches

end Node

namespace Analyzed
open Node

theorem mark_hasOrder (g : CallGraph) (n : Node Measured) : (mark g n).hasOrder = n.hasOrder := by
  cases n with
  | group p k body => cases k <;> rfl
  | _ => rfl

theorem mark_hasBranches (g : CallGraph) (n : Node Measured) :
    (mark g n).hasBranches = n.hasBranches := by
  cases n with
  | group p k body => cases k <;> rfl
  | alternation p branches => simp [mark, markAll_eq, hasBranches]
  | _ => rfl

theorem mark_ordered {n : Node Measured} (h : n.Ordered) (g : CallGraph) : (mark g n).Ordered :=
  Everywhere.rebuild h (children_mark g) fun n hn => (mark_hasOrder g n).trans hn

theorem mark_proper {n : Node Measured} (h : n.Proper) (g : CallGraph) : (mark g n).Proper := by
  refine Everywhere.rebuild h (children_mark g) fun n hn => ?_
  rw [isProper, mark_hasOrder, mark_hasBranches]
  exact hn

/-- Analysis keeps bounds in order. -/
theorem ofTree_ordered {d : Dialect} {e : Encoding} {p : PatternTree Span} {a : Analyzed}
    (h : Analyzed.ofTree d e p = .ok a) (hp : p.root.Ordered) : a.tree.root.Ordered := by
  obtain ⟨root, hroot, -, htree, -⟩ := ofTree_parts h
  obtain ⟨s, n, -, -, rfl, hn⟩ := measure_eq hroot
  rw [htree]
  refine mark_ordered (Ordered.measure ?_ s) a.calls
  rcases hn with rfl | ⟨s', rfl⟩
  · exact hp
  · exact (hp.measure s').splitLooks d

/-- Analysis leaves choices their branches. -/
theorem ofTree_proper {d : Dialect} {e : Encoding} {p : PatternTree Span} {a : Analyzed}
    (h : Analyzed.ofTree d e p = .ok a) (hp : p.root.Proper) : a.tree.root.Proper := by
  obtain ⟨root, hroot, -, htree, -⟩ := ofTree_parts h
  obtain ⟨s, n, -, -, rfl, hn⟩ := measure_eq hroot
  rw [htree]
  refine mark_proper (Proper.measure ?_ s) a.calls
  rcases hn with rfl | ⟨s', rfl⟩
  · exact hp
  · exact (hp.measure s').splitLooks d

end Analyzed

/-! ## Facts that the parts of a node hand on -/

/-- A fact about a part that holds of the whole too. -/
def Trait.isHandedOn (t : Trait) : Bool :=
  (FlagSet.ofList [.hasBackref, .hasCapture, .hasCall, .hasControl]).has t

namespace Node

variable {α : Type} {t : Trait}

/-- Whether a node by itself is what a fact is about. -/
def owns (t : Trait) : Node α → Bool
  | atom _ (.backref _ _ _) => t == .hasBackref
  | atom _ (.call _ _) => t == .hasCall
  | group _ (.capture _ _) _ => t == .hasCapture
  | group _ .atomic _ => t == .hasControl
  | group _ .absent _ => t == .hasControl
  | conditional _ _ _ _ _ => t == .hasControl
  | look _ _ _ => t == .hasControl
  | _ => false

theorem make_has (ht : t.isHandedOn = true) (lo : Nat) (hi : Option Nat) (bytes : Nat)
    (traits : Traits) (depth : Nat) :
    (Info.make lo hi bytes traits depth).traits.has t = traits.has t := by
  have : Trait.fixedLength ≠ t := by
    rintro rfl
    cases ht
  simp [Info.make, FlagSet.has_set distinct_traits, this]

theorem inherited_has (ht : t.isHandedOn = true) (s : Traits) :
    (Info.inherited s).has t = s.has t := by
  rw [Info.inherited, FlagSet.has_inter]
  unfold Trait.isHandedOn at ht
  rw [ht, Bool.and_true]

theorem ofParts_has (ht : t.isHandedOn = true) (parts : List Info) :
    (Info.ofParts parts).1.has t = parts.any (·.traits.has t) := by
  have key : ∀ (acc : Traits × Nat) (parts : List Info),
      (parts.foldl (fun acc i => (acc.1.union (Info.inherited i.traits), max acc.2 i.depth))
        acc).1.has t = (acc.1.has t || parts.any (·.traits.has t)) := by
    intro acc parts
    induction parts generalizing acc with
    | nil => simp
    | cons i parts ih =>
      rw [List.foldl_cons, ih, FlagSet.has_union, inherited_has ht, List.any_cons, Bool.or_assoc]
  rw [Info.ofParts, key, FlagSet.has_empty, Bool.false_or]

theorem has_ofList_single (f g : Trait) : (FlagSet.ofList [f]).has g = (g == f) := by
  rw [FlagSet.ofList, List.foldl_cons, List.foldl_nil, FlagSet.has_insert distinct_traits,
    FlagSet.has_empty, Bool.false_or, Bool.beq_comm]
  rfl

theorem insert_has (s : Traits) (f g : Trait) : (s.insert f).has g = (g == f || s.has g) := by
  rw [FlagSet.has_insert distinct_traits, Bool.or_comm, Bool.beq_comm]
  rfl

theorem atomInfo_has (ht : t.isHandedOn = true) (s : Scale) (p : Span) (a : Atom) :
    (s.atomInfo a).traits.has t = (measure s (atom p a)).owns t := by
  cases a with
  | literal bytes fold =>
    rw [Scale.atomInfo, Scale.literalInfo]
    dsimp only
    split <;> simp [make_has ht, measure, owns]
  | backref _ _ _ => simp [Scale.atomInfo, make_has ht, measure, owns, has_ofList_single]
  | call _ _ => simp [Scale.atomInfo, make_has ht, measure, owns, has_ofList_single]
  | _ => simp [Scale.atomInfo, Info.zero, make_has ht, measure, owns]

/-- A fact is noted at a node if the node or one of its parts is what it is about. -/
theorem measure_has_step (ht : t.isHandedOn = true) (s : Scale) (n : Node Span) :
    (measure s n).info.traits.has t =
      ((measure s n).owns t || n.children.any fun c => (measure s c).info.traits.has t) := by
  cases n with
  | atom p a => simpa [measure, info, note, children] using atomInfo_has ht s p a
  | repeated p b m body =>
    simp [measure, info, note, owns, children, Info.ofRepeat, make_has ht, inherited_has ht]
  | group p k body =>
    cases k with
    | capture g name =>
      have hnamed : Trait.named ≠ t := by
        rintro rfl
        cases ht
      simp [measure, info, note, owns, children, Info.ofGroup, make_has ht, inherited_has ht,
        insert_has, FlagSet.has_set distinct_traits, hnamed]
    | _ =>
      simp [measure, info, note, owns, children, Info.ofGroup, make_has ht, inherited_has ht,
        insert_has]
  | conditional p t gs yes no =>
    cases no with
    | none =>
      simp [measure, measureOption, info, note, owns, children, Info.ofConditional, Info.zero,
        make_has ht, insert_has, ofParts_has ht]
    | some n =>
      simp [measure, measureOption, info, note, owns, children, Info.ofConditional, make_has ht,
        insert_has, ofParts_has ht]
  | look p k body =>
    simp [measure, info, note, owns, children, Info.ofLook, Info.zero, make_has ht,
      inherited_has ht, insert_has]
  | sequence p items =>
    simp [measure, measureAll_eq, info, note, owns, children, Info.ofSequence, make_has ht,
      ofParts_has ht, Function.comp_def]
  | alternation p branches =>
    simp [measure, measureAll_eq, info, note, owns, children, Info.ofAlternation, make_has ht,
      ofParts_has ht, Function.comp_def]

/-- A fact is noted at a node if some node below is what it is about. -/
theorem measure_has (ht : t.isHandedOn = true) (s : Scale) (n : Node Span) :
    (measure s n).info.traits.has t = (measure s n).subtrees.any (owns t) := by
  induction n using Node.induction with
  | step n ih =>
    rw [measure_has_step ht, subtrees_any, children_measure, List.any_map]
    congr 1
    rw [Bool.eq_iff_iff, List.any_eq_true, List.any_eq_true]
    exact exists_congr fun c => and_congr_right fun hc => by rw [ih c hc]; rfl

end Node

namespace Analyzed
open Node

variable {t : Trait}

theorem owns_mark (g : CallGraph) (n : Node Measured) : (mark g n).owns t = n.owns t := by
  cases n with
  | group p k body => cases k <;> rfl
  | _ => rfl

theorem mark_has (ht : t.isHandedOn = true) (g : CallGraph) (n : Node Measured) :
    (mark g n).info.traits.has t = n.info.traits.has t := by
  have hcalled : Trait.called ≠ t := by
    rintro rfl
    cases ht
  have hrecursive : Trait.recursive ≠ t := by
    rintro rfl
    cases ht
  cases n with
  | group p k body =>
    cases k with
    | capture group name =>
      simp [mark, marked, info, note, FlagSet.has_set distinct_traits, hcalled, hrecursive]
    | _ => rfl
  | _ => rfl

theorem callee?_mark (g : CallGraph) (n : Node Measured) : (mark g n).callee? = n.callee? := by
  cases n with
  | group p k body => cases k <;> rfl
  | _ => rfl

theorem callees_mark (g : CallGraph) (n : Node Measured) : (mark g n).callees = n.callees := by
  rw [callees, callees, subtrees_rebuild (children_mark g), Array.toList_map, List.filterMap_map]
  exact List.filterMap_congr fun m _ => callee?_mark g m

/-- A fact is noted at the root of an analyzed tree if some node of it is what it is about. -/
theorem ofTree_has {d : Dialect} {e : Encoding} {p : PatternTree Span} {a : Analyzed}
    (h : Analyzed.ofTree d e p = .ok a) (ht : t.isHandedOn = true) :
    a.tree.root.info.traits.has t = a.tree.root.subtrees.any (owns t) := by
  obtain ⟨root, hroot, -, htree, -⟩ := ofTree_parts h
  obtain ⟨s, n, -, -, rfl, -⟩ := measure_eq hroot
  rw [htree, mark_has ht, measure_has ht, subtrees_rebuild (children_mark a.calls),
    Array.any_map]
  simp only [Function.comp_def, owns_mark]

/-- Nothing is called if the tree has no calls. -/
theorem ofTree_isCalled {d : Dialect} {e : Encoding} {p : PatternTree Span} {a : Analyzed}
    (h : Analyzed.ofTree d e p = .ok a) (hcallees : a.tree.root.callees = []) (g : Nat) :
    a.calls.isCalled g = false := by
  obtain ⟨root, -, hcalls, htree, -⟩ := ofTree_parts h
  rw [htree, callees_mark] at hcallees
  rw [CallGraph.ofTree, hcallees] at hcalls
  have hnone := Except.ok.inj hcalls
  rw [CallGraph.isCalled, ← hnone, Array.getD_eq_getD_getElem?, Array.getElem?_replicate]
  split <;> rfl

end Analyzed

/-! ## Trees made of certain nodes -/

namespace Node

theorem guardableAll_eq (ns : List (Node Measured)) : guardableAll ns = ns.all guardable := by
  induction ns with
  | nil => rfl
  | cons n ns ih => rw [guardableAll, List.all_cons, ih]

theorem understood_callees {n : Node Measured} (h : n.understood = true) : n.callees = [] := by
  rw [callees, List.filterMap_eq_nil_iff]
  intro m hm
  have := understood_subtrees h (Array.mem_toList_iff.mp hm)
  unfold callee?
  split
  · cases this
  · rfl

/-- A tree that is understood refers to no groups and does not choose by them. -/
theorem understood_refers {n : Node Measured} (h : n.understood = true) :
    n.subtrees.any (owns .hasBackref) = false ∧ n.subtrees.any Compile.isConditional = false := by
  constructor
  · rw [Array.any_eq_false']
    intro m hm
    have := understood_subtrees h hm
    unfold owns
    split
    · cases this
    all_goals simp
  · rw [Array.any_eq_false']
    intro m hm
    have := understood_subtrees h hm
    unfold Compile.isConditional
    split
    · cases this
    · simp

/-- Where no node has a region or keeps guards out, loops may have guards. -/
theorem guardable_of_subtrees {n : Node Measured}
    (h : ∀ m ∈ n.subtrees, m.owns .hasControl = false ∧ forbidsGuards m = false) :
    n.guardable = true := by
  induction n using Node.induction with
  | step n ih =>
    have hself := h n (self_mem_subtrees n)
    have hparts : ∀ c ∈ n.children, c.guardable = true := fun c hc =>
      ih c hc fun m hm => h m (mem_subtrees.mpr (Or.inr ⟨c, hc, hm⟩))
    cases n with
    | atom _ _ => rfl
    | repeated _ b mode body =>
      have hbody := hparts body (List.mem_singleton.mpr rfl)
      have hforbids := hself.2
      simp only [forbidsGuards, Bool.or_eq_false_iff] at hforbids
      simp [guardable, hbody, bne, hforbids.1, hforbids.2]
    | group _ k body =>
      have hbody := hparts body (List.mem_singleton.mpr rfl)
      cases k with
      | capture _ _ => exact hbody
      | plain => exact hbody
      | atomic => cases hself.1
      | absent => cases hself.1
    | conditional _ _ _ _ _ => cases hself.1
    | look _ _ _ => cases hself.1
    | sequence _ items => rw [guardable, guardableAll_eq, List.all_eq_true]; exact hparts
    | alternation _ branches => rw [guardable, guardableAll_eq, List.all_eq_true]; exact hparts

end Node

/-- Guards are sound only where loops may have them. -/
theorem Analyzed.guardable_of_guardsAllowed {d : Dialect} {e : Encoding} {p : PatternTree Span}
    {a : Analyzed} (h : Analyzed.ofTree d e p = .ok a) (hg : guardsAllowed a.tree.root = true) :
    a.tree.root.guardable = true := by
  simp only [guardsAllowed, Bool.and_eq_true, Bool.not_eq_true'] at hg
  obtain ⟨⟨-, hcontrol⟩, hforbids⟩ := hg
  rw [ofTree_has h rfl, Array.any_eq_false'] at hcontrol
  rw [Array.any_eq_false'] at hforbids
  exact Node.guardable_of_subtrees fun m hm =>
    ⟨by simpa using hcontrol m hm, by simpa using hforbids m hm⟩

end RegexMachine
