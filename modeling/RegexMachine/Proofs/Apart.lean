import RegexMachine.Proofs.Numbers

/-!
Groups that stand apart. No group of a pattern stands inside itself, and no two items of a sequence
have groups of the same number; only branches share numbers. Analysis keeps it so, except that a
negated lookbehind becomes a sequence of lookarounds, one for each branch.
-/
namespace RegexMachine

namespace Node

variable {α β : Type}

/-- Whether a node is a lookaround that is not on the path through a pattern. -/
def isAside : Node α → Bool
  | look _ k _ => k.behind || k.negated
  | _ => false

/-- Whether a node that is a group is not inside itself, and items of a sequence share no groups unless
one of the two is exempt. -/
def isApart (exempt : Node α → Bool) : Node α → Bool
  | group _ (.capture g _) body => !body.groupNumbers.contains g
  | sequence _ items => decide (items.Pairwise fun a b =>
      exempt a = true ∨ exempt b = true ∨ ∀ g ∈ a.groupNumbers, g ∉ b.groupNumbers)
  | _ => true

/-- No group is inside itself, and no items share groups. -/
def Separate (n : Node α) : Prop := n.Everywhere (isApart fun _ => false)

/-- No group is inside itself, and no items share groups that are on the path. -/
def Apart (n : Node α) : Prop := n.Everywhere (isApart isAside)

theorem isApart_capture {exempt : Node α → Bool} {note : α} {g : Nat} {name : Option String}
    {body : Node α} :
    (group note (.capture g name) body).isApart exempt = true ↔ g ∉ body.groupNumbers := by
  simp [isApart]

theorem isApart_sequence {exempt : Node α → Bool} {note : α} {items : List (Node α)} :
    (sequence note items).isApart exempt = true ↔ items.Pairwise fun a b =>
      exempt a = true ∨ exempt b = true ∨ ∀ g ∈ a.groupNumbers, g ∉ b.groupNumbers :=
  decide_eq_true_iff

/-- Whether a node stands apart depends on its kind and on the groups of its parts. -/
theorem isApart_rebuilt {f : Node α → Node β} {exempt : Node α → Bool} {exempt' : Node β → Bool}
    {n : Node α} (hparts : (f n).children = n.children.map f)
    (hsequence : ∀ note' items', f n = sequence note' items' → ∃ note items, n = sequence note items)
    (hnumbers : ∀ c ∈ n.children, (f c).groupNumbers = c.groupNumbers)
    (hself : (f n).number? = n.number?)
    (hexempt : ∀ c ∈ n.children, exempt c = true → exempt' (f c) = true)
    (h : n.isApart exempt = true) : (f n).isApart exempt' = true := by
  cases hf : f n with
  | group note' kind' body' =>
    cases kind' with
    | capture g name' =>
      rw [hf] at hself hparts
      obtain ⟨body, hcaptured⟩ : ∃ body, n.captured? = some (g, body) := by
        obtain ⟨⟨g', body⟩, hcaptured, hg⟩ := Option.map_eq_some_iff.mp hself.symm
        obtain rfl : g' = g := hg
        exact ⟨body, hcaptured⟩
      obtain ⟨note, name, rfl⟩ : ∃ note name, n = group note (.capture g name) body := by
        unfold captured? at hcaptured
        split at hcaptured <;> cases hcaptured
        exact ⟨_, _, rfl⟩
      obtain rfl : body' = f body := by simpa [children] using hparts
      rw [isApart_capture] at h ⊢
      rwa [hnumbers body (by simp [children])]
    | _ => rfl
  | sequence note' items' =>
    obtain ⟨note, items, rfl⟩ := hsequence note' items' hf
    rw [hf] at hparts
    obtain rfl : items' = items.map f := hparts
    rw [isApart_sequence] at h ⊢
    rw [List.pairwise_map]
    refine h.imp_of_mem fun {a b} ha hb hab => ?_
    rw [hnumbers a ha, hnumbers b hb]
    exact hab.imp (hexempt a ha) (Or.imp_left (hexempt b hb))
  | _ => rfl

theorem Separate.apart {n : Node α} (h : n.Separate) : n.Apart := by
  have hexempt : ∀ m : Node α, m.isApart (fun _ => false) = true → m.isApart isAside = true :=
    fun m hm => isApart_rebuilt (f := id) (List.map_id _).symm (fun note items hn => ⟨note, items, hn⟩)
      (fun _ _ => rfl) rfl (fun _ _ h => absurd h Bool.false_ne_true) hm
  exact everywhere_iff.mpr fun m hm => hexempt m (everywhere_iff.mp h m hm)

theorem isAside_measure (s : Scale) (n : Node Span) : (n.measure s).isAside = n.isAside := by
  cases n <;> simp [Node.measure, isAside]

/-- Measuring keeps what stands apart, whatever is exempt. -/
theorem Everywhere.measure_apart {exempt : Node Span → Bool} {exempt' : Node Measured → Bool}
    {n : Node Span} (h : n.Everywhere (isApart exempt)) (s : Scale)
    (hexempt : ∀ c, exempt c = true → exempt' (c.measure s) = true) :
    (n.measure s).Everywhere (isApart exempt') := by
  refine Everywhere.rebuild h (children_measure s) fun n hn => ?_
  refine isApart_rebuilt (children_measure s n) (fun note items hf => ?_)
    (fun c _ => groupNumbers_measure s c) ?_ (fun c _ => hexempt c) hn
  · cases n <;> simp [Node.measure] at hf
    exact ⟨_, _, rfl⟩
  · cases n with
    | group note k body => rw [Node.measure, number?_group]
    | _ => rw [Node.measure]; rfl

theorem Separate.measure {n : Node Span} (h : n.Separate) (s : Scale) : (n.measure s).Separate :=
  Everywhere.measure_apart h s fun _ hc => absurd hc Bool.false_ne_true

theorem Apart.measure {n : Node Span} (h : n.Apart) (s : Scale) : (n.measure s).Apart :=
  Everywhere.measure_apart h s fun c hc => (isAside_measure s c).trans hc

theorem Separate.splitLooks {n : Node Measured} (h : n.Separate) (d : Dialect) :
    (n.splitLooks d).Apart := by
  refine Everywhere.splitLooks h (fun n hn hapart => ?_) (fun _ _ _ => rfl) fun span k n _ => ?_
  · refine isApart_rebuilt (children_splitLooks d hn) (fun note items hf => ?_)
      (fun c _ => groupNumbers_splitLooks d c) ?_ (fun _ _ h => absurd h Bool.false_ne_true) hapart
    · cases n with
      | look p k body =>
        rw [splitsBehind] at hn
        rw [Node.splitLooks, if_neg (by simp [hn])] at hf
        cases hf
      | sequence p items => exact ⟨_, _, rfl⟩
      | _ => rw [Node.splitLooks] at hf; cases hf
    · cases n with
      | look p k body =>
        rw [splitsBehind] at hn
        rw [Node.splitLooks, if_neg (by simp [hn])]
        rfl
      | group note k body => rw [Node.splitLooks, number?_group]
      | _ => rw [Node.splitLooks]; rfl
  · unfold splitLook
    dsimp only
    split
    · -- The branches of a negated lookbehind may share groups, but all are aside.
      rw [isApart_sequence, List.pairwise_map]
      exact List.pairwise_of_forall fun a b => Or.inl (by simp [isAside, *])
    · rfl

end Node

namespace Analyzed
open Node

theorem mark_apart {n : Node Measured} (h : n.Apart) (g : CallGraph) : (mark g n).Apart := by
  refine Everywhere.rebuild h (children_mark g) fun n hn => ?_
  refine isApart_rebuilt (children_mark g n) (fun note items hf => ?_)
    (fun c _ => groupNumbers_mark g c) ?_ (fun c _ hc => ?_) hn
  · cases n with
    | sequence p items => exact ⟨_, _, rfl⟩
    | group p k body => cases k <;> cases hf
    | _ => cases hf
  · cases n with
    | group p k body => cases k <;> rfl
    | _ => rfl
  · cases c with
    | look p k body => exact hc
    | _ => cases hc

/-- Analysis keeps groups apart that are on the path. -/
theorem ofTree_apart {d : Dialect} {e : Encoding} {t : PatternTree Span} {a : Analyzed}
    (h : Analyzed.ofTree d e t = .ok a) (ht : t.root.Separate) : a.tree.root.Apart := by
  obtain ⟨root, hroot, -, htree, -⟩ := ofTree_parts h
  obtain ⟨s, n, -, -, rfl, hn⟩ := measure_eq hroot
  rw [htree]
  refine mark_apart (Apart.measure ?_ s) a.calls
  rcases hn with rfl | ⟨s', rfl⟩
  · exact ht.apart
  · exact (ht.measure s').splitLooks d

end Analyzed
end RegexMachine
