import RegexMachine.Proofs.CallSites
import RegexMachine.Proofs.Extents
import RegexMachine.Proofs.Subroutines

/-!
Patterns that define no group twice. A call of a group then runs the only definition there is, so a
called group matches where its own body does.
-/
namespace RegexMachine

theorem Bounds.least_eq {b : Bounds} (h : b.max.all (b.min ≤ ·) = true) : b.least = b.min := by
  unfold least
  cases hmax : b.max with
  | none => rfl
  | some m => exact Nat.min_eq_left (by simpa [hmax] using h)

namespace Node
variable {α β : Type}

theorem Ordered.least_eq {note : α} {b : Bounds} {mode : RepeatMode} {body : Node α}
    (h : (repeated note b mode body).Ordered) : b.least = b.min := Bounds.least_eq h.self

/-- No group of a tree is defined twice, and none has the number of the whole pattern. -/
structure Distinct (n : Node α) : Prop where
  nodup : n.groupNumbers.Nodup
  pos : ∀ g ∈ n.groupNumbers, 0 < g

theorem number?_of_captured {n body : Node α} {g : Nat} (h : n.captured? = some (g, body)) :
    n.number? = some g := by rw [number?, h]; rfl

/-- What a call runs stands in the tree. -/
theorem calledBody?_mem_subtrees {root n : Node α} {g : Nat} (h : root.calledBody? g = some n) :
    n ∈ root.subtrees := by
  rcases calledBody?_mem h with ⟨-, rfl⟩ | ⟨-, m, hm, hcaptured⟩
  · exact self_mem_subtrees _
  · exact captured?_body_mem hm hcaptured

/-- Rebuilding a tree node by node rebuilds what its calls run. -/
theorem calledBody?_rebuild {f : Node α → Node β} (hf : ∀ n, (f n).children = n.children.map f)
    (hcaptured : ∀ n, (f n).captured? = n.captured?.map fun b => (b.1, f b.2)) (root : Node α)
    (g : Nat) : (f root).calledBody? g = (root.calledBody? g).map f := by
  unfold calledBody?
  split
  · rfl
  · rw [subtrees_rebuild hf, ← Array.findSome?_toList, ← Array.findSome?_toList, Array.toList_map]
    induction root.subtrees.toList with
    | nil => rfl
    | cons n ns ih =>
      rw [List.map_cons, List.findSome?_cons, List.findSome?_cons, hcaptured]
      cases n.captured? with
      | none => exact ih
      | some b =>
        simp only [Option.map_some, Option.filter_some]
        cases b.1 == g with
        | true => rfl
        | false => exact ih

/-- Where a value is wanted that only one element gives, that one is found. -/
theorem findSome?_unique {γ δ : Type} {f : γ → Option δ} {xs : List γ} {x : γ} {y : δ}
    (hx : x ∈ xs) (hy : f x = some y) (h : ∀ z ∈ xs, ∀ w, f z = some w → w = y) :
    xs.findSome? f = some y := by
  cases hfind : xs.findSome? f with
  | none => exact absurd hy (by simp [List.findSome?_eq_none_iff.mp hfind x hx])
  | some w =>
    obtain ⟨z, hz, hw⟩ := List.exists_of_findSome?_eq_some hfind
    rw [h z hz w hw]

/-- Elements of a list that are given the same value are the same if no value is given twice. -/
theorem eq_of_filterMap_nodup {γ δ : Type} {f : γ → Option δ} {xs : List γ}
    (h : (xs.filterMap f).Nodup) {x y : γ} (hx : x ∈ xs) (hy : y ∈ xs) {v : δ} (hfx : f x = some v)
    (hfy : f y = some v) : x = y := by
  induction xs with
  | nil => cases hx
  | cons z zs ih =>
    have hmem : ∀ w ∈ zs, f w = some v → v ∈ zs.filterMap f := fun w hw hfw =>
      List.mem_filterMap.mpr ⟨w, hw, hfw⟩
    have htail : (zs.filterMap f).Nodup := by
      cases hz : f z with
      | none => rwa [List.filterMap_cons_none hz] at h
      | some w => exact (List.nodup_cons.mp (List.filterMap_cons_some hz ▸ h)).2
    have hhead : f z = some v → v ∉ zs.filterMap f := fun hz =>
      (List.nodup_cons.mp (List.filterMap_cons_some hz ▸ h)).1
    rcases List.mem_cons.mp hx with rfl | hx' <;> rcases List.mem_cons.mp hy with rfl | hy'
    · rfl
    · exact absurd (hmem y hy' hfy) (hhead hfx)
    · exact absurd (hmem x hx' hfx) (hhead hfy)
    · exact ih htail hx' hy'

/-- A call of a group runs the body of its only definition. -/
theorem Distinct.calledBody?_eq {root n body : Node α} {g : Nat} (h : root.Distinct)
    (hn : n ∈ root.subtrees) (hg : n.captured? = some (g, body)) :
    root.calledBody? g = some body := by
  have hmem : g ∈ root.groupNumbers := mem_groupNumbers.mpr ⟨n, hn, number?_of_captured hg⟩
  have hpos := h.pos g hmem
  rw [calledBody?, if_neg (by omega), ← Array.findSome?_toList,
    findSome?_unique (x := n) (y := (g, body)) (Array.mem_toList_iff.mpr hn)]
  · rfl
  · rw [hg]
    simp [Option.filter]
  · intro m hm w hw
    obtain ⟨hcaptured, hgw⟩ := Option.filter_eq_some_iff.mp hw
    obtain ⟨k, b⟩ := w
    obtain rfl : k = g := by simpa using hgw
    have : m = n := eq_of_filterMap_nodup h.nodup hm (Array.mem_toList_iff.mpr hn)
      (number?_of_captured hcaptured) (number?_of_captured hg)
    subst this
    exact Option.some.inj (hcaptured.symm.trans hg)

end Node

/-! ## Groups that match where their bodies do -/

namespace Reading
variable {rd : Reading} {α : Type} {calls : Nat → Extent}

/-- The reading in which groups are not called where they stand. -/
def inline (rd : Reading) : Reading := { rd with called := fun _ => false }

/-- The calls of the groups in a tree match where their bodies there do. -/
def OwnBodies (rd : Reading) (calls : Nat → Extent) (n : Node α) : Prop :=
  ∀ m ∈ n.subtrees, ∀ g body, m.captured? = some (g, body) →
    ∀ p q, calls g p q → rd.extent calls body p q

theorem OwnBodies.child {n c : Node α} (h : rd.OwnBodies calls n) (hc : c ∈ n.children) :
    rd.OwnBodies calls c := fun m hm =>
  h m (Node.mem_subtrees.mpr (Or.inr ⟨c, hc, hm⟩))

mutual

/-- What matches where groups are called matches where they stand for their bodies. -/
theorem extent_inline :
    ∀ n : Node α, rd.OwnBodies calls n → ∀ p q, rd.extent calls n p q →
      rd.inline.extent calls n p q
  | .atom _ a, _, _, _, h => h
  | .repeated _ _ _ body, hown, _, _, h =>
    Extent.atLeast_mono (extent_inline body (hown.child (List.mem_singleton.mpr rfl))) h
  | .group _ (.capture g _) body, hown, p, q, h => by
    have hbody := extent_inline body (hown.child (List.mem_singleton.mpr rfl)) p q
    simp only [extent] at h ⊢
    split at h
    · exact hbody (hown _ (Node.self_mem_subtrees _) g body rfl p q h)
    · exact hbody h
  | .group _ .plain body, hown, p, q, h =>
    extent_inline body (hown.child (List.mem_singleton.mpr rfl)) p q h
  | .group _ .atomic body, hown, p, q, h =>
    extent_inline body (hown.child (List.mem_singleton.mpr rfl)) p q h
  | .group _ .absent _, _, _, _, h => h
  | .conditional _ _ _ yes none, hown, p, q, h =>
    h.imp (extent_inline yes (hown.child (by simp [Node.children])) p q) id
  | .conditional _ _ _ yes (some no), hown, p, q, h =>
    h.imp (extent_inline yes (hown.child (by simp [Node.children])) p q)
      (extent_inline no (hown.child (by simp [Node.children])) p q)
  | .look _ _ _, _, _, _, h => h
  | .sequence _ items, hown, p, q, h =>
    extentAll_inline items (fun _ hc => hown.child hc) p q h
  | .alternation _ [], _, _, _, h => h
  | .alternation _ (n :: ns), hown, p, q, h =>
    h.imp (extent_inline n (hown.child (by simp [Node.children])) p q)
      (extentSome_inline ns (fun c hc => hown.child (List.mem_cons_of_mem _ hc)) p q)

theorem extentAll_inline :
    ∀ ns : List (Node α), (∀ n ∈ ns, rd.OwnBodies calls n) → ∀ p q, rd.extentAll calls ns p q →
      rd.inline.extentAll calls ns p q
  | [], _, _, _, h => h
  | n :: ns, hown, _, _, h =>
    Extent.andThen_mono (extent_inline n (hown n (by simp)))
      (extentAll_inline ns fun c hc => hown c (List.mem_cons_of_mem _ hc)) h

theorem extentSome_inline :
    ∀ ns : List (Node α), (∀ n ∈ ns, rd.OwnBodies calls n) → ∀ p q, rd.extentSome calls ns p q →
      rd.inline.extentSome calls ns p q
  | [], _, _, _, h => h
  | n :: ns, hown, p, q, h =>
    h.imp (extent_inline n (hown n (by simp)) p q)
      (extentSome_inline ns (fun c hc => hown c (List.mem_cons_of_mem _ hc)) p q)

end

/-- Where no group is defined twice, calls match where the bodies of their groups do. -/
theorem distinct_ownBodies {root n : Node α} (h : root.Distinct) (rd : Reading)
    (hn : n ∈ root.subtrees) : rd.OwnBodies (rd.callExtent root.calledBody?) n := by
  intro m hm g body hg p q hc
  obtain ⟨body', hbody', hext⟩ := callExtent_body hc
  rw [h.calledBody?_eq (Node.subtrees_trans hm hn) hg] at hbody'
  cases hbody'
  exact hext

end Reading

/-! ## Patterns -/

/-- Whether no group number is defined twice in a pattern, if it can be read at all. -/
def Pattern.definesOnce (s : Pattern.Setting) (options : Options) (properties : PropertyRegistry) :
    Bool :=
  match s.dialect.effectiveOptions options with
  | .error _ => true
  | .ok o =>
    match (Pattern.parse s o properties).1 with
    | .error _ => true
    | .ok t => decide t.root.groupNumbers.Nodup

theorem Pattern.definesOnce_root {s : Pattern.Setting} {options o : Options}
    {properties : PropertyRegistry} {t : PatternTree Span}
    (h : Pattern.definesOnce s options properties = true)
    (ho : s.dialect.effectiveOptions options = .ok o)
    (ht : (Pattern.parse s o properties).1 = .ok t) : t.root.Distinct := by
  simp only [definesOnce, ho, ht, decide_eq_true_eq] at h
  exact ⟨h, fun g hg => (Pattern.parse_groupNumbers ht g hg).1⟩

/-- The analyzed tree of such a pattern defines no group twice either. -/
theorem Pattern.definesOnce_distinct {s : Pattern.Setting} {options o : Options}
    {properties : PropertyRegistry} {t : PatternTree Span} {a : Analyzed}
    (h : Pattern.definesOnce s options properties = true)
    (ho : s.dialect.effectiveOptions options = .ok o)
    (ht : (Pattern.parse s o properties).1 = .ok t)
    (ha : Analyzed.ofTree s.dialect s.encoding t = .ok a) : a.tree.root.Distinct := by
  have hroot := definesOnce_root h ho ht
  have hnumbers := Analyzed.ofTree_groupNumbers ha
  exact ⟨hnumbers ▸ hroot.nodup, hnumbers ▸ hroot.pos⟩

end RegexMachine
