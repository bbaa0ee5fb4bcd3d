import Mathlib.Algebra.GroupWithZero.Nat
import Mathlib.Algebra.Order.BigOperators.Group.List
import Mathlib.Algebra.Order.Group.Nat
import Mathlib.Logic.Relation
import RegexMachine.Proofs.CallSites
import RegexMachine.Proofs.Definitions

/-!
Calls that come early. The analysis searches the graph of the calls that groups make before they have
consumed anything, and lets no pattern pass in which a group comes back to itself that way. No cycle of
calls is left then, not even one that goes through groups which are called where they are defined.
-/
namespace RegexMachine

theorem sum_map_add_le {α : Type} {f h : α → Nat} {l : List α} (hle : ∀ x ∈ l, f x ≤ h x) {x : α}
    (hx : x ∈ l) {d : Nat} (hd : f x + d ≤ h x) : (l.map f).sum + d ≤ (l.map h).sum := by
  induction l with
  | nil => cases hx
  | cons y l ih =>
    have hy := hle y (by simp)
    have hys := List.sum_le_sum fun z hz => hle z (List.mem_cons_of_mem y hz)
    simp only [List.map_cons, List.sum_cons]
    rcases List.mem_cons.mp hx with rfl | hx
    · omega
    · have := ih (fun z hz => hle z (List.mem_cons_of_mem _ hz)) hx
      omega

theorem le_sum_map {α : Type} {f : α → Nat} {l : List α} {x : α} (hx : x ∈ l) :
    f x ≤ (l.map f).sum :=
  List.single_le_sum (fun _ _ => Nat.zero_le _) _ (List.mem_map_of_mem hx)

/-- A part has fewer nodes than the whole. -/
theorem Node.subtrees_size_child {α : Type} {n c : Node α} (hc : c ∈ n.children) :
    c.subtrees.size < n.subtrees.size := by
  have hpart := le_sum_map (f := fun c : Node α => c.subtrees.toList.length) hc
  have hwhole := congrArg List.length (subtrees_toList n)
  rw [List.length_cons, List.length_flatMap] at hwhole
  simp only [Array.length_toList] at hpart hwhole
  omega

theorem Node.subtrees_size_le {α : Type} {m n : Node α} (h : m ∈ n.subtrees) :
    m.subtrees.size ≤ n.subtrees.size := by
  induction n using Node.induction with
  | step n ih =>
    rcases mem_subtrees.mp h with rfl | ⟨c, hc, h⟩
    · exact Nat.le_refl _
    · exact Nat.le_of_lt (Nat.lt_of_le_of_lt (ih c hc h) (subtrees_size_child hc))

namespace CallGraph
open Relation

/-! ## The search -/

/-- One group is among the callees of another. -/
def Steps (es : Edges) (g k : Nat) : Prop := k ∈ es.getD g []

/-- What a search has still to visit, at most. -/
def pending (es : Edges) (todo : List Nat) (seen : Array Bool) : Nat :=
  todo.length +
    ((List.range es.size).map fun g => if seen.getD g true then 0 else (es.getD g []).length).sum

variable {es : Edges} {goal g k n : Nat} {todo : List Nat} {seen : Array Bool}

theorem lt_of_unseen (hg : seen.getD g true = false) : g < seen.size := by
  by_contra hlt
  simp [Nat.le_of_not_lt hlt] at hg

/-- A group that is visited adds its callees and takes them off what is pending. -/
theorem pending_visit (hsize : seen.size = es.size) (hg : seen.getD g true = false)
    (rest : List Nat) :
    pending es (es.getD g [] ++ rest) (seen.setIfInBounds g true) < pending es (g :: rest) seen := by
  have hsum := sum_map_add_le
    (f := fun k => if (seen.setIfInBounds g true).getD k true then 0 else (es.getD k []).length)
    (h := fun k => if seen.getD k true then 0 else (es.getD k []).length)
    (l := List.range es.size) (x := g) (d := (es.getD g []).length)
    (fun k _ => by
      rw [getD_marked]
      cases seen.getD k true with
      | true => exact Nat.le_refl _
      | false =>
        split
        · exact Nat.zero_le _
        · exact Nat.le_refl _)
    (List.mem_range.mpr (hsize ▸ lt_of_unseen hg))
    (by simp only [getD_marked, hg, beq_self_eq_true, Bool.or_true, if_true, Bool.false_eq_true,
      if_false, Nat.zero_add, Nat.le_refl])
  simp only [pending, List.length_append, List.length_cons]
  omega

/-- A search that finds nothing stays among groups that call only each other, and what it looks for
is not one of them. -/
theorem search_false :
    ∀ (n : Nat) (todo : List Nat) (seen : Array Bool), seen.size = es.size →
      pending es todo seen < n →
      (∀ g k, seen.getD g true = true → Steps es g k → k ∈ todo ∨ seen.getD k true = true) →
      seen.getD goal true = false → search es goal todo seen n = false →
      ∃ S : Nat → Prop, (∀ k ∈ todo, S k) ∧ (∀ k, seen.getD k true = true → S k) ∧
        (∀ g k, S g → Steps es g k → S k) ∧ ¬ S goal := by
  intro n
  induction n with
  | zero => exact fun _ _ _ h => absurd h (Nat.not_lt_zero _)
  | succ n ih =>
    intro todo seen hsize hpending hclosed hunseen hsearch
    cases todo with
    | nil =>
      refine ⟨fun k => seen.getD k true = true, nofun, fun _ h => h, fun g k hg hk => ?_, ?_⟩
      · exact (hclosed g k hg hk).resolve_left List.not_mem_nil
      · simp [hunseen]
    | cons g rest =>
      rw [search] at hsearch
      cases hfound : g == goal with
      | true => simp [hfound] at hsearch
      | false =>
        simp only [hfound, Bool.false_eq_true, if_false] at hsearch
        cases hseen : seen.getD g true with
        | true =>
          rw [if_pos hseen] at hsearch
          have hless : pending es rest seen < pending es (g :: rest) seen := by
            simp only [pending, List.length_cons]
            omega
          obtain ⟨S, htodo, hall, hS⟩ := ih rest seen hsize (by omega)
            (fun x k hx hk => (hclosed x k hx hk).elim
              (fun h => (List.mem_cons.mp h).elim (fun h => Or.inr (h ▸ hseen)) Or.inl) Or.inr)
            hunseen hsearch
          exact ⟨S, List.forall_mem_cons.mpr ⟨hall g hseen, htodo⟩, hall, hS⟩
        | false =>
          rw [if_neg (by simp [hseen])] at hsearch
          have hless := pending_visit hsize hseen rest
          have hvisited : (seen.setIfInBounds g true).getD g true = true := by
            rw [getD_marked, beq_self_eq_true, Bool.or_true]
          have hkeep {k : Nat} (h : seen.getD k true = true) :
              (seen.setIfInBounds g true).getD k true = true := by
            rw [getD_marked, h, Bool.true_or]
          obtain ⟨S, htodo, hall, hS⟩ := ih _ _ (by rwa [Array.size_setIfInBounds]) (by omega)
            (fun x k hx hk => by
              rw [getD_marked, Bool.or_eq_true, beq_iff_eq] at hx
              rcases hx with hx | rfl
              · rcases hclosed x k hx hk with hk | hk
                · rcases List.mem_cons.mp hk with rfl | hk
                  · exact Or.inr hvisited
                  · exact Or.inl (List.mem_append_right _ hk)
                · exact Or.inr (hkeep hk)
              · exact Or.inl (List.mem_append_left _ hk))
            (by rw [getD_marked, hunseen, Bool.false_or, BEq.comm, hfound])
            hsearch
          exact ⟨S, List.forall_mem_cons.mpr
            ⟨hall g hvisited, fun k hk => htodo k (List.mem_append_right _ hk)⟩,
            fun k hk => hall k (hkeep hk), hS⟩

theorem steps_lt (h : Steps es g k) : g < es.size := by
  by_contra hlt
  simp [Steps, Nat.le_of_not_lt hlt] at h

theorem foldl_length (es : Edges) :
    es.foldl (fun n cs => n + cs.length) 0 =
      ((List.range es.size).map fun g => (es.getD g []).length).sum := by
  have hlist : es.toList = (List.range es.size).map fun g => es.getD g [] :=
    List.ext_getElem (by simp) fun i hi hi' => by simp at hi; simp [hi]
  have hfold : ∀ (xs : List (List Nat)) (n : Nat),
      xs.foldl (fun n cs => n + cs.length) n = n + (xs.map List.length).sum := by
    intro xs
    induction xs with
    | nil => simp
    | cons x xs ih => intro n; simp [ih, Nat.add_assoc]
  rw [← Array.foldl_toList, hfold, hlist, Nat.zero_add, List.map_map]
  rfl

/-- The visits that are allowed are enough. -/
theorem not_reaches (h : reachesItself es g = false) : ¬ TransGen (Steps es) g g := by
  intro hcycle
  obtain ⟨k, hk, hback⟩ := TransGen.head'_iff.mp hcycle
  have hlt := steps_lt hk
  unfold reachesItself at h
  split at h
  · rename_i hnone
    rw [Steps, hnone] at hk
    cases hk
  · have hunseen {x : Nat} (hx : (Array.replicate es.size false).getD x true = true) :
        ¬ x < es.size := by
      intro hx'
      rw [Array.getD_eq_getD_getElem?, Array.getElem?_replicate, if_pos hx'] at hx
      cases hx
    have hpending : pending es (es.getD g []) (Array.replicate es.size false) <
        2 * es.foldl (fun n cs => n + cs.length) 0 + 1 := by
      have hall : ((List.range es.size).map fun g =>
            if (Array.replicate es.size false).getD g true then 0 else (es.getD g []).length).sum ≤
          ((List.range es.size).map fun g => (es.getD g []).length).sum :=
        List.sum_le_sum fun x _ => by split <;> omega
      have hfirst := le_sum_map (f := fun g => (es.getD g []).length) (List.mem_range.mpr hlt)
      rw [foldl_length, pending]
      omega
    obtain ⟨S, htodo, -, hclosed, hgoal⟩ := search_false _ _ _ (by simp) hpending
      (fun x k hx hk => absurd (steps_lt hk) (hunseen hx))
      (Bool.eq_false_iff.mpr fun hx => hunseen hx hlt) h
    have hstay : ∀ {x y}, ReflTransGen (Steps es) x y → S x → S y := fun hpath hx => by
      induction hpath with
      | refl => exact hx
      | tail _ hstep ih => exact hclosed _ _ ih hstep
    exact hgoal (hstay hback (htodo k hk))

/-! ## Bodies of groups -/

variable {root : Node Measured} {size captures : Nat}

/-- Bodies that calls run, one at least for every group that is known to have one. -/
structure Found.Sound (root : Node Measured) (size : Nat) (f : Found) : Prop where
  runs : ∀ b ∈ f.bodies, root.calledBody? b.group = some b.node
  known : ∀ g < size, f.known.getD g true = true → ∃ b ∈ f.bodies, b.group = g
  size_eq : f.known.size = size

theorem Found.Sound.add {f : Found} (h : f.Sound root size) (hroot : root.Distinct)
    {n : Node Measured} (hn : n ∈ root.subtrees) : (f.add n).Sound root size := by
  unfold Found.add
  split
  · rename_i note g name body
    split
    · exact h
    · refine ⟨List.forall_mem_cons.mpr ⟨hroot.calledBody?_eq hn rfl, h.runs⟩, fun k hk hknown => ?_,
        by rw [Array.size_setIfInBounds, h.size_eq]⟩
      rw [getD_marked, Bool.or_eq_true, beq_iff_eq] at hknown
      rcases hknown with hknown | rfl
      · obtain ⟨b, hb, hbk⟩ := h.known k hk hknown
        exact ⟨b, List.mem_cons_of_mem _ hb, hbk⟩
      · exact ⟨_, List.mem_cons_self, rfl⟩
  · exact h

theorem Found.add_known {f : Found} {n : Node Measured}
    (h : f.known.getD g true = true ∨ n.number? = some g) : (f.add n).known.getD g true = true := by
  unfold Found.add
  split
  · rename_i note k name body
    split
    · rcases h with h | h
      · exact h
      · cases h
        assumption
    · rw [getD_marked, Bool.or_eq_true, beq_iff_eq]
      exact h.imp_right fun h => (Option.some.inj h).symm
  · rename_i hn
    refine h.resolve_right fun h => ?_
    obtain ⟨⟨k, body⟩, hcaptured, -⟩ := Option.map_eq_some_iff.mp h
    obtain ⟨note, name, rfl⟩ := Node.captured?_some hcaptured
    exact hn _ _ _ _ rfl

/-- What is found for the groups of a tree, and that nothing is left out. -/
theorem bodies_sound (hroot : root.Distinct) :
    (∀ b ∈ bodies root size, root.calledBody? b.group = some b.node) ∧
      ∀ g < size, (root.calledBody? g).isSome = true → ∃ b ∈ bodies root size, b.group = g := by
  have hfold : ∀ (ns : List (Node Measured)) (f : Found), (∀ n ∈ ns, n ∈ root.subtrees) →
      f.Sound root size → (ns.foldl Found.add f).Sound root size ∧
        ∀ g, f.known.getD g true = true ∨ (∃ n ∈ ns, n.number? = some g) →
          (ns.foldl Found.add f).known.getD g true = true := by
    intro ns
    induction ns with
    | nil => exact fun f _ h => ⟨h, fun g hg => hg.resolve_right nofun⟩
    | cons n ns ih =>
      intro f hns h
      obtain ⟨hsound, hknown⟩ := ih (f.add n) (fun m hm => hns m (List.mem_cons_of_mem _ hm))
        (h.add hroot (hns n List.mem_cons_self))
      refine ⟨hsound, fun g hg => hknown g ?_⟩
      rcases hg with hg | ⟨m, hm, hg⟩
      · exact Or.inl (Found.add_known (Or.inl hg))
      · rcases List.mem_cons.mp hm with rfl | hm
        · exact Or.inl (Found.add_known (Or.inr hg))
        · exact Or.inr ⟨m, hm, hg⟩
  have hwhole : Found.Sound root size
      ⟨[⟨0, root, root.span⟩], (Array.replicate size false).setIfInBounds 0 true⟩ := by
    refine ⟨List.forall_mem_cons.mpr ⟨rfl, nofun⟩, fun g hg hknown => ⟨_, List.mem_cons_self, ?_⟩,
      by simp⟩
    rw [getD_marked, Bool.or_eq_true, beq_iff_eq] at hknown
    refine (hknown.resolve_left fun h => ?_).symm
    rw [Array.getD_eq_getD_getElem?, Array.getElem?_replicate, if_pos hg] at h
    cases h
  obtain ⟨hsound, hknown⟩ := hfold root.subtrees.toList _ (fun n hn => Array.mem_toList_iff.mp hn) hwhole
  have hbodies : bodies root size = (root.subtrees.toList.foldl Found.add
      ⟨[⟨0, root, root.span⟩], (Array.replicate size false).setIfInBounds 0 true⟩).bodies.reverse := by
    rw [Array.foldl_toList]
    rfl
  rw [hbodies]
  refine ⟨fun b hb => hsound.runs b (List.mem_reverse.mp hb), fun g hg hbody => ?_⟩
  obtain ⟨body, hbody⟩ := Option.isSome_iff_exists.mp hbody
  have hmet : ((Array.replicate size false).setIfInBounds 0 true).getD g true = true ∨
      ∃ n ∈ root.subtrees.toList, n.number? = some g := by
    rcases Node.calledBody?_mem hbody with ⟨rfl, -⟩ | ⟨-, m, hm, hcaptured⟩
    · exact Or.inl (by rw [getD_marked, beq_self_eq_true, Bool.or_true])
    · exact Or.inr ⟨m, Array.mem_toList_iff.mpr hm, Node.number?_of_captured hcaptured⟩
  obtain ⟨b, hb, hbg⟩ := hsound.known g hg (hknown g hmet)
  exact ⟨b, List.mem_reverse.mpr hb, hbg⟩

/-- The callees of a group are those of its body. -/
theorem edges_getD {f : Node Measured → List Nat} {bs : List Body} {cs : List Nat} (hlt : g < size)
    (hmem : ∃ b ∈ bs, b.group = g) (hbs : ∀ b ∈ bs, b.group = g → f b.node = cs) :
    (edges bs size f).getD g [] = cs := by
  have hfold : ∀ (bs : List Body) (es : Edges), es.size = size →
      (∀ b ∈ bs, b.group = g → f b.node = cs) →
      (∃ b ∈ bs, b.group = g) ∨ es.getD g [] = cs →
      (bs.foldl (fun es b => es.setIfInBounds b.group (f b.node)) es).getD g [] = cs := by
    intro bs
    induction bs with
    | nil => exact fun es _ _ h => h.resolve_left nofun
    | cons b bs ih =>
      intro es hsize hbs h
      refine ih _ (by rwa [Array.size_setIfInBounds])
        (fun b hb => hbs b (List.mem_cons_of_mem _ hb)) ?_
      rw [getD_setIfInBounds]
      by_cases hb : b.group = g
      · rw [if_pos ⟨hb, by omega⟩]
        exact Or.inr (hbs b List.mem_cons_self hb)
      · rw [if_neg fun h => hb h.1]
        refine h.imp_left ?_
        rintro ⟨c, hc, hcg⟩
        rcases List.mem_cons.mp hc with rfl | hc
        · exact absurd hcg hb
        · exact ⟨c, hc, hcg⟩
  exact hfold bs _ (by simp) hbs (Or.inl hmem)

theorem checkProgress_ok {bs : List Body} (h : checkProgress bs size = .ok ()) :
    ∀ b ∈ bs, reachesItself (edges bs size (earlyCalls [])) b.group = false := by
  unfold checkProgress rejectBody at h
  dsimp only at h
  split at h
  · cases h
  · rename_i hnone
    exact fun b hb => Bool.eq_false_iff.mpr (List.find?_eq_none.mp hnone b hb)

/-! ## Early calls -/

theorem exists_of_earlyCallsUntil {ns : List (Node Measured)} (h : k ∈ earlyCallsUntil [] ns) :
    ∃ n ∈ ns, k ∈ earlyCalls [] n := by
  induction ns with
  | nil => cases h
  | cons n ns ih =>
    rw [earlyCallsUntil] at h
    split at h
    · exact ⟨n, List.mem_cons_self, h⟩
    · rcases (mem_earlyCallsUntil ns _).mp h with h | h
      · obtain ⟨m, hm, h⟩ := ih h
        exact ⟨m, List.mem_cons_of_mem _ hm, h⟩
      · exact ⟨n, List.mem_cons_self, h⟩

theorem exists_of_earlyCallsAll {ns : List (Node Measured)} (h : k ∈ earlyCallsAll [] ns) :
    ∃ n ∈ ns, k ∈ earlyCalls [] n := by
  induction ns with
  | nil => cases h
  | cons n ns ih =>
    rw [earlyCallsAll] at h
    rcases (mem_earlyCallsAll ns _).mp h with h | h
    · obtain ⟨m, hm, h⟩ := ih h
      exact ⟨m, List.mem_cons_of_mem _ hm, h⟩
    · exact ⟨n, List.mem_cons_self, h⟩

/-- Only calls are called early, and those of parts. -/
theorem earlyCalls_cases {n : Node Measured} (h : k ∈ earlyCalls [] n) :
    n.callee? = some k ∨ ∃ c ∈ n.children, k ∈ earlyCalls [] c := by
  cases n with
  | atom note a =>
    cases a with
    | call t g => exact Or.inl (congrArg some (List.mem_singleton.mp h).symm)
    | _ => cases h
  | repeated note b mode body =>
    unfold earlyCalls at h
    split at h
    · cases h
    · exact Or.inr ⟨body, List.mem_singleton.mpr rfl, h⟩
  | conditional note t gs yes no =>
    refine Or.inr ?_
    rcases (mem_earlyCallsOption no _).mp h with h | h
    · cases no with
      | none => cases h
      | some n => exact ⟨n, by simp [Node.children], h⟩
    · exact ⟨yes, by simp [Node.children], h⟩
  | sequence note items => exact Or.inr (exists_of_earlyCallsUntil h)
  | alternation note branches => exact Or.inr (exists_of_earlyCallsAll h)
  | _ => exact Or.inr ⟨_, List.mem_singleton.mpr rfl, h⟩

theorem earlyCalls_callees {n : Node Measured} : k ∈ earlyCalls [] n → k ∈ n.callees := by
  induction n using Node.induction with
  | step n ih =>
    intro h
    rcases earlyCalls_cases h with h | ⟨c, hc, h⟩
    · exact List.mem_filterMap.mpr ⟨n, Array.mem_toList_iff.mpr (Node.self_mem_subtrees n), h⟩
    · exact Node.callees_subset (Node.child_mem_subtrees hc) k (ih c hc h)

/-- A group has a call of another group that comes before it consumes anything. -/
def Calls (root : Node Measured) (g k : Nat) : Prop :=
  ∃ body, root.calledBody? g = some body ∧ k ∈ earlyCalls [] body

/-- In a tree that has passed the analysis, no group comes back to itself by such calls. -/
theorem ofTree_progress {c : CallGraph} (h : ofTree root captures = .ok c) (hroot : root.Distinct)
    (hle : ∀ g ∈ root.groupNumbers, g ≤ captures) (g : Nat) : ¬ TransGen (Calls root) g g := by
  intro hcycle
  obtain ⟨k, ⟨body, hbody, hk⟩, -⟩ := TransGen.head'_iff.mp hcycle
  have hcallees : root.callees ≠ [] :=
    List.ne_nil_of_mem (Node.callees_subset (Node.calledBody?_mem_subtrees hbody) k (earlyCalls_callees hk))
  have hprogress := ((ofTree_ok h).2 hcallees).2
  obtain ⟨hruns, hall⟩ := @bodies_sound root (captures + 1) hroot
  have hlt {x : Nat} {n : Node Measured} (hn : root.calledBody? x = some n) : x < captures + 1 := by
    rcases Node.calledBody?_mem hn with ⟨rfl, -⟩ | ⟨-, m, hm, hcaptured⟩
    · exact Nat.succ_pos _
    · exact Nat.lt_succ_of_le
        (hle x (Node.mem_groupNumbers.mpr ⟨m, hm, Node.number?_of_captured hcaptured⟩))
  have hsteps : ∀ {x y}, Calls root x y →
      Steps (edges (bodies root (captures + 1)) (captures + 1) (earlyCalls [])) x y := by
    rintro x y ⟨n, hn, hy⟩
    rw [Steps, edges_getD (hlt hn) (hall x (hlt hn) (Option.isSome_of_eq_some hn))]
    · exact hy
    · intro b hb hbx
      have := hruns b hb
      rw [hbx, hn] at this
      rw [Option.some.inj this]
  obtain ⟨b, hb, rfl⟩ := hall g (hlt hbody) (Option.isSome_of_eq_some hbody)
  exact not_reaches (checkProgress_ok hprogress b hb) (TransGen.mono (fun _ _ => hsteps) _ _ hcycle)

/-! ## Marked trees -/

section
variable (c : CallGraph)
open Analyzed

mutual

/-- The facts that the analysis adds to a tree change no calls. -/
theorem earlyCalls_mark :
    ∀ (n : Node Measured) (acc : List Nat), earlyCalls acc (mark c n) = earlyCalls acc n
  | .atom _ _, _ => rfl
  | .repeated _ b _ body, acc => by
    simp only [mark, earlyCalls, earlyCalls_mark body acc]
  | .group _ (.capture _ _) body, acc => earlyCalls_mark body acc
  | .group _ .plain body, acc => earlyCalls_mark body acc
  | .group _ .atomic body, acc => earlyCalls_mark body acc
  | .group _ .absent body, acc => earlyCalls_mark body acc
  | .conditional _ _ _ yes no, acc => by
    simp only [mark, earlyCalls, earlyCalls_mark yes acc, earlyCallsOption_mark no]
  | .look _ _ body, acc => earlyCalls_mark body acc
  | .sequence _ items, acc => by
    rw [mark, markAll_eq]
    exact earlyCallsUntil_mark items acc
  | .alternation _ branches, acc => by
    rw [mark, markAll_eq]
    exact earlyCallsAll_mark branches acc

theorem earlyCallsOption_mark : ∀ (no : Option (Node Measured)) (acc : List Nat),
    earlyCallsOption acc (markOption c no) = earlyCallsOption acc no
  | none, _ => rfl
  | some n, acc => earlyCalls_mark n acc

theorem earlyCallsUntil_mark : ∀ (ns : List (Node Measured)) (acc : List Nat),
    earlyCallsUntil acc (ns.map (mark c)) = earlyCallsUntil acc ns
  | [], _ => rfl
  | n :: ns, acc => by
    simp only [List.map_cons, earlyCallsUntil, mark_minChars, earlyCalls_mark n acc,
      earlyCallsUntil_mark ns]

theorem earlyCallsAll_mark : ∀ (ns : List (Node Measured)) (acc : List Nat),
    earlyCallsAll acc (ns.map (mark c)) = earlyCallsAll acc ns
  | [], _ => rfl
  | n :: ns, acc => by
    simp only [List.map_cons, earlyCallsAll, earlyCalls_mark n acc, earlyCallsAll_mark ns]

end

theorem captured?_mark (n : Node Measured) :
    (mark c n).captured? = n.captured?.map fun b => (b.1, mark c b.2) := by
  cases n with
  | group note k body => cases k <;> rfl
  | _ => rfl

theorem calledBody?_mark (root : Node Measured) (g : Nat) :
    (mark c root).calledBody? g = (root.calledBody? g).map (mark c) :=
  Node.calledBody?_rebuild (children_mark c) (captured?_mark c) root g

theorem calls_mark {g k : Nat} (h : Calls (mark c root) g k) : Calls root g k := by
  obtain ⟨body, hbody, hk⟩ := h
  rw [calledBody?_mark, Option.map_eq_some_iff] at hbody
  obtain ⟨n, hn, rfl⟩ := hbody
  exact ⟨n, hn, by rwa [earlyCalls_mark] at hk⟩

end

/-! ## Groups called where they are defined -/

/-- A group is entered again, by a call or where it is defined, before another has consumed
anything. -/
def Early (root : Node Measured) (g k : Nat) : Prop :=
  ∃ n, root.calledBody? g = some n ∧ n.CallsEarly k

/-- A group is defined within another and calls nothing early that the other does not. -/
def Within (root : Node Measured) (g k : Nat) : Prop :=
  ∃ n m, root.calledBody? g = some n ∧ root.calledBody? k = some m ∧
    m.subtrees.size < n.subtrees.size ∧ ∀ j ∈ earlyCalls [] m, j ∈ earlyCalls [] n

theorem Within.trans {g k j : Nat} (h : Within root g k) (h' : Within root k j) : Within root g j := by
  obtain ⟨n, m, hn, hm, hlt, hsub⟩ := h
  obtain ⟨m', o, hm', ho, hlt', hsub'⟩ := h'
  obtain rfl := Option.some.inj (hm.symm.trans hm')
  exact ⟨n, o, hn, ho, Nat.lt_trans hlt' hlt, fun i hi => hsub i (hsub' i hi)⟩

theorem Within.irrefl : ¬ Within root g g := by
  rintro ⟨n, m, hn, hm, hlt, -⟩
  obtain rfl := Option.some.inj (hn.symm.trans hm)
  exact Nat.lt_irrefl _ hlt

/-- What is called early within a group the group calls early. -/
theorem Within.calls {g k j : Nat} (h : Within root g k) (hcall : Calls root k j) : Calls root g j := by
  obtain ⟨n, m, hn, hm, -, hsub⟩ := h
  obtain ⟨m', hm', hj⟩ := hcall
  obtain rfl := Option.some.inj (hm.symm.trans hm')
  exact ⟨n, hn, hsub j hj⟩

theorem Early.cases {g k : Nat} (hroot : root.Distinct) (h : Early root g k) :
    Calls root g k ∨ Within root g k := by
  obtain ⟨n, hn, hcall | ⟨m, hm, body, hcaptured, hsub⟩⟩ := h
  · exact Or.inl ⟨n, hn, hcall⟩
  · exact Or.inr ⟨n, body, hn,
      hroot.calledBody?_eq (Node.subtrees_trans hm (Node.calledBody?_mem_subtrees hn)) hcaptured,
      Nat.lt_of_lt_of_le (Node.subtrees_size_child (Node.captured?_child hcaptured))
        (Node.subtrees_size_le hm),
      hsub⟩

/-- Groups that are entered one within the other, between calls, are left out: where there is a call on
the way, the group before it makes that call itself. -/
theorem early_path {j : Nat} (hroot : root.Distinct) (h : TransGen (Early root) g j) :
    Within root g j ∨ ∃ k, TransGen (Calls root) g k ∧ (k = j ∨ Within root k j) := by
  induction h with
  | single hstep => exact (hstep.cases hroot).symm.imp_right fun h => ⟨_, .single h, Or.inl rfl⟩
  | tail _ hstep ih =>
    rcases hstep.cases hroot with hcall | hwithin
    · refine Or.inr ⟨_, ?_, Or.inl rfl⟩
      rcases ih with h | ⟨k, hk, rfl | h⟩
      · exact .single (h.calls hcall)
      · exact hk.tail hcall
      · exact hk.tail (h.calls hcall)
    · rcases ih with h | ⟨k, hk, rfl | h⟩
      · exact Or.inl (h.trans hwithin)
      · exact Or.inr ⟨_, hk, Or.inr hwithin⟩
      · exact Or.inr ⟨_, hk, Or.inr (h.trans hwithin)⟩

/-- No group is entered again before it has consumed something, whichever way. -/
theorem early_acyclic (hroot : root.Distinct) (h : ∀ g, ¬ TransGen (Calls root) g g) (g : Nat) :
    ¬ TransGen (Early root) g g := by
  intro hcycle
  rcases early_path hroot hcycle with hwithin | ⟨k, hk, rfl | hwithin⟩
  · exact hwithin.irrefl
  · exact h k hk
  · obtain ⟨j, hfirst, hrest⟩ := TransGen.head'_iff.mp hk
    exact h k (TransGen.head'_iff.mpr ⟨j, hwithin.calls hfirst, hrest⟩)

end CallGraph

/-- In a tree that has been analyzed, no group is entered again before it has consumed something. -/
theorem Analyzed.early_acyclic {d : Dialect} {e : Encoding} {t : PatternTree Span} {a : Analyzed}
    (h : ofTree d e t = .ok a) (hroot : a.tree.root.Distinct)
    (ht : ∀ g ∈ a.tree.root.groupNumbers, g ≤ t.captures) (g : Nat) :
    ¬ Relation.TransGen (CallGraph.Early a.tree.root) g g := by
  refine CallGraph.early_acyclic hroot (fun g hcycle => ?_) g
  obtain ⟨root, -, hcalls, hmark, -⟩ := ofTree_parts h
  have hnumbers : a.tree.root.groupNumbers = root.groupNumbers := by
    rw [hmark, groupNumbers_mark]
  rw [hnumbers] at ht
  rw [hmark] at hcycle
  exact CallGraph.ofTree_progress hcalls ⟨hnumbers ▸ hroot.nodup, hnumbers ▸ hroot.pos⟩ ht g
    (.mono (fun _ _ => CallGraph.calls_mark _) _ _ hcycle)

end RegexMachine
