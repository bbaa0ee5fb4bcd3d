import RegexMachine.Proofs.Apart
import RegexMachine.Proofs.Programs

/-!
How programs are put together: the main code up to the end of the match, and the subroutines of the
groups that are called, each with its groups and loops.
-/
namespace RegexMachine
open Compile

/-- What a call of a group runs: the whole pattern, or the first definition of the group. -/
def Node.calledBody? {α : Type} (root : Node α) (g : Nat) : Option (Node α) :=
  if g = 0 then some root
  else (root.subtrees.findSome? fun n => n.captured?.filter (·.1 == g)).map (·.2)

/-- The body of a group stands in the tree. -/
theorem Node.calledBody?_mem {α : Type} {root body : Node α} {g : Nat}
    (h : root.calledBody? g = some body) :
    (g = 0 ∧ body = root) ∨
      g ≠ 0 ∧ ∃ m ∈ root.subtrees, m.captured? = some (g, body) := by
  unfold calledBody? at h
  split at h
  · exact Or.inl ⟨‹_›, (Option.some.inj h).symm⟩
  · refine Or.inr ⟨‹_›, ?_⟩
    obtain ⟨⟨g', body'⟩, hfind, rfl⟩ := Option.map_eq_some_iff.mp h
    obtain ⟨m, hm, hc⟩ := Array.exists_of_findSome?_eq_some hfind
    obtain ⟨hc, hg⟩ := Option.filter_eq_some_iff.mp hc
    exact ⟨m, hm, by simpa [hc] using hg⟩

namespace Compile

variable {root : Node Measured} {g : CallGraph} {l : Layout} {i i' : Issued}

/-! ## Numbers of subroutines -/

/-- The number of a group among those that are called. -/
theorem subroutineIds_some {size : Nat} {called : List Nat} {group sub : Nat}
    (h : ((subroutineIds size called)[group]?).join = some sub) : called[sub]? = some group := by
  have key : ∀ (pairs : List (Nat × Nat)) (ids : Array (Option Nat)),
      ((pairs.foldl (fun ids (e : Nat × Nat) => ids.setIfInBounds e.1 (some e.2)) ids)[group]?).join
        = some sub → (group, sub) ∈ pairs ∨ (ids[group]?).join = some sub := by
    intro pairs
    induction pairs with
    | nil => exact fun ids h => Or.inr h
    | cons e pairs ih =>
      intro ids h
      rcases ih _ h with h | h
      · exact Or.inl (List.mem_cons_of_mem _ h)
      · rw [Array.getElem?_setIfInBounds] at h
        split at h
        · split at h
          · rename_i hg _
            simp only [Option.join_some, Option.some.injEq] at h
            exact Or.inl (by simp [← hg, ← h])
          · cases h
        · exact Or.inr h
  rcases key _ _ h with h | h
  · exact List.mem_zipIdx_iff_getElem?.mp h
  · rw [Array.getElem?_replicate] at h
    split at h <;> cases h

theorem isCalled_of_mem {group : Nat} (h : group ∈ calledGroups g) : g.isCalled group = true :=
  (List.mem_filter.mp h).2

theorem lt_of_mem_calledGroups {group : Nat} (h : group ∈ calledGroups g) :
    group < g.called.size := List.mem_range.mp (List.mem_filter.mp h).1

/-! ## Writing them -/

theorem nodeCode_grows {n : Node Measured} {peek : Option UInt8} {p : Place} {chunk : Chunk}
    (hs : l.guardDepth = 0 ∨ n.guardable = true) (h : nodeCode peek p n l i = .ok chunk i') :
    i.Grows i' :=
  let B : Built := ⟨#[], #[], #[], l, ⟨⟨#[], l.encoding, false, false⟩, 0, false⟩⟩
  (Built.nodeCode_writes B n peek hs _ _ _ _ h).1

/-- The body of a group is that of the tree, with the group opened before it and closed after it
unless it is the whole pattern. -/
theorem groupBody_ok {group : Nat} {p : Place} {chunk : Chunk}
    (h : groupBody root g group p l i = .ok chunk i') :
    ∃ body, root.calledBody? group = some body ∧
      if group = 0 then nodeCode none p body l i = .ok chunk i'
      else ∃ code last, nodeCode none (p.shift 1) body l i = .ok code i' ∧
        chunk = #[.groupStart group true] ++ code ++ #[last] ∧
        (last = .groupEnd group true ∨ last = .groupEndRecursive group) := by
  unfold groupBody at h
  unfold Node.calledBody?
  split
  · rw [if_pos ‹_›] at h
    exact ⟨root, rfl, h⟩
  · rw [if_neg ‹_›] at h
    cases hfind : root.subtrees.findSome? fun n => n.captured?.filter (·.1 == group) with
    | none =>
      rw [hfind] at h
      cases h
    | some found =>
      rw [hfind] at h
      obtain ⟨code, j, hcode, h⟩ := bind_ok h
      cases h
      refine ⟨found.2, rfl, code, _, hcode, rfl, ?_⟩
      split
      · exact Or.inr rfl
      · exact Or.inl rfl

/-- A subroutine stands in a chunk: the body of its group up to a return, with the loops that were
added for it. -/
def Written (root : Node Measured) (g : CallGraph) (l : Layout) (code : Chunk)
    (loops : Array CountedLoop) (r : Subroutine) : Prop :=
  ∃ i i' body, groupBody root g r.group (.start r.entry) l i = .ok body i' ∧
    (∀ k instr, (body.push .ret)[k]? = some instr → code[r.entry + k]? = some instr) ∧
    r.captures = groupRange (groupNode root r.group) r.group ∧
    r.loops = ⟨i.loops.size, i'.loops.size⟩ ∧ i.loops.size ≤ i'.loops.size ∧
    i'.loops.size ≤ loops.size ∧ ∀ id < i'.loops.size, loops[id]? = i'.loops[id]?

theorem Written.append {code : Chunk} {r : Subroutine} (h : Written root g l code i.loops r)
    (more : Chunk) (hgrow : i.Grows i') : Written root g l (code ++ more) i'.loops r := by
  obtain ⟨j, j', body, hbody, hstands, hcaptures, hrange, hle, hsize, hloops⟩ := h
  refine ⟨j, j', body, hbody, fun k instr hk => ?_, hcaptures, hrange, hle,
    Nat.le_trans hsize hgrow.size, fun id hid => ?_⟩
  · have := hstands k instr hk
    rwa [Array.getElem?_append_left (Array.getElem?_eq_some_iff.mp this).1]
  · rw [hgrow.loops id (Nat.lt_of_lt_of_le hid hsize), hloops id hid]

theorem addSubroutine_ok (hs : l.guardDepth = 0) {code code' : Chunk} {group : Nat}
    {r : Subroutine} (h : addSubroutine root g code group l i = .ok (code', r) i') :
    i.Grows i' ∧ (∃ more, code' = code ++ more) ∧ r.group = group ∧
      Written root g l code' i'.loops r := by
  unfold addSubroutine at h
  rw [bind_get] at h
  obtain ⟨body, j, hbody, h⟩ := bind_ok h
  rw [bind_get] at h
  split at h
  · cases h
  · cases h
    have hgrow : i.Grows i' := by
      obtain ⟨n, -, hcode⟩ := groupBody_ok hbody
      split at hcode
      · exact nodeCode_grows (Or.inl hs) hcode
      · obtain ⟨chunk, last, hcode, -⟩ := hcode
        exact nodeCode_grows (Or.inl hs) hcode
    refine ⟨hgrow, ⟨body ++ #[.ret], by rw [Array.append_assoc]⟩, rfl,
      i, i', body, hbody, fun k instr hk => ?_, rfl, rfl, hgrow.size, Nat.le_refl _,
      fun _ _ => rfl⟩
    rw [Array.append_assoc, Array.getElem?_append_right (Nat.le_add_right _ _),
      Nat.add_sub_cancel_left]
    simpa using hk

/-- The subroutines of some groups, in order. -/
theorem addSubroutines_ok {called : List Nat} (hs : called ≠ [] → l.guardDepth = 0) {code code' : Chunk}
    {subs subs' : Array Subroutine}
    (h : addSubroutines root g code subs called l i = .ok (code', subs') i') :
    i.Grows i' ∧ (∃ more, code' = code ++ more) ∧
      ∃ new : List Subroutine, subs'.toList = subs.toList ++ new ∧ new.map (·.group) = called ∧
        ∀ r ∈ new, Written root g l code' i'.loops r := by
  induction called generalizing code subs i with
  | nil =>
    cases h
    exact ⟨.refl _, ⟨#[], by simp⟩, [], by simp, rfl, nofun⟩
  | cons group rest ih =>
    obtain ⟨⟨code₁, r⟩, j, hadd, h⟩ := bind_ok h
    obtain ⟨hgrow, ⟨more, rfl⟩, hgroup, hwritten⟩ := addSubroutine_ok (hs (by simp)) hadd
    obtain ⟨hgrow', ⟨more', rfl⟩, new, hnew, hgroups, hall⟩ := ih (fun _ => hs (by simp)) h
    refine ⟨hgrow.trans hgrow', ⟨more ++ more', by rw [Array.append_assoc]⟩, r :: new, ?_, ?_, ?_⟩
    · rw [hnew, Array.toList_push, List.append_assoc]
      rfl
    · rw [List.map_cons, hgroup, hgroups]
    · intro r' hr'
      rcases List.mem_cons.mp hr' with rfl | hr'
      · exact hwritten.append more' hgrow'
      · exact hall r' hr'

theorem programCode_parts {called : List Nat} {code : Chunk} {subs : Array Subroutine}
    (h : programCode root g called l i = .ok (code, subs) i') :
    ∃ main j raw,
      (if g.isCalled 0 then callCode 0 else nodeCode none (Place.start 0) root) l i = .ok main j ∧
      addSubroutines root g (main.push .accept) #[] called l j = .ok (raw, subs) i' ∧
      code = raw.map (link subs) := by
  have key : ∀ w : Gen Chunk, (do
        let main ← w
        let out ← addSubroutines root g (main.push .accept) #[] called
        return (out.1.map (link out.2), out.2) : Gen (Chunk × Array Subroutine)) l i =
          .ok (code, subs) i' →
      ∃ main j raw, w l i = .ok main j ∧
        addSubroutines root g (main.push .accept) #[] called l j = .ok (raw, subs) i' ∧
        code = raw.map (link subs) := by
    intro w h
    obtain ⟨main, j, hmain, h⟩ := bind_ok h
    obtain ⟨⟨raw, subs'⟩, k, hsubs, h⟩ := bind_ok h
    cases h
    exact ⟨main, j, raw, hmain, hsubs, rfl⟩
  unfold programCode at h
  cases hc : g.isCalled 0 <;> rw [hc] at h <;> exact key _ h

/-- Groups inside a called group are groups of the pattern. -/
theorem groupRange_stop {n : Node Measured} {group captures : Nat} (hg : group ≤ captures)
    (hn : ∀ k ∈ n.groupNumbers, k ≤ captures) : (groupRange n group).stop ≤ captures + 1 := by
  have key : ∀ (ks : List Nat) (k : Nat), k ≤ captures → (∀ k ∈ ks, k ≤ captures) →
      ks.foldl max k ≤ captures := by
    intro ks
    induction ks with
    | nil => exact fun k hk _ => hk
    | cons a ks ih =>
      exact fun k hk hall => ih _ (Nat.max_le.mpr ⟨hk, hall a (by simp)⟩) fun b hb =>
        hall b (List.mem_cons_of_mem _ hb)
  exact Nat.succ_le_succ (key _ _ hg hn)

theorem groupNode_subset {group : Nat} :
    ∀ k ∈ (groupNode root group).groupNumbers, k ∈ root.groupNumbers := by
  unfold groupNode
  split
  · exact fun _ h => h
  · cases hfind : root.subtrees.find? fun n => n.captured?.any (·.1 == group) with
    | none => exact fun _ h => h
    | some m => exact Node.groupNumbers_subset (Array.mem_of_find?_eq_some hfind)

theorem mem_groupRange {n : Node Measured} {group k : Nat}
    (h : k = group ∨ k ∈ n.groupNumbers) : k ∈ (groupRange n group).toList := by
  have hmin : ∀ (ks : List Nat) (a : Nat), ks.foldl min a ≤ a ∧ ∀ k ∈ ks, ks.foldl min a ≤ k := by
    intro ks
    induction ks with
    | nil => exact fun a => ⟨Nat.le_refl _, nofun⟩
    | cons b ks ih =>
      intro a
      obtain ⟨hle, hall⟩ := ih (min a b)
      exact ⟨Nat.le_trans hle (Nat.min_le_left a b),
        List.forall_mem_cons.mpr ⟨Nat.le_trans hle (Nat.min_le_right a b), hall⟩⟩
  have hmax : ∀ (ks : List Nat) (a : Nat), a ≤ ks.foldl max a ∧ ∀ k ∈ ks, k ≤ ks.foldl max a := by
    intro ks
    induction ks with
    | nil => exact fun a => ⟨Nat.le_refl _, nofun⟩
    | cons b ks ih =>
      intro a
      obtain ⟨hle, hall⟩ := ih (max a b)
      exact ⟨Nat.le_trans (Nat.le_max_left a b) hle,
        List.forall_mem_cons.mpr ⟨Nat.le_trans (Nat.le_max_right a b) hle, hall⟩⟩
  have hfirst : n.groupNumbers.foldl min group ≤ k :=
    h.elim (fun h => h ▸ (hmin _ _).1) ((hmin _ _).2 k)
  have hstop : k ≤ n.groupNumbers.foldl max group :=
    h.elim (fun h => h ▸ (hmax _ _).1) ((hmax _ _).2 k)
  rw [IdRange.toList, List.mem_range'_1]
  change n.groupNumbers.foldl min group ≤ k ∧ k < n.groupNumbers.foldl min group +
    (n.groupNumbers.foldl max group + 1 - n.groupNumbers.foldl min group)
  omega

/-- The tree that belongs to a called group is that of its body. -/
theorem groupNode_groups {root body : Node Measured} {group : Nat}
    (h : root.calledBody? group = some body) :
    ∀ k ∈ body.groupNumbers, k ∈ (groupNode root group).groupNumbers := by
  unfold Node.calledBody? at h
  unfold groupNode
  split at h
  · rw [if_pos ‹_›]
    cases h
    exact fun _ hk => hk
  · rw [if_neg ‹_›]
    obtain ⟨⟨g, n⟩, hfind, rfl⟩ := Option.map_eq_some_iff.mp h
    rw [← Array.findSome?_toList] at hfind
    rw [← Array.find?_toList]
    generalize root.subtrees.toList = ns at hfind
    induction ns with
    | nil => cases hfind
    | cons m ns ih =>
      rw [List.findSome?_cons] at hfind
      rw [List.find?_cons]
      cases hm : m.captured? with
      | none =>
        simp only [hm, Option.filter_none] at hfind
        simpa only [hm, Option.any_none] using ih hfind
      | some c =>
        rw [Option.any_some]
        rw [hm, Option.filter_some] at hfind
        cases hc : c.1 == group with
        | true =>
          rw [hc] at hfind
          cases hfind
          exact Node.groupNumbers_subset (Node.child_mem_subtrees (Node.captured?_child hm))
        | false =>
          rw [hc] at hfind
          exact ih hfind

/-- A group that is called is restored, and so are those inside it. -/
theorem undoneGroups_called {root body : Node Measured} {g : CallGraph} {group : Nat}
    (captures : Nat) (history : Bool) (hcalled : g.isCalled group = true) (hbody : root.calledBody? group = some body) :
    (group ≠ 0 → (undoneGroups root g captures history).getD group true = true) ∧
      ∀ k ∈ body.groupNumbers, (undoneGroups root g captures history).getD k true = true := by
  unfold undoneGroups
  rcases Node.calledBody?_mem hbody with ⟨rfl, rfl⟩ | ⟨-, m, hm, hcaptured⟩
  · rw [hcalled]
    exact ⟨absurd rfl, fun k => markUndone_groups _⟩
  · obtain ⟨onPath, u', hmarks, -⟩ := markUndone_subtree g (!g.isCalled 0)
      (Array.replicate (captures + 1) history) hm
    refine ⟨fun _ => hmarks group (markUndone_captured u' hcaptured (Or.inr hcalled)),
      fun k hk => hmarks k ?_⟩
    obtain ⟨onPath₁, u₁, hmarks₁, -, hoff⟩ := markUndone_child g onPath u'
      (Node.captured?_child hcaptured)
    obtain rfl := hoff group body hcaptured hcalled
    exact hmarks₁ k (markUndone_groups _ hk)

end Compile

/-! ## Calls and guards -/

namespace CallGraph

/-- What is called in a tree whose calls have passed the checks. -/
theorem ofTree_ok {root : Node Measured} {captures : Nat} {g : CallGraph}
    (h : CallGraph.ofTree root captures = .ok g) :
    g.called = root.callees.foldl (fun a c => a.setIfInBounds c true)
        (Array.replicate (captures + 1) false) ∧
      (root.callees ≠ [] →
        checkEscapes (bodies root (captures + 1))
            (edges (bodies root (captures + 1)) (captures + 1) Node.callees) g = .ok () ∧
          checkProgress (bodies root (captures + 1)) (captures + 1) = .ok ()) := by
  simp only [ofTree, bind, Except.bind, pure, Except.pure] at h
  split at h
  · rename_i hempty
    have hnone := List.isEmpty_iff.mp hempty
    cases h
    exact ⟨by rw [hnone]; rfl, fun hsome => absurd hnone hsome⟩
  · split at h
    · cases h
    · rename_i hescapes
      split at h
      · cases h
      · rename_i hprogress
        cases h
        exact ⟨rfl, fun _ => ⟨hescapes, hprogress⟩⟩

theorem size_called {root : Node Measured} {captures : Nat} {g : CallGraph}
    (h : CallGraph.ofTree root captures = .ok g) : g.called.size = captures + 1 := by
  have hfold : ∀ (cs : List Nat) (a : Array Bool),
      (cs.foldl (fun a c => a.setIfInBounds c true) a).size = a.size := by
    intro cs
    induction cs with
    | nil => exact fun _ => rfl
    | cons c cs ih => exact fun a => (ih _).trans Array.size_setIfInBounds
  rw [(ofTree_ok h).1, hfold, Array.size_replicate]

end CallGraph

/-- Where groups are called no loops have guards. -/
theorem layoutOf_bare {d : Dialect} {e : Encoding} {t : PatternTree Span} {a : Analyzed}
    (h : Analyzed.ofTree d e t = .ok a) {group : Nat} (hcalled : a.calls.isCalled group = true)
    (called : List Nat) (o : Options) (e' : Encoding) (depth : Nat) :
    (layoutOf a called o e' depth).guardDepth = 0 := by
  unfold layoutOf
  dsimp only
  split
  · rename_i hg
    have hallowed := (Bool.and_eq_true_iff.mp hg).2
    simp only [guardsAllowed, Bool.and_eq_true, Bool.not_eq_true'] at hallowed
    obtain ⟨⟨⟨-, hcalls⟩, -⟩, -⟩ := hallowed
    rw [Analyzed.ofTree_has h rfl, Array.any_eq_false'] at hcalls
    have hnone : a.tree.root.callees = [] := by
      rw [Node.callees, List.filterMap_eq_nil_iff]
      intro m hm
      have := hcalls m (Array.mem_toList_iff.mp hm)
      unfold Node.callee?
      split
      · exact absurd rfl this
      · rfl
    rw [Analyzed.ofTree_isCalled h hnone] at hcalled
    cases hcalled
  · rfl

/-! ## Programs of patterns -/

/-- A program as it was put together from a tree. -/
structure Program.Compiled (p : Program) (l : Layout) (root : Node Measured) : Prop where
  verified : verify p.code p.tables = none
  encoding : l.encoding = p.encoding
  sparing : l.guardDepth = 0 ∨ root.guardable = true
  bare : ∀ r : Subroutine, r ∈ p.tables.subroutines → l.guardDepth = 0
  /-- Groups that are called have subroutines, and there are no others. -/
  called : ∀ g sub, (l.subroutines[g]?).join = some sub →
    ∃ r : Subroutine, p.tables.subroutines[sub]? = some r ∧ r.group = g
  group : ∀ r : Subroutine, r ∈ p.tables.subroutines → r.group ≤ p.tables.captures
  numbers : ∀ g ∈ root.groupNumbers, 0 < g ∧ g ≤ p.tables.captures
  apart : root.Apart
  /-- A history is recorded if the options ask for one. -/
  records : p.has .captureHistory = p.tables.options.has .captureHistory
  /-- Groups that lie off the path are restored, and so are those of subroutines. -/
  secure : root.Secure l.undone (!l.calls.isCalled 0)
  restored : ∀ r : Subroutine, r ∈ p.tables.subroutines → ∀ body, root.calledBody? r.group = some body →
    (r.group ≠ 0 → l.undone.getD r.group true = true) ∧
      ∀ k ∈ body.groupNumbers, l.undone.getD k true = true
  written : ∃ raw, p.code = raw.map (link p.tables.subroutines) ∧
    (∀ r : Subroutine, r ∈ p.tables.subroutines → Written root l.calls l raw p.tables.loops r) ∧
    ∃ (i i' : Issued) (main : Chunk), i.loops = #[] ∧ i.Grows i' ∧
      (if l.calls.isCalled 0 then callCode 0 else nodeCode none (Place.start 0) root) l i =
        .ok main i' ∧
      (∀ (k : Nat) instr, (main.push .accept)[k]? = some instr → raw[k]? = some instr) ∧
      i'.loops.size ≤ p.tables.loops.size ∧
      ∀ id < i'.loops.size, p.tables.loops[id]? = i'.loops[id]?

/-- The layout in which the program of an analyzed pattern is written. -/
abbrev Compile.patternLayout (a : Analyzed) (s : Pattern.Setting) (o : Options) : Layout :=
  layoutOf a (calledGroups a.calls) o s.encoding s.limits.explosionDepth

theorem Compilation.ofTree_layout {s : Pattern.Setting} {o : Options} {t : PatternTree Span}
    {p : Program} (h : (Compilation.ofTree s o t).1 = .ok p)
    (ht : ∀ g ∈ t.root.groupNumbers, 0 < g ∧ g ≤ t.captures) (hseparate : t.root.Separate) :
    ∃ a, Analyzed.ofTree s.dialect s.encoding t = .ok a ∧
      p.Compiled (patternLayout a s o) a.tree.root := by
  obtain ⟨a, code, tables, ha, hgen, hverify, rfl⟩ := ofTree_ok h
  obtain ⟨subs, i, hcode, rfl⟩ := generate_ok hgen
  obtain ⟨main, j, raw, hmain, hsubs, rfl⟩ := programCode_parts hcode
  let l := patternLayout a s o
  obtain ⟨root, -, hcalls, htree, hcaptures⟩ := Analyzed.ofTree_parts ha
  have hsparing : l.guardDepth = 0 ∨ a.tree.root.guardable = true := layoutOf_sparing ha
  have hbare : ∀ group ∈ calledGroups a.calls, l.guardDepth = 0 := fun group hg =>
    layoutOf_bare ha (isCalled_of_mem hg) _ _ _ _
  have hnumbers : ∀ g ∈ a.tree.root.groupNumbers, 0 < g ∧ g ≤ a.tree.captures := by
    rw [Analyzed.ofTree_groupNumbers ha, hcaptures]
    exact ht
  have hle : ∀ group ∈ calledGroups a.calls, group ≤ a.tree.captures := fun group hg => by
    have := lt_of_mem_calledGroups hg
    rw [CallGraph.size_called hcalls] at this
    omega
  obtain ⟨hgrow', ⟨more, rfl⟩, new, hnew, hgroups, hall⟩ := addSubroutines_ok
    (fun hne => hbare _ (List.head_mem hne)) hsubs
  obtain rfl : subs.toList = new := hnew
  have hgroup : ∀ r ∈ subs, r.group ∈ calledGroups a.calls := fun r hr =>
    hgroups ▸ List.mem_map_of_mem (Array.mem_toList_iff.mpr hr)
  have hgrow : (Issued.start a s.dialect o).Grows j := by
    split at hmain
    · obtain ⟨rfl, -⟩ := Built.callCode_at
        (B := ⟨#[], #[], #[], l, ⟨⟨#[], s.encoding, false, false⟩, 0, false⟩⟩) (x := 0) hmain
      exact .refl _
    · exact nodeCode_grows hsparing hmain
  refine ⟨a, ha, ?_⟩
  exact {
    verified := hverify
    encoding := rfl
    sparing := hsparing
    bare := fun r hr => hbare _ (hgroup r hr)
    called := fun g sub hsub => by
      have hsub := subroutineIds_some hsub
      rw [← hgroups, List.getElem?_map, Option.map_eq_some_iff] at hsub
      obtain ⟨r, hr, hg⟩ := hsub
      exact ⟨r, Array.getElem?_toList.symm.trans hr, hg⟩
    group := fun r hr => hle _ (hgroup r hr)
    numbers := hnumbers
    apart := Analyzed.ofTree_apart ha hseparate
    records := (hgrow.trans hgrow').history.trans
      (by simp [Issued.start, baseFeatures, FlagSet.has_set distinct_features, tablesOf])
    secure := markUndone_secures _ _ _ (.refl _)
    restored := fun r hr body hbody =>
      undoneGroups_called _ _ (isCalled_of_mem (hgroup r hr)) hbody
    written := ⟨_, rfl, fun r hr => hall r (Array.mem_toList_iff.mpr hr), _, j, main, rfl, hgrow,
      hmain, fun k instr hk => by
        rwa [Array.getElem?_append_left (Array.getElem?_eq_some_iff.mp hk).1],
      hgrow'.size, hgrow'.loops⟩ }

theorem Compilation.ofTree_compiled {s : Pattern.Setting} {o : Options} {t : PatternTree Span}
    {p : Program} (h : (Compilation.ofTree s o t).1 = .ok p)
    (ht : ∀ g ∈ t.root.groupNumbers, 0 < g ∧ g ≤ t.captures) (hseparate : t.root.Separate) :
    ∃ a l, Analyzed.ofTree s.dialect s.encoding t = .ok a ∧ p.Compiled l a.tree.root ∧
      l.calls = a.calls :=
  let ⟨a, ha, hp⟩ := ofTree_layout h ht hseparate
  ⟨a, _, ha, hp, rfl⟩

end RegexMachine
