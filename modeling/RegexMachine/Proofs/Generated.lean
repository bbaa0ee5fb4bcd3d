import RegexMachine.Proofs.Numbered
import RegexMachine.Proofs.ValidPrograms

/-!
Patterns that have been read and analyzed always get a program, unless there is too much of
something: what their trees refer to exists, and every group that is called has a body.
-/
namespace RegexMachine
open Compile

/-! ## Calls -/

/-- A group is called if a tree has a call of it. -/
theorem CallGraph.isCalled_of_callee {root : Node Measured} {captures : Nat} {g : CallGraph}
    (h : CallGraph.ofTree root captures = .ok g) {k : Nat} (hk : k ∈ root.callees)
    (hle : k ≤ captures) : g.isCalled k = true := by
  have hfold : ∀ (cs : List Nat) (a : Array Bool), k < a.size →
      (k ∈ cs ∨ a.getD k false = true) →
      (cs.foldl (fun a c => a.setIfInBounds c true) a).getD k false = true := by
    intro cs
    induction cs with
    | nil => exact fun a _ h => h.resolve_left List.not_mem_nil
    | cons c cs ih =>
      intro a hlt h
      refine ih _ (by rwa [Array.size_setIfInBounds]) ?_
      rw [getD_setIfInBounds]
      by_cases hc : c = k
      · exact Or.inr (if_pos ⟨hc, hc ▸ hlt⟩)
      · rw [if_neg fun h => hc h.1]
        exact h.imp_left fun hmem => (List.mem_cons.mp hmem).resolve_left (Ne.symm hc)
  rw [isCalled, (ofTree_ok h).1]
  exact hfold root.callees _ (by simp; omega) (Or.inl hk)

namespace Compile

/-- Every called group has a number among those that are called. -/
theorem subroutineIds_called {size : Nat} {called : List Nat} {group : Nat} (h : group ∈ called)
    (hlt : group < size) :
    ∃ sub, ((subroutineIds size called)[group]?).join = some sub ∧ sub < called.length := by
  have hfold : ∀ (es : List (Nat × Nat)) (ids : Array (Option Nat)), group < ids.size →
      (group ∈ es.map (·.1) ∨ (ids[group]?).join.isSome = true) →
      ((es.foldl (fun ids (e : Nat × Nat) => ids.setIfInBounds e.1 (some e.2)) ids)[group]?).join.isSome
        = true := by
    intro es
    induction es with
    | nil => exact fun ids _ h => h.resolve_left List.not_mem_nil
    | cons e es ih =>
      intro ids hlt h
      refine ih _ (by rwa [Array.size_setIfInBounds]) ?_
      by_cases he : e.1 = group
      · exact Or.inr (by simp [he, hlt])
      · rcases h with hmem | hset
        · exact Or.inl ((List.mem_cons.mp hmem).resolve_left (Ne.symm he))
        · exact Or.inr (by rwa [Array.getElem?_setIfInBounds_ne he])
  have hmem : group ∈ called.zipIdx.map (·.1) := by
    rwa [List.zipIdx_map_fst]
  obtain ⟨sub, hsub⟩ := Option.isSome_iff_exists.mp
    (hfold called.zipIdx (Array.replicate size none) (by simpa using hlt) (Or.inl hmem))
  exact ⟨sub, hsub, (List.getElem?_eq_some_iff.mp (subroutineIds_some hsub)).1⟩

theorem mem_calledGroups {g : CallGraph} {k : Nat} (h : g.isCalled k = true)
    (hlt : k < g.called.size) : k ∈ calledGroups g :=
  List.mem_filter.mpr ⟨List.mem_range.mpr hlt, h⟩

end Compile

/-! ## Patterns -/

/-- What the instructions of a pattern can refer to. -/
def Compile.patternSupply (a : Analyzed) : Supply := ⟨a.tree.captures, (calledGroups a.calls).length⟩

section
variable {s : Pattern.Setting} {o : Options} {properties : PropertyRegistry} {t : PatternTree Span}
  {a : Analyzed}

theorem Analyzed.calls_group (ha : Analyzed.ofTree s.dialect s.encoding t = .ok a) {k : Nat}
    (hk : a.calls.isCalled k = true) (hle : k ≤ a.tree.captures) :
    (patternLayout a s o).Calls (patternSupply a) k := by
  obtain ⟨root, -, hcalls, -, hcaptures⟩ := ofTree_parts ha
  have hlt : k < a.calls.called.size := by
    rw [CallGraph.size_called hcalls]
    omega
  exact subroutineIds_called (mem_calledGroups hk hlt) (Nat.lt_succ_of_le hle)

/-- All nodes of the tree of a pattern suit the layout in which its program is written. -/
theorem Analyzed.fit (ht : (Pattern.parse s o properties).1 = .ok t)
    (ha : Analyzed.ofTree s.dialect s.encoding t = .ok a) :
    Fit (patternSupply a) (patternLayout a s o) a.tree.root := by
  obtain ⟨root, -, hcalls, htree, hcaptures⟩ := ofTree_parts ha
  have hbound := Analyzed.ofTree_bound ha (Pattern.parse_bound ht)
  rw [← hcaptures] at hbound
  intro m hm
  obtain ⟨hrefs, hcallee⟩ := Node.isBound_iff.mp (Node.everywhere_iff.mp hbound m hm)
  have hcall : ∀ k, m.callee? = some k → (patternLayout a s o).Calls (patternSupply a) k := by
    intro k hk
    have hmem : k ∈ root.callees := by
      rw [← callees_mark a.calls root, ← htree]
      exact List.mem_filterMap.mpr ⟨m, Array.mem_toList_iff.mpr hm, hk⟩
    have hle := hcallee k hk
    exact calls_group ha (CallGraph.isCalled_of_callee hcalls hmem (hcaptures ▸ hle)) hle
  cases m with
  | atom note b =>
    cases b with
    | backref t gs fold => exact hrefs
    | call t k => exact hcall k rfl
    | _ => exact trivial
  | group note kind body =>
    cases kind with
    | capture k name =>
      have hk : k ∈ a.tree.root.groupNumbers := Node.mem_groupNumbers.mpr ⟨_, hm, rfl⟩
      rw [Analyzed.ofTree_groupNumbers ha] at hk
      obtain ⟨hpos, hle⟩ := Pattern.parse_groupNumbers ht k hk
      rw [← hcaptures] at hle
      exact ⟨⟨hpos, hle⟩, fun hcalled => calls_group ha hcalled hle⟩
    | _ => exact trivial
  | conditional note t gs yes no => exact hrefs
  | look note k body =>
    exact Analyzed.ofTree_inOrder ha (Pattern.parse_ordered ht) body
      (Node.subtrees_trans (Node.child_mem_subtrees (List.mem_singleton.mpr rfl)) hm)
  | _ => exact trivial

/-- Every group that is called is one of the pattern, or the whole pattern. -/
theorem Analyzed.callable (ht : (Pattern.parse s o properties).1 = .ok t)
    (ha : Analyzed.ofTree s.dialect s.encoding t = .ok a) {k : Nat} (hk : a.calls.isCalled k = true) :
    Callable (patternSupply a) a.tree.root k := by
  obtain ⟨root, -, hcalls, -, hcaptures⟩ := ofTree_parts ha
  have hlt : k < a.calls.called.size := by
    by_contra hge
    rw [CallGraph.isCalled, Array.getD_eq_getD_getElem?, Array.getElem?_eq_none (by omega)] at hk
    cases hk
  rw [CallGraph.size_called hcalls] at hlt
  rcases Nat.eq_zero_or_pos k with hzero | hpos
  · exact Or.inl hzero
  · have hle : k ≤ a.tree.captures := by omega
    refine Or.inr ⟨⟨hpos, hle⟩, ?_⟩
    rw [Analyzed.ofTree_groupNumbers ha]
    exact Pattern.parse_defined ht k hpos (by omega)

/-- The code of an analyzed pattern is made unless there is too much of something, and then it is a
whole program. -/
theorem Compile.generate_whole (ht : (Pattern.parse s o properties).1 = .ok t)
    (ha : Analyzed.ofTree s.dialect s.encoding t = .ok a) :
    (∃ what, generate a s.dialect o s.encoding s.limits.explosionDepth = .error (.tooMany what)) ∨
    ∃ code subs i, generate a s.dialect o s.encoding s.limits.explosionDepth =
        .ok (code, tablesOf a subs i o s.encoding) ∧
      Whole (patternSupply a) (patternLayout a s o) code subs i := by
  unfold generate
  dsimp only
  split
  · exact Or.inl ⟨_, rfl⟩
  · have hwhole := programCode_delivers (r := patternSupply a) (i := .start a s.dialect o)
      (g := a.calls) (Analyzed.fit ht ha)
      (fun k hk => Analyzed.callable ht ha (isCalled_of_mem hk)) rfl
      (fun hzero => Analyzed.calls_group ha hzero (Nat.zero_le _)) rfl rfl
    unfold Delivers at hwhole
    unfold Issued.start at hwhole
    split at hwhole
    · rename_i out j hcode
      rw [hcode]
      exact Or.inr ⟨out.1, out.2, j, rfl, hwhole⟩
    · rename_i e j hcode
      obtain ⟨what, rfl⟩ := hwhole
      rw [hcode]
      exact Or.inl ⟨what, rfl⟩

/-- A program has no guards whose loops may not have them. -/
theorem Compilation.ofTree_unguarded (ht : (Pattern.parse s o properties).1 = .ok t)
    (ha : Analyzed.ofTree s.dialect s.encoding t = .ok a) {p : Program}
    (h : (Compilation.ofTree s o t).1 = .ok p)
    (hguards : (!o.has .findLongest && guardsAllowed a.tree.root) = false) : p.tables.guards = 0 := by
  obtain ⟨a', code, tables, ha', hgenerate, -, rfl⟩ := ofTree_ok h
  obtain rfl : a = a' := Except.ok.inj (ha.symm.trans ha')
  rcases generate_whole ht ha with ⟨what, hfailed⟩ | ⟨code', subs, i, hgenerate', hwhole⟩
  · cases hgenerate.symm.trans hfailed
  · cases hgenerate.symm.trans hgenerate'
    refine hwhole.bare ?_
    simp only [patternLayout, layoutOf, hguards, Bool.false_eq_true, ↓reduceIte]

end

/-- The pattern `(a(?<=a)\g<1>?|b*)\1`, in which a group calls itself after a lookbehind. -/
def selfCalling : Pattern.Setting :=
  ⟨Bytes.ofString "(a(?<=a)\\g<1>?|b*)\\1", .native, .ascii, .standard⟩

theorem selfCalling_parses : (Pattern.parse selfCalling .empty .empty).1.toOption.isSome = true := by
  decide +kernel

theorem selfCalling_analyzed :
    (Analyzed.ofTree .native .ascii
      ((Pattern.parse selfCalling .empty .empty).1.toOption.get selfCalling_parses)).toOption.isSome
        = true := by
  decide +kernel

/-- Its tree after analysis. -/
def selfCallingAnalyzed : Analyzed :=
  (Analyzed.ofTree .native .ascii ((Pattern.parse selfCalling .empty .empty).1.toOption.get
    selfCalling_parses)).toOption.get selfCalling_analyzed

end RegexMachine
