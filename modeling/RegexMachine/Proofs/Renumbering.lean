import RegexMachine.Proofs.EscapedTexts
import RegexMachine.Proofs.NameTables
import RegexMachine.Proofs.RangeTables
import RegexMachine.Proofs.Separation

/-!
How the groups of a pattern get their final numbers. The groups that are kept are numbered from 1 on
in the order of the numbers they were opened with; references, conditions and calls are bound to the
groups they mean, and names are listed in the order of their smallest groups.
-/
namespace RegexMachine.Pattern
open Node

/-! ## What is recorded of a group -/

/-- The name that a group is given first. -/
def firstName (defs : List (Nat × Option String)) (raw : Nat) : Option String :=
  defs.findSome? fun d => if d.1 = raw then d.2 else none

variable {defs : List (Nat × Option String)} {groups : Array GroupDef} {raw : Nat}

theorem firstName_append (defs : List (Nat × Option String)) (d : Nat × Option String) (raw : Nat) :
    firstName (defs ++ [d]) raw =
      (firstName defs raw).or (if d.1 = raw then d.2 else none) := by
  unfold firstName
  rw [List.findSome?_append, List.findSome?_singleton]

theorem firstName_eq_none : firstName defs raw = none ↔ ∀ d ∈ defs, d.1 = raw → d.2 = none := by
  simp [firstName, List.findSome?_eq_none_iff]

theorem Recorded.mem_iff (h : Recorded defs groups) :
    raw ∈ defs.map (·.1) ↔ 0 < raw ∧ raw ≤ groups.size := by
  refine ⟨fun hmem => ?_, fun hraw => h.mem_of_le hraw.1 hraw.2⟩
  induction h with
  | empty => cases hmem
  | define h hpos hnext ih =>
    rw [size_defineGroup hnext hpos]
    rw [List.map_append, List.mem_append] at hmem
    rcases hmem with hold | hnew
    · exact ⟨(ih hold).1, Nat.le_trans (ih hold).2 (Nat.le_max_left _ _)⟩
    · obtain rfl := List.mem_singleton.mp hnew
      exact ⟨hpos, Nat.le_max_right _ _⟩

/-- A group is plain as long as it has no name. -/
theorem Recorded.getElem? (h : Recorded defs groups) (hpos : 0 < raw) (hle : raw ≤ groups.size) :
    groups[raw - 1]? = some ⟨firstName defs raw, (firstName defs raw).isNone⟩ := by
  induction h generalizing raw with
  | empty => exact absurd hpos (Nat.not_lt.mpr hle)
  | @define defs groups raw' name h hpos' hnext ih =>
    rw [size_defineGroup hnext hpos'] at hle
    rw [firstName_append]
    unfold defineGroup
    cases hold : groups[raw' - 1]? with
    | none =>
      have hsize := Array.getElem?_eq_none_iff.mp hold
      dsimp only
      rw [Array.getElem?_push]
      by_cases heq : raw = raw'
      · subst heq
        have hfresh : firstName defs raw = none := by
          refine firstName_eq_none.mpr fun d hd hraw => ?_
          have hbound := (h.mem_iff.mp (List.mem_map.mpr ⟨d, hd, hraw⟩)).2
          omega
        rw [if_pos (by omega), hfresh, if_pos rfl]
        rfl
      · rw [if_neg (by omega), if_neg (Ne.symm heq), Option.or_none]
        exact ih hpos (by omega)
    | some g =>
      have hlt := (Array.getElem?_eq_some_iff.mp hold).1
      dsimp only
      rw [Array.getElem?_setIfInBounds]
      by_cases heq : raw = raw'
      · subst heq
        have hg := (ih hpos (by omega)).symm.trans hold
        obtain rfl := Option.some.inj hg
        rw [if_pos rfl, if_pos hlt, if_pos rfl]
        cases firstName defs raw <;> rfl
      · rw [if_neg (by omega), if_neg (Ne.symm heq), Option.or_none]
        exact ih hpos (by omega)

/-! ## Numbers -/

namespace Numbering

theorem number?_eq_some {n : Numbering} {g : Nat} :
    n.number? raw = some g ↔ 0 < raw ∧ n.numbers[raw - 1]? = some (some g) := by
  unfold number?
  split
  · constructor
    · intro h
      cases h
    · intro h
      omega
  · rw [Option.join_eq_some_iff]
    exact ⟨fun h => ⟨by omega, h⟩, And.right⟩

theorem add_numbers (n : Numbering) (only : Bool) (d : GroupDef) : (n.add only d).numbers =
    n.numbers.push (if only && d.plain then none else some (n.count + 1)) := by
  unfold add
  split <;> rfl

/-- Groups that are opened later get larger numbers. -/
def Ascending (n : Numbering) : Prop := ∀ i j g g' : Nat, i < j →
  n.numbers[i]? = some (some g) → n.numbers[j]? = some (some g') → g < g'

theorem ascending_add {n : Numbering} (hb : n.Bounded) (h : n.Ascending) (only : Bool)
    (d : GroupDef) : (n.add only d).Ascending := by
  intro i j g g' hij hi hj
  have hlt := (Array.getElem?_eq_some_iff.mp hj).1
  rw [add_numbers, Array.size_push] at hlt
  rw [add_numbers, Array.getElem?_push, if_neg (by omega)] at hi
  rw [add_numbers, Array.getElem?_push] at hj
  split at hj
  · split at hj
    · cases hj
    · cases hj
      exact Nat.lt_succ_of_le (hb g (Array.mem_of_getElem? hi)).2
  · exact h i j g g' hij hi hj

theorem ascending_ofDefs (only : Bool) (groups : Array GroupDef) :
    (ofDefs only groups).Ascending :=
  (Array.foldl_induction (motive := fun _ (n : Numbering) => n.Bounded ∧ n.Ascending)
    ⟨fun _ h => by simp [empty] at h, fun _ _ _ _ _ h => by simp [empty] at h⟩ fun _ _ h =>
      ⟨bounded_add h.1 only _, ascending_add h.1 h.2 only _⟩).2

/-- Exactly the plain groups lose their numbers, and these only where named groups alone capture. -/
theorem dropped_ofDefs (only : Bool) (groups : Array GroupDef) {j : Nat} {d : GroupDef}
    (hd : groups[j]? = some d) :
    (ofDefs only groups).numbers[j]? = some none ↔ only = true ∧ d.plain = true := by
  have hall : (ofDefs only groups).numbers.size = groups.size ∧ ∀ k e, k < groups.size →
      groups[k]? = some e →
        ((ofDefs only groups).numbers[k]? = some none ↔ only = true ∧ e.plain = true) := by
    refine Array.foldl_induction (motive := fun i (n : Numbering) => n.numbers.size = i ∧
      ∀ k e, k < i → groups[k]? = some e →
        (n.numbers[k]? = some none ↔ only = true ∧ e.plain = true)) 
        ⟨rfl, fun _ _ hk => absurd hk (Nat.not_lt_zero _)⟩ ?_
    rintro i n ⟨hsize, hbefore⟩
    rw [add_numbers]
    refine ⟨by rw [Array.size_push, hsize], fun k e hk he => ?_⟩
    rw [Array.getElem?_push, hsize]
    split
    · rename_i hlast
      obtain rfl : groups[i] = e := by
        rw [hlast, Array.getElem?_eq_getElem i.isLt] at he
        exact Option.some.inj he
      rw [Option.some_inj]
      split <;> simp_all
    · exact hbefore k e (by omega) he
  exact hall.2 j d (Array.getElem?_eq_some_iff.mp hd).1 hd

theorem orderly_add {n : Numbering} (hnames : n.names.UpTo n.count) (h : n.names.Orderly)
    (only : Bool) (d : GroupDef) : (n.add only d).names.Orderly := by
  unfold add
  split
  · exact h
  · dsimp only
    split
    · exact h
    · exact h.insert fun e he k hk => Nat.lt_succ_of_le (hnames e he k hk).2

theorem lists_add {n : Numbering} {only : Bool} {d : GroupDef} {g : Nat} {x : String} :
    (n.add only d).names.Lists g x ↔ n.names.Lists g x ∨
      d.name = some x ∧ (if only && d.plain then none else some (n.count + 1)) = some g := by
  unfold add
  split
  · simp
  · dsimp only
    cases hname : d.name with
    | none => simp
    | some y =>
      rw [NameTable.lists_insert]
      simp only [Option.some_inj]
      exact or_congr_right ⟨fun h => ⟨h.2.symm, h.1.symm⟩, fun h => ⟨h.2.symm, h.1.symm⟩⟩

/-- The table of names lists every group that is kept under its name. -/
theorem names_ofDefs (only : Bool) (groups : Array GroupDef) :
    (ofDefs only groups).names.Orderly ∧ ∀ g x, (ofDefs only groups).names.Lists g x ↔
      ∃ (j : Nat) (d : GroupDef), groups[j]? = some d ∧ d.name = some x ∧
        (ofDefs only groups).numbers[j]? = some (some g) := by
  have hall : (ofDefs only groups).numbers.size = groups.size ∧
      (ofDefs only groups).names.UpTo (ofDefs only groups).count ∧
      (ofDefs only groups).names.Orderly ∧ ∀ g x, (ofDefs only groups).names.Lists g x ↔
        ∃ (j : Nat) (d : GroupDef), j < groups.size ∧ groups[j]? = some d ∧ d.name = some x ∧
          (ofDefs only groups).numbers[j]? = some (some g) := by
    refine Array.foldl_induction (motive := fun i (n : Numbering) => n.numbers.size = i ∧
      n.names.UpTo n.count ∧ n.names.Orderly ∧ ∀ g x, n.names.Lists g x ↔
        ∃ (j : Nat) (d : GroupDef), j < i ∧ groups[j]? = some d ∧ d.name = some x ∧
          n.numbers[j]? = some (some g)) ?_ ?_
    · refine ⟨rfl, by simp [empty, NameTable.empty, NameTable.UpTo],
        ⟨by simp [empty, NameTable.empty], .nil⟩, fun g x => ⟨?_, ?_⟩⟩
      · rintro ⟨gs, hmem, -⟩
        cases hmem
      · rintro ⟨j, -, hj, -⟩
        cases hj
    · rintro i n ⟨hsize, hupTo, horderly, hlists⟩
      have hlast : groups[(i : Nat)]? = some groups[i] := Array.getElem?_eq_getElem i.isLt
      refine ⟨by rw [add_numbers, Array.size_push, hsize], upTo_add hupTo only _,
        orderly_add hupTo horderly only _, fun g x => ?_⟩
      rw [lists_add, hlists, add_numbers]
      constructor
      · rintro (⟨j, d, hj, hd, hname, hnumber⟩ | ⟨hname, hnumber⟩)
        · refine ⟨j, d, Nat.lt_succ_of_lt hj, hd, hname, ?_⟩
          rwa [Array.getElem?_push, if_neg (by omega)]
        · refine ⟨i, groups[i], Nat.lt_succ_self _, hlast, hname, ?_⟩
          rw [Array.getElem?_push, if_pos hsize.symm, hnumber]
      · rintro ⟨j, d, hj, hd, hname, hnumber⟩
        rw [Array.getElem?_push, hsize] at hnumber
        split at hnumber
        · rename_i heq
          rw [heq, hlast] at hd
          obtain rfl := Option.some.inj hd
          exact Or.inr ⟨hname, Option.some.inj hnumber⟩
        · exact Or.inl ⟨j, d, by omega, hd, hname, hnumber⟩
  refine ⟨hall.2.2.1, fun g x => (hall.2.2.2 g x).trans ⟨?_, ?_⟩⟩
  · rintro ⟨j, d, -, h⟩
    exact ⟨j, d, h⟩
  · rintro ⟨j, d, hd, h⟩
    exact ⟨j, d, (Array.getElem?_eq_some_iff.mp hd).1, hd, h⟩

/-! ## Trees -/

/-- A tree is bound node by node. -/
theorem bind_subtrees {n : Numbering} {m r : Node Span} (h : bind n m = .ok r) :
    List.Forall₂ (fun k c => bind n k = .ok c) m.subtrees.toList r.subtrees.toList := by
  induction m using Node.induction generalizing r with
  | step m ih =>
    have hparts : ∀ {ms bs : List (Node Span)}, List.Forall₂ (fun k c => bind n k = .ok c) ms bs →
        (∀ k ∈ ms, k ∈ m.children) → List.Forall₂ (fun k c => bind n k = .ok c)
          (ms.flatMap fun k => k.subtrees.toList) (bs.flatMap fun c => c.subtrees.toList) := by
      intro ms bs hbs hms
      induction hbs with
      | nil => exact .nil
      | cons hb _ ihs =>
        rw [List.flatMap_cons, List.flatMap_cons]
        exact List.rel_append (ih _ (hms _ (by simp)) hb)
          (ihs fun k hk => hms k (List.mem_cons_of_mem _ hk))
    rw [subtrees_toList, subtrees_toList]
    exact .cons h (hparts (bind_children h) fun _ => id)

/-- Every node of a tree that is bound comes from one of the tree. -/
theorem bind_source {n : Numbering} {m r c : Node Span} (h : bind n m = .ok r)
    (hc : c ∈ r.subtrees) : ∃ k ∈ m.subtrees, bind n k = .ok c := by
  have hall := bind_subtrees h
  obtain ⟨i, hi, rfl⟩ := List.getElem_of_mem (Array.mem_toList_iff.mpr hc)
  have hlt : i < m.subtrees.toList.length := hall.length_eq ▸ hi
  exact ⟨m.subtrees.toList[i], Array.mem_toList_iff.mp (List.getElem_mem hlt), hall.get hlt hi⟩

end Numbering

/-- What numbering makes of a node: capture groups get their numbers or become plain groups, and there
are no others. -/
structure Renumbers (number : Nat → Option Nat) (m r : Node Span) : Prop where
  note : r.note = m.note
  captured : ∀ {span raw name body}, m = .group span (.capture raw name) body →
    ∃ body', r = .group span ((number raw).elim .plain (.capture · name)) body'
  capturing : ∀ {span g name body'}, r = .group span (.capture g name) body' →
    ∃ raw body, m = .group span (.capture raw name) body ∧ number raw = some g

theorem Numbering.bind_renumbers {n : Numbering} {m r : Node Span} (h : bind n m = .ok r) :
    Renumbers n.number? m r := by
  cases m with
  | atom s a =>
    simp only [bind, Bind.bind, Except.bind] at h
    split at h
    · cases h
    · cases h
      exact ⟨rfl, by rintro _ _ _ _ ⟨⟩, by rintro _ _ _ _ ⟨⟩⟩
  | conditional s t gs yes no =>
    simp only [bind, Bind.bind, Except.bind] at h
    repeat' split at h
    all_goals cases h
    exact ⟨rfl, by rintro _ _ _ _ ⟨⟩, by rintro _ _ _ _ ⟨⟩⟩
  | group s k body =>
    simp only [bind, Bind.bind, Except.bind] at h
    split at h
    · cases h
    · rename_i body' hbody
      cases h
      refine ⟨rfl, ?_, ?_⟩
      · rintro span raw name _ ⟨⟩
        refine ⟨body', ?_⟩
        unfold bindGrouping
        cases hraw : n.number? raw <;> simp [hraw]
      · rintro span g name _ hr
        cases k with
        | capture raw name' =>
          cases hraw : n.number? raw with
          | none => simp [bindGrouping, hraw] at hr
          | some g' =>
            simp only [bindGrouping, hraw] at hr
            cases hr
            exact ⟨raw, body, rfl, hraw⟩
        | _ => cases hr
  | _ =>
    simp only [bind, Bind.bind, Except.bind] at h
    split at h
    · cases h
    · cases h
      exact ⟨rfl, by rintro _ _ _ _ ⟨⟩, by rintro _ _ _ _ ⟨⟩⟩

/-! ## References -/

/-- A target means a group: one that was given its name first, or the one that has its number. -/
def Denotes (defs : List (Nat × Option String)) (number : Nat → Option Nat) (g : Nat) : Target → Prop
  | .name x => ∃ raw, firstName defs raw = some x ∧ number raw = some g
  | .number raw => number raw = some g
  | .relative raw => number raw = some g

/-- A target is bound to an ascending list of groups that exist, and these are all that it means. -/
structure BoundTo (captures : Nat) (defs : List (Nat × Option String)) (number : Nat → Option Nat)
    (target : Target) (gs : List Nat) : Prop where
  nonempty : gs ≠ []
  ascending : gs.Pairwise (· < ·)
  existing : ∀ g ∈ gs, 0 < g ∧ g ≤ captures
  denoted : ∀ g, g ∈ gs ↔ Denotes defs number g target

namespace Numbering

/-- The groups that were recorded under a name are those that are listed under it. -/
theorem lists_ofDefs (h : Recorded defs groups) (only : Bool) (g : Nat) (x : String) :
    (ofDefs only groups).names.Lists g x ↔ Denotes defs (ofDefs only groups).number? g (.name x) := by
  rw [(names_ofDefs only groups).2]
  constructor
  · rintro ⟨j, d, hd, hname, hnumber⟩
    have hlt := (Array.getElem?_eq_some_iff.mp hd).1
    have hrecorded : groups[j + 1 - 1]? = some _ := h.getElem? (Nat.succ_pos j) hlt
    rw [Nat.add_sub_cancel, hd] at hrecorded
    obtain rfl := Option.some.inj hrecorded
    exact ⟨j + 1, hname, number?_eq_some.mpr ⟨Nat.succ_pos j, hnumber⟩⟩
  · rintro ⟨raw, hname, hnumber⟩
    obtain ⟨hpos, hnumber⟩ := number?_eq_some.mp hnumber
    have hlt := (Array.getElem?_eq_some_iff.mp hnumber).1
    rw [(ofDefs_complete only groups).1] at hlt
    exact ⟨raw - 1, _, h.getElem? hpos (by omega), hname, hnumber⟩

theorem targets?_boundTo (h : Recorded defs groups) {only : Bool} {target : Target} {gs : List Nat}
    (hgs : (ofDefs only groups).targets? target = some gs) :
    BoundTo (ofDefs only groups).count defs (ofDefs only groups).number? target gs := by
  have hexisting := targets?_upTo (bounded_ofDefs only groups) (upTo_ofDefs only groups) hgs
  have hnumber : ∀ raw, ((ofDefs only groups).number? raw).map ([·]) = some gs →
      gs ≠ [] ∧ gs.Pairwise (· < ·) ∧ ∀ g, g ∈ gs ↔ (ofDefs only groups).number? raw = some g := by
    intro raw hraw
    obtain ⟨g', hg', rfl⟩ := Option.map_eq_some_iff.mp hraw
    refine ⟨by simp, List.pairwise_singleton _ _, fun g => ?_⟩
    rw [List.mem_singleton, hg', Option.some_inj]
    exact eq_comm
  cases target with
  | name x =>
    obtain ⟨hne, hascending, hmem⟩ := (names_ofDefs only groups).1.groups? hgs
    exact ⟨hne, hascending, hexisting, fun g => (hmem g).trans (lists_ofDefs h only g x)⟩
  | number raw =>
    obtain ⟨hne, hascending, hmem⟩ := hnumber raw hgs
    exact ⟨hne, hascending, hexisting, hmem⟩
  | relative raw =>
    obtain ⟨hne, hascending, hmem⟩ := hnumber raw hgs
    exact ⟨hne, hascending, hexisting, hmem⟩

theorem bindReference_ok {n : Numbering} {span : Span} {t : Target} {gs : List Nat}
    (h : n.bindReference span t = .ok gs) : n.targets? t = some gs := by
  unfold bindReference at h
  split at h
  · rename_i hgs
    cases h
    exact hgs
  · cases h

/-- A call means the whole pattern or one group. -/
theorem bindCall_ok {n : Numbering} {span : Span} {t : Target} {g : Nat}
    (h : n.bindCall span t = .ok g) : t = .number 0 ∧ g = 0 ∨ n.targets? t = some [g] := by
  unfold bindCall at h
  split at h
  · rename_i ht
    cases h
    exact Or.inl ⟨ht, rfl⟩
  · split at h
    · rename_i hgs
      cases h
      exact Or.inr hgs
    · cases h
    · cases h

/-- What a bound node refers to was found in the numbering. -/
theorem bind_targets {n : Numbering} {m r : Node Span} (h : bind n m = .ok r) :
    (∀ {span target gs fold}, r = .atom span (.backref target gs fold) →
      n.targets? target = some gs) ∧
    (∀ {span target gs yes no}, r = .conditional span target gs yes no →
      n.targets? target = some gs) ∧
    ∀ {span target g}, r = .atom span (.call target g) →
      target = .number 0 ∧ g = 0 ∨ n.targets? target = some [g] := by
  cases m with
  | atom s a =>
    simp only [bind, Bind.bind, Except.bind] at h
    split at h
    · cases h
    · rename_i b hb
      cases h
      cases a with
      | backref t gs fold =>
        simp only [bindAtom, Bind.bind, Except.bind] at hb
        split at hb
        · cases hb
        · rename_i gs' hgs
          cases hb
          refine ⟨?_, by rintro _ _ _ _ _ ⟨⟩, by rintro _ _ _ ⟨⟩⟩
          rintro _ _ _ _ ⟨⟩
          exact bindReference_ok hgs
      | call t g =>
        simp only [bindAtom, Bind.bind, Except.bind] at hb
        split at hb
        · cases hb
        · rename_i g' hg
          cases hb
          refine ⟨by rintro _ _ _ _ ⟨⟩, by rintro _ _ _ _ _ ⟨⟩, ?_⟩
          rintro _ _ _ ⟨⟩
          exact bindCall_ok hg
      | _ =>
        cases hb
        exact ⟨by rintro _ _ _ _ ⟨⟩, by rintro _ _ _ _ _ ⟨⟩, by rintro _ _ _ ⟨⟩⟩
  | conditional s t gs yes no =>
    simp only [bind, Bind.bind, Except.bind] at h
    split at h
    · cases h
    · rename_i gs' hgs
      repeat' split at h
      all_goals cases h
      refine ⟨by rintro _ _ _ _ ⟨⟩, ?_, by rintro _ _ _ ⟨⟩⟩
      rintro _ _ _ _ _ ⟨⟩
      exact bindReference_ok hgs
  | _ =>
    simp only [bind, Bind.bind, Except.bind] at h
    split at h
    · cases h
    · cases h
      exact ⟨by rintro _ _ _ _ ⟨⟩, by rintro _ _ _ _ _ ⟨⟩, by rintro _ _ _ ⟨⟩⟩

/-- The groups of a tree are those that can have numbers. -/
theorem known_ofDefs {root : Node Span} (h : Recorded root.definitions groups) (only : Bool) {g : Nat}
    (hg : (ofDefs only groups).number? raw = some g) : raw ∈ root.groupNumbers := by
  obtain ⟨hpos, hnumber⟩ := number?_eq_some.mp hg
  have hlt := (Array.getElem?_eq_some_iff.mp hnumber).1
  rw [(ofDefs_complete only groups).1] at hlt
  rw [groupNumbers_definitions, h.mem_iff]
  exact ⟨hpos, by omega⟩

theorem number?_eq_none {root : Node Span} (h : Recorded root.definitions groups) (only : Bool)
    (hraw : raw ∈ root.groupNumbers) : (ofDefs only groups).number? raw = none ↔
      only = true ∧ ∀ d ∈ root.definitions, d.1 = raw → d.2 = none := by
  rw [groupNumbers_definitions, h.mem_iff] at hraw
  obtain ⟨hpos, hle⟩ := hraw
  have hdropped := dropped_ofDefs only groups (h.getElem? hpos hle)
  rw [Option.isNone_iff_eq_none, firstName_eq_none] at hdropped
  rw [← hdropped, number?, if_neg (by omega)]
  have hlt : raw - 1 < (ofDefs only groups).numbers.size := by
    rw [(ofDefs_complete only groups).1]
    omega
  rw [Array.getElem?_eq_getElem hlt, Option.some_inj]
  rfl

end Numbering

/-! ## Whole patterns -/

/-- How the groups of a pattern are numbered, its references bound and its names listed, where `root`
is the tree that was read, and `only` says that named groups alone capture. -/
structure Resolves (only : Bool) (root : Node Span) (number : Nat → Option Nat)
    (t : PatternTree Span) : Prop where
  /-- Only groups of the tree have numbers, and exactly the plain ones lose them. -/
  known : ∀ {raw g}, number raw = some g → raw ∈ root.groupNumbers
  dropped : ∀ raw ∈ root.groupNumbers, number raw = none ↔
    only = true ∧ ∀ d ∈ root.definitions, d.1 = raw → d.2 = none
  /-- The groups that are kept get the numbers from 1 on, in order. -/
  ascending : ∀ {raw raw' g g'}, raw < raw' → number raw = some g → number raw' = some g' → g < g'
  onto : ∀ g, (∃ raw, number raw = some g) ↔ 0 < g ∧ g ≤ t.captures
  renumbered : List.Forall₂ (Renumbers number) root.subtrees.toList t.root.subtrees.toList
  backrefs : ∀ {span target gs fold}, .atom span (.backref target gs fold) ∈ t.root.subtrees →
    BoundTo t.captures root.definitions number target gs
  conditionals : ∀ {span target gs yes no}, .conditional span target gs yes no ∈ t.root.subtrees →
    BoundTo t.captures root.definitions number target gs
  /-- A call of a group is bound to one that is defined in the tree. -/
  calls : ∀ {span target g}, .atom span (.call target g) ∈ t.root.subtrees →
    target = .number 0 ∧ g = 0 ∨
      BoundTo t.captures root.definitions number target [g] ∧ g ∈ t.root.groupNumbers
  names : t.names.Orderly
  listed : ∀ g x, t.names.Lists g x ↔ Denotes root.definitions number g (.name x)

theorem Numbering.bind_resolves {only : Bool} {root : Node Span} {t : PatternTree Span}
    (h : Recorded root.definitions groups) (hbind : (ofDefs only groups).bind root = .ok t.root)
    (hcaptures : t.captures = (ofDefs only groups).count)
    (hnames : t.names = (ofDefs only groups).names)
    (hdefined : ∀ g, 0 < g → g ≤ t.captures → g ∈ t.root.groupNumbers) :
    Resolves only root (ofDefs only groups).number? t where
  known := known_ofDefs h only
  dropped _ hraw := number?_eq_none h only hraw
  ascending hlt hg hg' := by
    obtain ⟨hpos, hg⟩ := number?_eq_some.mp hg
    obtain ⟨-, hg'⟩ := number?_eq_some.mp hg'
    exact ascending_ofDefs only groups _ _ _ _ (by omega) hg hg'
  onto g := by
    rw [hcaptures]
    constructor
    · rintro ⟨raw, hraw⟩
      exact (bounded_ofDefs only groups).number?_le hraw
    · rintro ⟨hpos, hle⟩
      obtain ⟨raw, -, -, hraw⟩ := exists_raw only groups hpos hle
      exact ⟨raw, hraw⟩
  renumbered := (bind_subtrees hbind).imp fun _ _ hk => bind_renumbers hk
  backrefs hmem := by
    obtain ⟨k, -, hk⟩ := bind_source hbind hmem
    rw [hcaptures]
    exact targets?_boundTo h ((bind_targets hk).1 rfl)
  conditionals hmem := by
    obtain ⟨k, -, hk⟩ := bind_source hbind hmem
    rw [hcaptures]
    exact targets?_boundTo h ((bind_targets hk).2.1 rfl)
  calls hmem := by
    obtain ⟨k, -, hk⟩ := bind_source hbind hmem
    rcases (bind_targets hk).2.2 rfl with hwhole | hgroup
    · exact Or.inl hwhole
    · have hbound := targets?_boundTo h hgroup
      rw [← hcaptures] at hbound
      obtain ⟨hpos, hle⟩ := hbound.existing _ (List.mem_singleton.mpr rfl)
      exact Or.inr ⟨hbound, hdefined _ hpos hle⟩
  names := hnames ▸ (names_ofDefs only groups).1
  listed g x := by
    rw [hnames]
    exact lists_ofDefs h only g x

/-- In every pattern that is accepted the groups are numbered, the references bound and the names
listed in this way. -/
theorem parse_resolves {s : Setting} {o : Options} {properties : PropertyRegistry}
    {t : PatternTree Span} (h : (parse s o properties).1 = .ok t) :
    ∃ root c, readPattern s.reading (Cursor.start o properties) = .ok root c ∧
      Resolves (onlyNamed s.dialect c) root
        (Numbering.ofDefs (onlyNamed s.dialect c) c.groups).number? t := by
  obtain ⟨root, c, hread, hresolve⟩ := parse_ok h
  obtain ⟨hbind, hcaptures, hnames⟩ := resolve_ok hresolve
  exact ⟨root, c, hread, Numbering.bind_resolves (readPattern_recorded hread) hbind hcaptures hnames
    (parse_defined h)⟩

/-! ## A name that is given late and listed first -/

/-- The pattern `(?|()(?<x>)|(?<y>))`, whose last name belongs to the first group. -/
def lateName : Setting := ⟨Bytes.ofString "(?|()(?<x>)|(?<y>))", .native, .ascii, .standard⟩

namespace lateName

/-- The cursor at a place in the pattern. -/
def place (pos depth count : Nat) (groups : Array GroupDef) (named : Bool) : Cursor :=
  ⟨pos, .empty, depth, count, groups, named, none, false, .empty⟩

def plainGroup : Array GroupDef := #[⟨none, true⟩]

/-- The groups after the first branch. -/
def opened : Array GroupDef := #[⟨none, true⟩, ⟨some "x", false⟩]

/-- The groups after the second branch, which gives a name to the first group. -/
def reopened : Array GroupDef := #[⟨some "y", false⟩, ⟨some "x", false⟩]

def emptyGroup (start stop raw : Nat) (name : Option String) : Node Span :=
  .group ⟨start, stop⟩ (.capture raw name) (.atom ⟨stop - 1, stop - 1⟩ .empty)

def firstBranch : Node Span :=
  .sequence ⟨3, 11⟩ [emptyGroup 3 5 1 none, emptyGroup 5 11 2 (some "x")]

def branches : Node Span :=
  .alternation ⟨3, 18⟩ [firstBranch, emptyGroup 12 18 1 (some "y")]

def root : Node Span := .group ⟨0, 19⟩ .plain branches

def tree : PatternTree Span := ⟨root, 2, ⟨[("y", [1]), ("x", [2])]⟩, false⟩

theorem run_step {α β : Type} {x : Parse α} {f : α → Parse β} {s : Reading} {c c' : Cursor} {a : α}
    {r : EStateM.Result Failure Cursor β} (h : x s c = .ok a c') (h' : f a s c' = r) :
    (x >>= f) s c = r :=
  (bind_run h).trans h'

/-- A small letter may begin a name. -/
theorem begins_name {x : Nat} (hlo : 0x61 ≤ x) (hhi : x ≤ 0x7A) :
    (false || !(Encoding.ascii.hasType x .word && !(true && Encoding.ascii.hasType x .digit))) =
      false := by
  rw [smallLetter_word hlo hhi, smallLetter_not_digit hlo hhi]
  rfl

-- Whether a letter belongs to a type is not evaluated but follows from what the type's table holds,
-- so the reading is put together around the two names.

theorem openX_run : readOpening 5 1 lateName.reading (place 5 1 1 plainGroup false) =
    .ok (.body (.group (.capture 2 (some "x"))) false .empty) (place 10 1 2 opened true) := by
  have hchars : nameChars '>' 8 5 false 11 lateName.reading (place 8 1 1 plainGroup false) =
      .ok false (place 9 1 1 plainGroup false) :=
    congrArg (EStateM.Result.ok · (place 9 1 1 plainGroup false))
      (begins_name (x := 0x78) (by decide) (by decide))
  have hname : readName '>' 5 lateName.reading (place 8 1 1 plainGroup false) =
      .ok "x" (place 10 1 1 plainGroup false) :=
    run_step rfl (run_step rfl (run_step hchars rfl))
  have hopen : openNamed '>' 5 lateName.reading (place 7 1 1 plainGroup false) =
      .ok (.body (.group (.capture 2 (some "x"))) false .empty) (place 10 1 2 opened true) :=
    run_step rfl (run_step hname (by with_unfolding_all rfl))
  exact hopen

theorem openY_run : readOpening 12 1 lateName.reading (place 12 1 0 opened true) =
    .ok (.body (.group (.capture 1 (some "y"))) false .empty) (place 17 1 1 reopened true) := by
  have hchars : nameChars '>' 15 12 false 4 lateName.reading (place 15 1 0 opened true) =
      .ok false (place 16 1 0 opened true) :=
    congrArg (EStateM.Result.ok · (place 16 1 0 opened true))
      (begins_name (x := 0x79) (by decide) (by decide))
  have hname : readName '>' 12 lateName.reading (place 15 1 0 opened true) =
      .ok "y" (place 17 1 0 opened true) :=
    run_step rfl (run_step rfl (run_step hchars rfl))
  have hopen : openNamed '>' 12 lateName.reading (place 14 1 0 opened true) =
      .ok (.body (.group (.capture 1 (some "y"))) false .empty) (place 17 1 1 reopened true) :=
    run_step rfl (run_step hname (by with_unfolding_all rfl))
  exact hopen

theorem firstBranch_run : readSequence 3 [] 80 lateName.reading (place 3 1 0 #[] false) =
    .ok firstBranch (place 11 1 2 opened true) := by
  have hpiece : readPiece (some (.opening, 1)) 78 lateName.reading (place 5 1 1 plainGroup false) =
      .ok (.node (emptyGroup 5 11 2 (some "x"))) (place 11 1 2 opened true) := by
    unfold readPiece
    exact run_step rfl (run_step openX_run rfl)
  have hrest : readSequence 3 [emptyGroup 3 5 1 none] 79 lateName.reading
      (place 5 1 1 plainGroup false) = .ok firstBranch (place 11 1 2 opened true) := by
    unfold readSequence
    exact run_step rfl (run_step rfl (run_step rfl (run_step rfl (run_step hpiece rfl))))
  unfold readSequence
  exact run_step rfl (run_step rfl (run_step rfl (run_step rfl (run_step rfl (run_step rfl hrest)))))

theorem lastBranch_run : readSequence 12 [] 79 lateName.reading (place 12 1 0 opened true) =
    .ok (emptyGroup 12 18 1 (some "y")) (place 18 1 1 reopened true) := by
  have hpiece : readPiece (some (.opening, 1)) 78 lateName.reading (place 12 1 0 opened true) =
      .ok (.node (emptyGroup 12 18 1 (some "y"))) (place 18 1 1 reopened true) := by
    unfold readPiece
    exact run_step rfl (run_step openY_run rfl)
  unfold readSequence
  exact run_step rfl (run_step rfl (run_step rfl (run_step rfl (run_step hpiece rfl))))

theorem branches_run : readBranches 3 0 0 true [] 81 lateName.reading (place 3 1 0 #[] false) =
    .ok branches (place 18 1 2 reopened true) := by
  have hlast : readBranches 3 0 2 true [firstBranch] 80 lateName.reading (place 12 1 2 opened true) =
      .ok branches (place 18 1 2 reopened true) := by
    unfold readBranches
    exact run_step rfl (run_step rfl (run_step lastBranch_run rfl))
  unfold readBranches
  exact run_step rfl (run_step rfl (run_step firstBranch_run hlast))

theorem root_run : readPattern lateName.reading (Cursor.start .empty .empty) =
    .ok root (place 19 0 2 reopened true) := by
  have hpiece : readPiece (some (.opening, 1)) 82 lateName.reading (Cursor.start .empty .empty) =
      .ok (.node root) (place 19 0 2 reopened true) := by
    unfold readPiece
    refine run_step rfl (run_step rfl (run_step rfl (run_step rfl ?_)))
    exact run_step rfl (run_step rfl (run_step rfl (run_step branches_run rfl)))
  have hsequence : readSequence 0 [] 83 lateName.reading (Cursor.start .empty .empty) =
      .ok root (place 19 0 2 reopened true) := by
    unfold readSequence
    exact run_step rfl (run_step rfl (run_step rfl (run_step rfl (run_step hpiece rfl))))
  have hall : readBranches 0 0 0 false [] 84 lateName.reading (Cursor.start .empty .empty) =
      .ok root (place 19 0 2 reopened true) := by
    unfold readBranches
    exact run_step rfl (run_step hsequence rfl)
  exact run_step rfl (run_step hall rfl)

theorem parsed : (parse lateName .empty .empty).1 = .ok tree := by
  unfold parse
  rw [root_run]
  with_unfolding_all rfl

end lateName

/-- Both groups are kept, and keep their numbers. -/
theorem lateName_resolves : (parse lateName .empty .empty).1 = .ok lateName.tree ∧
    ∃ root c, readPattern lateName.reading (Cursor.start .empty .empty) = .ok root c ∧
      Resolves (onlyNamed .native c) root
        (Numbering.ofDefs (onlyNamed .native c) c.groups).number? lateName.tree :=
  ⟨lateName.parsed, parse_resolves lateName.parsed⟩

/-- Names are not listed in the order in which they were given: `x` was given first, and `y` comes
first. -/
theorem lateName_listed_first :
    ∃ t root c, (parse lateName .empty .empty).1 = .ok t ∧
      readPattern lateName.reading (Cursor.start .empty .empty) = .ok root c ∧
      root.definitions = [(1, none), (2, some "x"), (1, some "y")] ∧
      t.names.entries = [("y", [1]), ("x", [2])] :=
  ⟨lateName.tree, lateName.root, _, lateName.parsed, lateName.root_run, rfl, rfl⟩

end RegexMachine.Pattern
