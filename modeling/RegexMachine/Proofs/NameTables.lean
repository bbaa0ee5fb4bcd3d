import Mathlib.Data.List.Pairwise
import RegexMachine.Proofs.References

/-!
Tables of names. Groups are recorded in ascending order, so that every name stands for an ascending
list of groups, and the names stand in the order of their smallest groups.
-/
namespace RegexMachine.NameTable

/-- A group is recorded under a name. -/
def Lists (t : NameTable) (g : Nat) (x : String) : Prop := ∃ gs, (x, gs) ∈ t.entries ∧ g ∈ gs

/-- Every name stands once and for an ascending list of groups; one of its groups is smaller than all
those of the names after it. -/
structure Orderly (t : NameTable) : Prop where
  ascending : ∀ e ∈ t.entries, e.2 ≠ [] ∧ e.2.Pairwise (· < ·)
  ordered : t.entries.Pairwise fun e e' => e.1 ≠ e'.1 ∧ ∃ g ∈ e.2, ∀ g' ∈ e'.2, g < g'

variable {t : NameTable} {x : String} {g : Nat} {es : List (String × List Nat)}
  {e : String × List Nat}

/-- The entry of a name that is not new grows at its end. -/
theorem of_mem_insertInto (hnew : ∀ e ∈ es, ∀ k ∈ e.2, k < g) (he : e ∈ insertInto x g es) :
    e ∈ es ∨ e.1 = x ∧ ∃ gs, e.2 = gs ++ [g] ∧ (gs = [] ∨ (x, gs) ∈ es) := by
  induction es with
  | nil =>
    obtain rfl := List.mem_singleton.mp he
    exact Or.inr ⟨rfl, [], rfl, Or.inl rfl⟩
  | cons entry es ih =>
    obtain ⟨n, gs⟩ := entry
    unfold insertInto at he
    split at he
    · rename_i hname
      obtain rfl : n = x := beq_iff_eq.mp hname
      have hfresh : gs.contains g = false := by
        rw [Bool.eq_false_iff]
        intro h
        exact Nat.lt_irrefl g (hnew (n, gs) (by simp) g (List.contains_iff_mem.mp h))
      rw [hfresh] at he
      rcases List.mem_cons.mp he with rfl | he
      · exact Or.inr ⟨rfl, gs, rfl, Or.inr (by simp)⟩
      · exact Or.inl (List.mem_cons_of_mem _ he)
    · rcases List.mem_cons.mp he with rfl | he
      · exact Or.inl (by simp)
      · rcases ih (fun e he => hnew e (List.mem_cons_of_mem _ he)) he with he | ⟨hx, gs', hgs, hold⟩
        · exact Or.inl (List.mem_cons_of_mem _ he)
        · exact Or.inr ⟨hx, gs', hgs, hold.imp id (List.mem_cons_of_mem _)⟩

theorem insertInto_ordered (hnew : ∀ e ∈ es, ∀ k ∈ e.2, k < g) (hne : ∀ e ∈ es, e.2 ≠ [])
    (h : es.Pairwise fun e e' => e.1 ≠ e'.1 ∧ ∃ k ∈ e.2, ∀ k' ∈ e'.2, k < k') :
    (insertInto x g es).Pairwise fun e e' => e.1 ≠ e'.1 ∧ ∃ k ∈ e.2, ∀ k' ∈ e'.2, k < k' := by
  induction es with
  | nil => exact List.pairwise_singleton _ _
  | cons entry es ih =>
    obtain ⟨n, gs⟩ := entry
    obtain ⟨hhead, htail⟩ := List.pairwise_cons.mp h
    have hnew' : ∀ e ∈ es, ∀ k ∈ e.2, k < g := fun e he => hnew e (List.mem_cons_of_mem _ he)
    unfold insertInto
    split
    · refine List.pairwise_cons.mpr ⟨fun e' he' => ?_, htail⟩
      obtain ⟨hname, k, hk, hlt⟩ := hhead e' he'
      refine ⟨hname, k, ?_, hlt⟩
      dsimp only
      split
      · exact hk
      · exact List.mem_append_left _ hk
    · rename_i hname
      refine List.pairwise_cons.mpr ⟨fun e' he' => ?_,
        ih hnew' (fun e he => hne e (List.mem_cons_of_mem _ he)) htail⟩
      rcases of_mem_insertInto hnew' he' with he' | ⟨hx, gs', hgs, hold⟩
      · exact hhead e' he'
      · refine ⟨fun heq => hname (beq_iff_eq.mpr (heq.trans hx)), ?_⟩
        -- the smallest group of the head is below the old groups of the entry and the new one
        obtain ⟨k, hk, hlt⟩ : ∃ k ∈ gs, ∀ k' ∈ gs', k < k' := by
          rcases hold with rfl | hold
          · obtain ⟨k, hk⟩ := List.exists_mem_of_ne_nil gs (hne (n, gs) (by simp))
            exact ⟨k, hk, by simp⟩
          · exact (hhead (x, gs') hold).2
        refine ⟨k, hk, fun k' hk' => ?_⟩
        rw [hgs, List.mem_append, List.mem_singleton] at hk'
        rcases hk' with hk' | rfl
        · exact hlt k' hk'
        · exact hnew (n, gs) (by simp) k hk

theorem Orderly.insert (h : t.Orderly) (hnew : ∀ e ∈ t.entries, ∀ k ∈ e.2, k < g) :
    (t.insert x g).Orderly where
  ascending e he := by
    rcases of_mem_insertInto hnew he with he | ⟨-, gs, hgs, hold⟩
    · exact h.ascending e he
    · rw [hgs]
      refine ⟨by simp, List.pairwise_append.mpr ⟨?_, List.pairwise_singleton _ _, fun k hk k' hk' => ?_⟩⟩
      · rcases hold with rfl | hold
        · exact .nil
        · exact (h.ascending _ hold).2
      · obtain rfl := List.mem_singleton.mp hk'
        rcases hold with rfl | hold
        · cases hk
        · exact hnew _ hold k hk
  ordered := insertInto_ordered hnew (fun e he => (h.ascending e he).1) h.ordered

theorem lists_insert {k : Nat} {y : String} :
    (t.insert x g).Lists k y ↔ t.Lists k y ∨ k = g ∧ y = x := by
  have hentries (es : List (String × List Nat)) :
      (∃ gs, (y, gs) ∈ insertInto x g es ∧ k ∈ gs) ↔
        (∃ gs, (y, gs) ∈ es ∧ k ∈ gs) ∨ k = g ∧ y = x := by
    induction es with
    | nil => simp [insertInto, and_comm]
    | cons entry es ih =>
      obtain ⟨n, gs⟩ := entry
      unfold insertInto
      split
      · rename_i hname
        obtain rfl : n = x := beq_iff_eq.mp hname
        have hgrown : (k ∈ if gs.contains g then gs else gs ++ [g]) ↔ k ∈ gs ∨ k = g := by
          split
          · rename_i hold
            have := List.contains_iff_mem.mp hold
            exact ⟨Or.inl, fun h => h.elim id fun h => h ▸ this⟩
          · rw [List.mem_append, List.mem_singleton]
        constructor
        · rintro ⟨gs', hmem, hk⟩
          rcases List.mem_cons.mp hmem with heq | hmem
          · obtain ⟨rfl, rfl⟩ := Prod.mk.inj heq
            exact (hgrown.mp hk).imp (fun hk => ⟨gs, by simp, hk⟩) fun hk => ⟨hk, rfl⟩
          · exact Or.inl ⟨gs', List.mem_cons_of_mem _ hmem, hk⟩
        · rintro (⟨gs', hmem, hk⟩ | ⟨rfl, rfl⟩)
          · rcases List.mem_cons.mp hmem with heq | hmem
            · obtain ⟨rfl, rfl⟩ := Prod.mk.inj heq
              exact ⟨_, by simp, hgrown.mpr (Or.inl hk)⟩
            · exact ⟨gs', List.mem_cons_of_mem _ hmem, hk⟩
          · exact ⟨_, by simp, hgrown.mpr (Or.inr rfl)⟩
      · simp only [List.mem_cons, or_and_right, exists_or, ih, or_assoc]
  exact hentries t.entries

/-- What a name stands for: all groups recorded under it, in ascending order. -/
theorem Orderly.groups? (h : t.Orderly) {gs : List Nat} (hgs : t.groups? x = some gs) :
    gs ≠ [] ∧ gs.Pairwise (· < ·) ∧ ∀ k, k ∈ gs ↔ t.Lists k x := by
  obtain ⟨es, es', hentries, -⟩ := List.lookup_eq_some_iff.mp hgs
  have hmem : (x, gs) ∈ t.entries := by
    rw [hentries]
    simp
  refine ⟨(h.ascending _ hmem).1, (h.ascending _ hmem).2, fun k => ⟨fun hk => ⟨gs, hmem, hk⟩, ?_⟩⟩
  rintro ⟨gs', hmem', hk⟩
  by_cases heq : (x, gs') = (x, gs)
  · obtain rfl := (Prod.mk.inj heq).2
    exact hk
  · have hnames : t.entries.Pairwise fun e e' => e.1 ≠ e'.1 := h.ordered.imp And.left
    have hsymm : Std.Symm fun e e' : String × List Nat => e.1 ≠ e'.1 := ⟨fun _ _ => Ne.symm⟩
    have hne : (x, gs').1 ≠ (x, gs).1 := hnames.forall hmem' hmem heq
    exact absurd rfl hne

end RegexMachine.NameTable
