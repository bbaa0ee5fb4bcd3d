import RegexMachine.Proofs.Ways

/-!
Ways go forward, stay inside the subject, and end at places that do not depend on what has been
captured.
-/
namespace RegexMachine
namespace Way

/-- What every way has in common, in a subject of the size given. -/
structure Regular (size : Nat) (f : Way) : Prop where
  forward : ∀ t r, r ∈ f t → t.pos ≤ r.pos
  inside : ∀ t r, t.pos ≤ size → r ∈ f t → r.pos ≤ size
  /-- Where ways end depends on where they begin only. -/
  blind : ∀ t u, t.pos = u.pos → (f t).map Trail.pos = (f u).map Trail.pos

/-- Every way consumes something. -/
def Advances (size : Nat) (f : Way) : Prop := ∀ t r, t.pos ≤ size → r ∈ f t → t.pos < r.pos

variable {size : Nat} {f g : Way}

/-- Going on in ways that end at the same places leads to the same places. -/
theorem map_pos_flatMap {l l' : List Trail} {g g' : Way}
    (h : l.map Trail.pos = l'.map Trail.pos)
    (hg : ∀ r ∈ l, ∀ r' ∈ l', r.pos = r'.pos → (g r).map Trail.pos = (g' r').map Trail.pos) :
    (l.flatMap g).map Trail.pos = (l'.flatMap g').map Trail.pos := by
  induction l generalizing l' with
  | nil =>
    cases l' with
    | nil => rfl
    | cons r' l' => cases h
  | cons r l ih =>
    cases l' with
    | nil => cases h
    | cons r' l' =>
      simp only [List.map_cons, List.cons.injEq] at h
      have hrest := ih h.2 fun a ha b hb => hg a (by simp [ha]) b (by simp [hb])
      have hfirst := hg r (by simp) r' (by simp) h.1
      simp only [List.flatMap_cons, List.map_append, hfirst, hrest]

theorem mem_prefer {greedy : Bool} {more stop : List Trail} {r : Trail} :
    r ∈ prefer greedy more stop ↔ r ∈ more ∨ r ∈ stop := by
  unfold prefer
  split
  · exact List.mem_append
  · rw [List.mem_append, or_comm]

theorem map_prefer (greedy : Bool) (more stop : List Trail) :
    (prefer greedy more stop).map Trail.pos =
      if greedy then more.map Trail.pos ++ stop.map Trail.pos
      else stop.map Trail.pos ++ more.map Trail.pos := by
  unfold prefer
  split <;> exact List.map_append

theorem regular_stay (size : Nat) : Regular size stay where
  forward t r h := by
    cases List.mem_singleton.mp h
    exact Nat.le_refl _
  inside t r ht h := by
    cases List.mem_singleton.mp h
    exact ht
  blind t u h := by simp [stay, h]

theorem regular_none (size : Nat) : Regular size fun _ => [] where
  forward _ _ h := absurd h List.not_mem_nil
  inside _ _ _ h := absurd h List.not_mem_nil
  blind _ _ _ := rfl

theorem mem_text {width : Nat → Option Nat} {t r : Trail} (h : r ∈ text width t) :
    ∃ n, width t.pos = some n ∧ r = { t with pos := t.pos + n } := by
  unfold text at h
  split at h
  · cases h
  · exact ⟨_, by assumption, List.mem_singleton.mp h⟩

theorem regular_text {width : Nat → Option Nat}
    (hw : ∀ i n, i ≤ size → width i = some n → i + n ≤ size) : Regular size (text width) where
  forward t r h := by
    obtain ⟨n, _, rfl⟩ := mem_text h
    exact Nat.le_add_right _ _
  inside t r ht h := by
    obtain ⟨n, hn, rfl⟩ := mem_text h
    exact hw _ _ ht hn
  blind t u h := by
    unfold text
    rw [h]
    split <;> simp

theorem advances_text {width : Nat → Option Nat} (hw : ∀ i n, width i = some n → 0 < n) :
    Advances size (text width) := by
  intro t r _ h
  obtain ⟨n, hn, rfl⟩ := mem_text h
  exact Nat.lt_add_of_pos_right (hw _ _ hn)

theorem regular_holds (size : Nat) (p : Nat → Bool) : Regular size (holds p) where
  forward t r h := by
    unfold holds at h
    split at h
    · cases List.mem_singleton.mp h
      exact Nat.le_refl _
    · cases h
  inside t r ht h := by
    unfold holds at h
    split at h
    · cases List.mem_singleton.mp h
      exact ht
    · cases h
  blind t u h := by
    unfold holds
    rw [h]
    split
    · simp [h]
    · rfl

theorem Regular.andThen (hf : Regular size f) (hg : Regular size g) :
    Regular size (f.andThen g) where
  forward t r h := by
    obtain ⟨m, hm, hr⟩ := List.mem_flatMap.mp h
    exact Nat.le_trans (hf.forward t m hm) (hg.forward m r hr)
  inside t r ht h := by
    obtain ⟨m, hm, hr⟩ := List.mem_flatMap.mp h
    exact hg.inside m r (hf.inside t m ht hm) hr
  blind t u h := map_pos_flatMap (hf.blind t u h) fun r _ r' _ hp => hg.blind r r' hp

theorem Advances.andThen_left (hf : Advances size f) (hg : Regular size g) : Advances size (f.andThen g) := by
  intro t r ht h
  obtain ⟨m, hm, hr'⟩ := List.mem_flatMap.mp h
  exact Nat.lt_of_lt_of_le (hf t m ht hm) (hg.forward m r hr')

theorem Advances.andThen_right (hf : Regular size f) (hg : Advances size g) :
    Advances size (f.andThen g) := by
  intro t r ht h
  obtain ⟨m, hm, hr⟩ := List.mem_flatMap.mp h
  exact Nat.lt_of_le_of_lt (hf.forward t m hm) (hg m r (hf.inside t m ht hm) hr)

theorem Regular.orElse (hf : Regular size f) (hg : Regular size g) :
    Regular size (f.orElse g) where
  forward t r h := (List.mem_append.mp h).elim (hf.forward t r) (hg.forward t r)
  inside t r ht h := (List.mem_append.mp h).elim (hf.inside t r ht) (hg.inside t r ht)
  blind t u h := by
    unfold Way.orElse
    rw [List.map_append, List.map_append, hf.blind t u h, hg.blind t u h]

theorem Regular.times (hf : Regular size f) (n : Nat) : Regular size (f.times n) := by
  induction n with
  | zero => exact regular_stay size
  | succ n ih => exact hf.andThen ih

theorem Regular.upTo (hf : Regular size f) (greedy : Bool) (n : Nat) :
    Regular size (f.upTo greedy n) := by
  induction n with
  | zero => exact regular_stay size
  | succ n ih =>
    have hmore := hf.andThen ih
    have hstay := regular_stay size
    refine ⟨fun t r h => ?_, fun t r ht h => ?_, fun t u h => ?_⟩
    · exact (mem_prefer.mp h).elim (hmore.forward t r) (hstay.forward t r)
    · exact (mem_prefer.mp h).elim (hmore.inside t r ht) (hstay.inside t r ht)
    · simp only [Way.upTo, map_prefer, hmore.blind t u h]
      simp [h]

/-- The rounds of a star after the first. -/
def again (size : Nat) (greedy : Bool) (f : Way) (start : Nat) : Way := fun r =>
  if start < r.pos ∧ r.pos ≤ size then star size greedy f r else [r]

theorem star_eq (size : Nat) (greedy : Bool) (f : Way) (t : Trail) :
    star size greedy f t = prefer greedy ((f t).flatMap (again size greedy f t.pos)) [t] := by
  rw [star]
  rfl

theorem plus_eq (size : Nat) (greedy : Bool) (f : Way) (t : Trail) :
    plus size greedy f t = (f t).flatMap (again size greedy f t.pos) := rfl

theorem Regular.star (hf : Regular size f) (greedy : Bool) :
    Regular size (star size greedy f) where
  forward t r h := by
    induction hn : size - t.pos using Nat.strongRecOn generalizing t with
    | _ n ih =>
      rw [star_eq] at h
      rcases mem_prefer.mp h with h | h
      · obtain ⟨m, hm, hr⟩ := List.mem_flatMap.mp h
        have := hf.forward t m hm
        unfold again at hr
        split at hr
        · have := ih (size - m.pos) (by omega) m hr rfl
          omega
        · cases List.mem_singleton.mp hr
          exact this
      · cases List.mem_singleton.mp h
        exact Nat.le_refl _
  inside t r ht h := by
    induction hn : size - t.pos using Nat.strongRecOn generalizing t with
    | _ n ih =>
      rw [star_eq] at h
      rcases mem_prefer.mp h with h | h
      · obtain ⟨m, hm, hr⟩ := List.mem_flatMap.mp h
        have := hf.inside t m ht hm
        unfold again at hr
        split at hr
        · exact ih (size - m.pos) (by omega) m this hr rfl
        · cases List.mem_singleton.mp hr
          exact this
      · cases List.mem_singleton.mp h
        exact ht
  blind t u h := by
    induction hn : size - t.pos using Nat.strongRecOn generalizing t u with
    | _ n ih =>
      have hmore : ((f t).flatMap (again size greedy f t.pos)).map Trail.pos =
          ((f u).flatMap (again size greedy f u.pos)).map Trail.pos := by
        refine map_pos_flatMap (hf.blind t u h) fun r _ r' _ hp => ?_
        unfold again
        rw [← h, ← hp]
        split
        · exact ih (size - r.pos) (by omega) r r' hp rfl
        · simp [hp]
      simp only [star_eq, map_prefer, hmore]
      simp [h]

theorem Regular.again (hf : Regular size f) (greedy : Bool) (start : Nat) :
    Regular size (again size greedy f start) where
  forward t r h := by
    unfold Way.again at h
    split at h
    · exact (hf.star greedy).forward t r h
    · exact (regular_stay size).forward t r h
  inside t r ht h := by
    unfold Way.again at h
    split at h
    · exact (hf.star greedy).inside t r ht h
    · exact (regular_stay size).inside t r ht h
  blind t u h := by
    unfold Way.again
    rw [h]
    split
    · exact (hf.star greedy).blind t u h
    · simp [h]

theorem Regular.plus (hf : Regular size f) (greedy : Bool) : Regular size (plus size greedy f) where
  forward t r h := (hf.andThen (hf.again greedy t.pos)).forward t r h
  inside t r ht h := (hf.andThen (hf.again greedy t.pos)).inside t r ht h
  blind t u h := by
    simp only [plus_eq]
    rw [← h]
    exact (hf.andThen (hf.again greedy t.pos)).blind t u h

theorem Regular.rounds (hf : Regular size f) (b : Bounds) (greedy : Bool) :
    Regular size (rounds size b greedy f) := by
  unfold Way.rounds
  split
  · exact regular_stay size
  · exact (hf.times _).andThen (hf.upTo greedy _)
  · split
    · exact hf.star greedy
    · exact (hf.times _).andThen (hf.plus greedy)

theorem Regular.first (hf : Regular size f) : Regular size f.first where
  forward t r h := hf.forward t r (List.mem_of_mem_take h)
  inside t r ht h := hf.inside t r ht (List.mem_of_mem_take h)
  blind t u h := by
    unfold Way.first
    rw [List.map_take, List.map_take, hf.blind t u h]

theorem Regular.ahead (hf : Regular size f) : Regular size f.ahead where
  forward t r h := by
    obtain ⟨m, _, rfl⟩ := List.mem_map.mp h
    exact Nat.le_refl _
  inside t r ht h := by
    obtain ⟨m, _, rfl⟩ := List.mem_map.mp h
    exact ht
  blind t u h := by
    have := congrArg List.length (hf.first.blind t u h)
    simp only [List.length_map] at this
    simp only [Way.ahead, List.map_map]
    rw [show Trail.pos ∘ (fun r : Trail => { r with pos := t.pos }) = fun _ => t.pos from rfl,
      show Trail.pos ∘ (fun r : Trail => { r with pos := u.pos }) = fun _ => u.pos from rfl,
      List.map_const', List.map_const', this, h]

theorem Regular.never (hf : Regular size f) : Regular size f.never where
  forward t r h := by
    unfold Way.never at h
    split at h
    · exact (regular_stay size).forward t r h
    · cases h
  inside t r ht h := by
    unfold Way.never at h
    split at h
    · exact (regular_stay size).inside t r ht h
    · cases h
  blind t u h := by
    have := hf.blind t u h
    unfold Way.never
    rw [← List.isEmpty_map (f := Trail.pos), this, List.isEmpty_map]
    split
    · simp [h]
    · rfl

theorem Regular.capture (hf : Regular size f) (log : Bool) (g : Nat) :
    Regular size (f.capture log g) where
  forward t r h := by
    obtain ⟨m, hm, rfl⟩ := List.mem_map.mp h
    exact hf.forward { t with captures := t.captures.setStart g (some t.pos) } m hm
  inside t r ht h := by
    obtain ⟨m, hm, rfl⟩ := List.mem_map.mp h
    exact hf.inside { t with captures := t.captures.setStart g (some t.pos) } m ht hm
  blind t u h := by
    simp only [Way.capture, List.map_map]
    exact hf.blind _ _ h

theorem regular_behind (size : Nat) (s : Subject) (min : Nat) (max : Option Nat)
    (hf : Regular size f) : Regular size (f.behind s min max) where
  forward t r h := by
    obtain ⟨p, _, hr⟩ := List.mem_flatMap.mp h
    have := (List.mem_filter.mp hr).2
    simp only [beq_iff_eq] at this
    exact Nat.le_of_eq this.symm
  inside t r ht h := by
    obtain ⟨p, _, hr⟩ := List.mem_flatMap.mp h
    have := (List.mem_filter.mp hr).2
    simp only [beq_iff_eq] at this
    exact this ▸ ht
  blind t u h := by
    simp only [Way.behind, h, List.map_flatMap]
    congr 1
    funext p
    have hmap : ∀ l : List Trail, (l.filter (·.pos == u.pos)).map Trail.pos =
        (l.map Trail.pos).filter (· == u.pos) := fun l => by
      rw [List.filter_map]
      rfl
    rw [hmap, hmap, hf.blind { t with pos := p } { u with pos := p } rfl]

end Way
end RegexMachine
