import RegexMachine.Proofs.Effects
import RegexMachine.Proofs.Starts

/-!
Where the absent operator goes on. Its binary search ends at a boundary up to which the body matches
nowhere, and one character more makes a text in which it does. This is the last such boundary if a
text that is free of matches has none in its shorter parts either. Some bodies do not obey this: an
anchor at the end of the text may hold in the shorter one only, and so may a choice that no
alternatives leave.
-/
namespace RegexMachine

namespace Subject

variable {t : Subject} {hi : Nat}

theorem between_head {lo : Nat} (hb : t.isBoundary lo = true) (hle : lo ≤ hi) :
    (t.between lo hi)[0]? = some lo := by
  rw [between_append lo (Nat.le_refl lo) hle, between_self hb]
  rfl

/-- What comes after a boundary in the list of those up to the end. -/
theorem WellFormed.getElem?_between_succ (h : t.WellFormed) {lo k p : Nat}
    (hb : t.isBoundary lo = true) (hle : lo ≤ t.size) (hp : (t.between lo t.size)[k]? = some p) :
    (t.between lo t.size)[k + 1]? = if p < t.size then some (t.next p) else none := by
  rcases Nat.eq_or_lt_of_le hle with rfl | hlt
  · rw [between_self hb] at hp ⊢
    cases k with
    | zero =>
      obtain rfl : t.size = p := by simpa using hp
      simp
    | succ k => cases hp
  · obtain ⟨hnext, hnextle, -⟩ := h.next_spec hb hlt
    rw [h.between_next hb hlt hle] at hp ⊢
    rw [List.getElem?_cons_succ]
    cases k with
    | zero =>
      obtain rfl : lo = p := by simpa using hp
      rw [between_head hnext hnextle, if_pos hlt]
    | succ k => exact WellFormed.getElem?_between_succ h hnext hnextle hp
termination_by t.size - lo
decreasing_by
  have := lt_next t lo
  omega

end Subject

namespace Machine

variable {e : Setting} {r : Runner} {body ip a : Addr} {begun start stop p : Nat}
  {top : List Frame}

/-! ## The search for the end -/

theorem boundariesFrom_eq {t : Subject} (h : t.WellFormed) {i : Nat} (hb : t.isBoundary i = true)
    (hi : i ≤ t.size) (found : Array Nat) :
    (boundariesFrom t i found).toList = found.toList ++ t.between i t.size := by
  rw [boundariesFrom]
  split
  · rename_i hlt
    obtain ⟨hnext, hle, -⟩ := h.next_spec hb hlt
    rw [boundariesFrom_eq h hnext hle, h.between_next hb hlt hi]
    simp
  · obtain rfl : i = t.size := by omega
    simp [Subject.between_self hb]
termination_by t.size - i
decreasing_by
  have := Subject.lt_next t i
  omega

/-- The search keeps a free index below one that is blocked or out of range, until they meet. -/
theorem lastFree_ok {test : Nat → Except Halt Bool} {lo hi k : Nat} (hlt : lo < hi)
    (hlo : test lo = .ok false) (h : lastFree test lo hi = .ok k) :
    k < hi ∧ test k = .ok false ∧ (k + 1 = hi ∨ test (k + 1) = .ok true) := by
  rw [lastFree] at h
  split at h
  · dsimp only at h
    split at h
    · cases h
    · rename_i hmid
      obtain ⟨hk, hfree, hnext⟩ := lastFree_ok (by omega) hlo h
      refine ⟨by omega, hfree, Or.inr ?_⟩
      rcases hnext with heq | hnext
      · rw [heq, hmid]
      · exact hnext
    · rename_i hmid
      exact lastFree_ok (by omega) hmid h
  · cases h
    exact ⟨hlt, hlo, Or.inl (by omega)⟩
termination_by hi - lo
decreasing_by all_goals omega

theorem exists_lastFree {test : Nat → Except Halt Bool} {lo hi : Nat}
    (h : ∀ i, i < hi → ∃ found, test i = .ok found) : ∃ k, lastFree test lo hi = .ok k := by
  rw [lastFree]
  split
  · obtain ⟨found, hmid⟩ := h (lo + (hi - lo) / 2) (by omega)
    simp only [hmid]
    cases found with
    | true => exact exists_lastFree fun i hi => h i (by omega)
    | false => exact exists_lastFree h
  · exact ⟨lo, rfl⟩
termination_by hi - lo
decreasing_by all_goals omega

/-- The operator fails where the body matches the empty text; otherwise the end is looked for. -/
theorem absentEnd_ok {o : Option Nat} (h : absentEnd r e body begun start = .ok o) :
    (o = none ∧ blocked r e body begun start start = .ok true) ∨
    blocked r e body begun start start = .ok false ∧
      ∃ k, lastFree (fun i => blocked r e body begun start
          ((boundariesFrom e.subject start #[]).getD i start)) 0
          (boundariesFrom e.subject start #[]).size = .ok k ∧
        o = some ((boundariesFrom e.subject start #[]).getD k start) := by
  simp only [absentEnd, bind, Except.bind, pure, Except.pure] at h
  split at h
  · cases h
  · rename_i found hstart
    split at h
    · rename_i hfound
      cases h
      exact Or.inl ⟨rfl, by rw [hstart, hfound]⟩
    · rename_i hfound
      split at h
      · cases h
      · rename_i k hk
        cases h
        exact Or.inr ⟨by rw [hstart]; simpa using hfound, k, hk, rfl⟩

/-- The operator fails for no other reason than that the body matches the empty text. -/
theorem absentEnd_none : absentEnd r e body begun start = .ok none ↔
    blocked r e body begun start start = .ok true := by
  constructor
  · intro h
    rcases absentEnd_ok h with ⟨-, hstart⟩ | ⟨-, k, -, ho⟩
    · exact hstart
    · cases ho
  · intro h
    simp [absentEnd, bind, Except.bind, h, pure, Except.pure]

/-- The end is found if the body can be looked for in each of the parts. -/
theorem exists_absentEnd (hw : e.subject.WellFormed) (hb : e.subject.isBoundary start = true)
    (hs : start ≤ e.subject.size) (h : ∀ stop, start ≤ stop → stop ≤ e.subject.size →
      e.subject.isBoundary stop = true → ∃ found, blocked r e body begun start stop = .ok found) :
    ∃ o, absentEnd r e body begun start = .ok o := by
  obtain ⟨found, hstart⟩ := h start (Nat.le_refl start) hs hb
  cases found with
  | true => exact ⟨none, absentEnd_none.mpr hstart⟩
  | false =>
    obtain ⟨k, hk⟩ : ∃ k, lastFree (fun i => blocked r e body begun start
        ((boundariesFrom e.subject start #[]).getD i start)) 0
        (boundariesFrom e.subject start #[]).size = .ok k := by
      refine exists_lastFree fun i hi => ?_
      have hmem : (boundariesFrom e.subject start #[])[i] ∈ e.subject.between start e.subject.size := by
        have := Array.mem_toList_iff.mpr (Array.getElem_mem hi)
        rwa [boundariesFrom_eq hw hb hs] at this
      obtain ⟨⟨hle, hinside⟩, hboundary⟩ := Subject.mem_between.mp hmem
      simp only [Array.getD, hi, ↓reduceDIte]
      exact h _ hle hinside hboundary
    refine ⟨some ((boundariesFrom e.subject start #[]).getD k start), ?_⟩
    simp only [absentEnd, bind, Except.bind, hstart, hk, pure, Except.pure, Bool.false_eq_true, ↓reduceIte]

/-- A text from `start` on, made of whole characters, in which the body matches nowhere. -/
structure Free (r : Runner) (e : Setting) (body : Addr) (begun start stop : Nat) : Prop where
  le : start ≤ stop
  inside : stop ≤ e.subject.size
  boundary : e.subject.isBoundary stop = true
  clear : blocked r e body begun start stop = .ok false

/-- The operator goes on after a text that is free of matches. Either it ends the subject, or one
character more makes a text with a match. -/
theorem absentEnd_free (hw : e.subject.WellFormed) (hb : e.subject.isBoundary start = true)
    (hs : start ≤ e.subject.size) (h : absentEnd r e body begun start = .ok (some stop)) :
    Free r e body begun start stop ∧ (stop < e.subject.size →
      blocked r e body begun start (e.subject.next stop) = .ok true) := by
  rcases absentEnd_ok h with ⟨ho, -⟩ | ⟨hstart, k, hk, ho⟩
  · cases ho
  obtain ⟨cuts, hcuts⟩ : ∃ cuts, boundariesFrom e.subject start #[] = cuts := ⟨_, rfl⟩
  have hlist : cuts.toList = e.subject.between start e.subject.size := by
    rw [← hcuts, boundariesFrom_eq hw hb hs]
    rfl
  rw [hcuts] at hk ho
  obtain rfl := Option.some.inj ho
  have hhead : cuts[0]? = some start := by
    rw [← Array.getElem?_toList, hlist, Subject.between_head hb hs]
  have hsize : 0 < cuts.size := (Array.getElem?_eq_some_iff.mp hhead).1
  obtain ⟨hlt, hclear, hafter⟩ := lastFree_ok hsize (by simpa [hhead] using hstart) hk
  have hget : cuts[k]? = some (cuts.getD k start) := by simp [Array.getD, hlt]
  have hmem : cuts.getD k start ∈ e.subject.between start e.subject.size := by
    rw [← hlist]
    exact Array.mem_toList_iff.mpr (Array.mem_of_getElem? hget)
  obtain ⟨⟨hle, hinside⟩, hboundary⟩ := Subject.mem_between.mp hmem
  refine ⟨⟨hle, hinside, hboundary, hclear⟩, fun hend => ?_⟩
  have hnext : cuts[k + 1]? = some (e.subject.next (cuts.getD k start)) := by
    rw [← Array.getElem?_toList, hlist,
      hw.getElem?_between_succ hb hs (by rw [← hlist, Array.getElem?_toList, hget]), if_pos hend]
  rcases hafter with hlast | hblocked
  · have := (Array.getElem?_eq_some_iff.mp hnext).1
    omega
  · simpa [hnext] using hblocked

/-! ## Bodies whose matches last -/

/-- Where a text is free of matches, so are its shorter parts. -/
def Inherits (r : Runner) (e : Setting) (body : Addr) (begun start : Nat) : Prop :=
  ∀ p q, Free r e body begun start q → start ≤ p → p ≤ q → e.subject.isBoundary p = true →
    Free r e body begun start p

/-- The operator then takes the longest text that is free of matches. -/
theorem Inherits.absentEnd_longest (hi : Inherits r e body begun start) (hw : e.subject.WellFormed)
    (hb : e.subject.isBoundary start = true) (hs : start ≤ e.subject.size)
    (h : absentEnd r e body begun start = .ok (some stop)) (hp : Free r e body begun start p) :
    p ≤ stop := by
  obtain ⟨hstop, hafter⟩ := absentEnd_free hw hb hs h
  refine Nat.not_lt.mp fun hlt => ?_
  have hend := Nat.lt_of_lt_of_le hlt hp.inside
  obtain ⟨hnext, -, hgap⟩ := hw.next_spec hstop.boundary hend
  have hle : e.subject.next stop ≤ p := Nat.not_lt.mp fun hbetween => by
    have := hgap p hlt hbetween
    rw [hp.boundary] at this
    cases this
  have hfrom : start ≤ e.subject.next stop :=
    Nat.le_trans hstop.le (Nat.le_of_lt (Subject.lt_next _ stop))
  have hclear := (hi _ _ hp hfrom hle hnext).clear
  rw [hafter hend] at hclear
  cases hclear

/-- From the frame of an absent operator, texts are resumed that are shorter by one character, down to
the empty one. -/
theorem Resuming.absent_before (hw : e.subject.WellFormed) (hs : stop ≤ e.subject.size)
    (h : Resuming e (.absent ip start stop) a p top) :
    start ≤ p ∧ p < stop ∧ e.subject.isBoundary p = true ∧
      ∀ k, p < k → k < stop → e.subject.isBoundary k = false := by
  cases h with
  | absent hp htop =>
    obtain ⟨hprev, hle⟩ := Option.filter_eq_some_iff.mp hp
    have hlt := Subject.prev?_lt hprev
    obtain ⟨q, hq, hboundary, -, hgap⟩ := hw.prev?_spec (by omega) hs
    obtain rfl : q = p := Option.some.inj (hq.symm.trans hprev)
    exact ⟨by simpa using hle, hlt, hboundary, hgap⟩

/-- These texts are free of matches as well, as each of them is a part of the first. -/
theorem Inherits.resumed (hi : Inherits r e body begun start) (hw : e.subject.WellFormed)
    (hstop : Free r e body begun start stop) (h : Resuming e (.absent ip start stop) a p top) :
    Free r e body begun start p := by
  obtain ⟨hle, hlt, hboundary, -⟩ := h.absent_before hw hstop.inside
  exact hi _ _ hstop hle (Nat.le_of_lt hlt) hboundary

end Machine
end RegexMachine
