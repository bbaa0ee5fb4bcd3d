import RegexMachine.Proofs.WayFacts

/-!
Groups that have been entered stay entered, in whichever way a tree matches.
-/
namespace RegexMachine

namespace Captures

/-- Groups that have been entered stay entered. -/
def Opens (c d : Captures) : Prop :=
  ∀ g, ((c.slot? g).bind Slot.start).isSome → ((d.slot? g).bind Slot.start).isSome

theorem Opens.refl (c : Captures) : c.Opens c := fun _ h => h

theorem Opens.trans {c d d' : Captures} (h : c.Opens d) (h' : d.Opens d') : c.Opens d' :=
  fun g hg => h' g (h g hg)

theorem slot?_setSlot (c : Captures) (g : Nat) (s : Slot) (k : Nat) :
    (c.setSlot g s).slot? k = if k = g ∧ g < c.slots.size then some s else c.slot? k := by
  simp only [slot?, setSlot, Array.getElem?_setIfInBounds]
  by_cases hk : g = k
  · subst hk
    by_cases hg : g < c.slots.size
    · simp [hg]
    · simp [hg]
  · have : ¬ k = g := fun h => hk h.symm
    simp [hk, this]

@[simp] theorem size_setSlot (c : Captures) (g : Nat) (s : Slot) :
    (c.setSlot g s).slots.size = c.slots.size := by
  simp [setSlot]

@[simp] theorem size_setStart (c : Captures) (g : Nat) (start : Option Nat) :
    (c.setStart g start).slots.size = c.slots.size := by
  simp [setStart]

theorem slot?_lt {c : Captures} {g : Nat} {s : Slot} (h : c.slot? g = some s) :
    g < c.slots.size := (Array.getElem?_eq_some_iff.mp h).1

theorem slot?_setStart (c : Captures) (g : Nat) (start : Option Nat) (k : Nat) :
    (c.setStart g start).slot? k =
      if k = g then (c.slot? g).map fun s => { s with start := start } else c.slot? k := by
  simp only [slot?, setStart, Array.getElem?_modify]
  by_cases hk : g = k
  · subst hk
    simp
  · rw [if_neg hk, if_neg fun h => hk h.symm]

theorem opens_setStart (c : Captures) (g p : Nat) : c.Opens (c.setStart g (some p)) := by
  intro k hk
  rw [slot?_setStart]
  split
  · subst k
    cases hs : c.slot? g with
    | none => simp [hs] at hk
    | some s => rfl
  · exact hk

theorem history_closed (c : Captures) (g : Nat) (span : Span) (log : Bool) :
    (c.closed g span log).history = if log then (g, span) :: c.history else c.history := by
  cases log <;> rfl

theorem closed_eq (c : Captures) (g : Nat) (span : Span) (log : Bool) :
    c.closed g span log = ⟨c.slots.setIfInBounds g ⟨some span.start, some span⟩,
      (c.closed g span log).history⟩ := by
  cases log <;> rfl

theorem slot?_closed (c : Captures) (g : Nat) (span : Span) (log : Bool) (k : Nat) :
    (c.closed g span log).slot? k =
      if k = g ∧ g < c.slots.size then some ⟨some span.start, some span⟩ else c.slot? k := by
  rw [← slot?_setSlot]
  cases log <;> rfl

@[simp] theorem size_closed (c : Captures) (g : Nat) (span : Span) (log : Bool) :
    (c.closed g span log).slots.size = c.slots.size := by
  cases log <;> exact c.size_setSlot g _

theorem opens_close (c : Captures) (g stop : Nat) (log : Bool) : c.Opens (c.close g stop log) := by
  intro k hk
  unfold close
  split
  · exact hk
  · rw [slot?_closed]
    split
    · rfl
    · exact hk

end Captures

namespace Way

/-- Every way keeps groups entered. -/
def Opens (f : Way) : Prop := ∀ t r, r ∈ f t → t.captures.Opens r.captures

variable {f g : Way}

theorem Opens.andThen (hf : f.Opens) (hg : g.Opens) : (f.andThen g).Opens := by
  intro t r h
  obtain ⟨m, hm, hr⟩ := List.mem_flatMap.mp h
  exact (hf t m hm).trans (hg m r hr)

theorem Opens.orElse (hf : f.Opens) (hg : g.Opens) : (f.orElse g).Opens := fun t r h =>
  (List.mem_append.mp h).elim (hf t r) (hg t r)

theorem opens_stay : stay.Opens := fun t r h => by
  cases List.mem_singleton.mp h
  exact .refl _

theorem opens_text (width : Nat → Option Nat) : (text width).Opens := fun t r h => by
  obtain ⟨n, -, rfl⟩ := mem_text h
  exact .refl _

theorem opens_holds (p : Nat → Bool) : (holds p).Opens := fun t r h => by
  unfold holds at h
  split at h
  · cases List.mem_singleton.mp h
    exact .refl _
  · cases h

theorem Opens.times (hf : f.Opens) (n : Nat) : (f.times n).Opens := by
  induction n with
  | zero => exact opens_stay
  | succ n ih => exact hf.andThen ih

theorem Opens.upTo (hf : f.Opens) (greedy : Bool) (n : Nat) : (f.upTo greedy n).Opens := by
  induction n with
  | zero => exact opens_stay
  | succ n ih =>
    intro t r h
    rcases mem_prefer.mp h with h | h
    · exact hf.andThen ih t r h
    · exact opens_stay t r h

theorem Opens.star (hf : f.Opens) (size : Nat) (greedy : Bool) : Opens (f.star size greedy) := by
  intro t r h
  induction hn : size - t.pos using Nat.strongRecOn generalizing t with
  | _ n ih =>
    rw [star_eq] at h
    rcases mem_prefer.mp h with h | h
    · obtain ⟨m, hm, hr⟩ := List.mem_flatMap.mp h
      refine (hf t m hm).trans ?_
      unfold again at hr
      split at hr
      · exact ih (size - m.pos) (by omega) m hr rfl
      · exact opens_stay m r hr
    · exact opens_stay t r h

theorem Opens.plus (hf : f.Opens) (size : Nat) (greedy : Bool) : (f.plus size greedy).Opens := by
  intro t r h
  obtain ⟨m, hm, hr⟩ := List.mem_flatMap.mp h
  refine (hf t m hm).trans ?_
  split at hr
  · exact hf.star size greedy m r hr
  · exact opens_stay m r hr

theorem Opens.rounds (hf : f.Opens) (size : Nat) (b : Bounds) (greedy : Bool) :
    (f.rounds size b greedy).Opens := by
  unfold Way.rounds
  split
  · exact opens_stay
  · exact (hf.times _).andThen (hf.upTo greedy _)
  · split
    · exact hf.star size greedy
    · exact (hf.times _).andThen (hf.plus size greedy)

theorem Opens.first (hf : f.Opens) : f.first.Opens := fun t r h =>
  hf t r (List.mem_of_mem_take h)

theorem Opens.ahead (hf : f.Opens) : f.ahead.Opens := fun t r h => by
  obtain ⟨m, hm, rfl⟩ := List.mem_map.mp h
  exact hf.first t m hm

theorem opens_never (f : Way) : f.never.Opens := fun t r h => by
  unfold never at h
  split at h
  · cases List.mem_singleton.mp h
    exact .refl _
  · cases h

theorem Opens.capture (hf : f.Opens) (log : Bool) (g : Nat) : (f.capture log g).Opens := by
  intro t r h
  obtain ⟨m, hm, rfl⟩ := List.mem_map.mp h
  have hbody := hf { t with captures := t.captures.setStart g (some t.pos) } m hm
  exact ((t.captures.opens_setStart g t.pos).trans hbody).trans (m.captures.opens_close g m.pos log)

theorem Opens.behind (hf : f.Opens) (s : Subject) (min : Nat) (max : Option Nat) :
    (f.behind s min max).Opens := by
  intro t r h
  obtain ⟨p, -, hr⟩ := List.mem_flatMap.mp h
  exact hf { t with pos := p } r (List.mem_filter.mp hr).1

end Way

namespace Scene

variable (sc : Scene)

theorem atomWays_opens (a : Atom) : (sc.atomWays a).Opens := by
  cases a with
  | empty => exact Way.opens_stay
  | literal bytes fold =>
    rw [atomWays]
    exact Way.opens_text _
  | charClass ranges negated =>
    rw [atomWays]
    exact Way.opens_text _
  | charType type negated ascii =>
    rw [atomWays]
    exact Way.opens_text _
  | anyChar multiline =>
    rw [atomWays]
    exact Way.opens_text _
  | anchor a =>
    rw [atomWays]
    exact Way.opens_holds _
  | keep =>
    intro t r h
    cases List.mem_singleton.mp h
    exact .refl _
  | backref _ _ _ => exact fun _ _ h => nomatch h
  | call _ _ => exact fun _ _ h => nomatch h

theorem lookWays_opens (k : Look) (info : Info) {f : Way} (hf : f.Opens) :
    (sc.lookWays k info f).Opens := by
  unfold lookWays
  dsimp only
  split
  · exact Way.opens_never _
  · split
    · exact (hf.behind _ _ _).ahead
    · exact hf.ahead

mutual

theorem ways_opens : ∀ n : Node Measured, (sc.ways n).Opens
  | .atom _ a => by
    rw [ways]
    exact sc.atomWays_opens a
  | .repeated _ b mode body => by
    have hbody := (ways_opens body).rounds sc.subject.size b (mode != .lazy)
    rw [ways]
    split
    · exact hbody.first
    · exact hbody
  | .group _ (.capture g _) body => by
    rw [ways]
    exact (ways_opens body).capture sc.history g
  | .group _ .plain body => by
    rw [ways]
    exact ways_opens body
  | .group _ .atomic body => by
    rw [ways]
    exact (ways_opens body).first
  | .group _ .absent _ => by
    rw [ways]
    exact fun _ _ h => nomatch h
  | .conditional _ _ _ _ _ => by
    rw [ways]
    exact fun _ _ h => nomatch h
  | .look _ k body => by
    rw [ways]
    exact sc.lookWays_opens k body.info (ways_opens body)
  | .sequence _ items => by
    rw [ways]
    exact waysAll_opens items
  | .alternation _ [] => by
    rw [ways]
    exact Way.opens_stay
  | .alternation _ (n :: ns) => by
    rw [ways]
    exact (ways_opens n).orElse (waysSome_opens ns)

theorem waysAll_opens : ∀ ns : List (Node Measured), (sc.waysAll ns).Opens
  | [] => by
    rw [waysAll]
    exact Way.opens_stay
  | n :: ns => by
    rw [waysAll]
    exact (ways_opens n).andThen (waysAll_opens ns)

theorem waysSome_opens : ∀ ns : List (Node Measured), (sc.waysSome ns).Opens
  | [] => by
    rw [waysSome]
    exact fun _ _ h => nomatch h
  | n :: ns => by
    rw [waysSome]
    exact (ways_opens n).orElse (waysSome_opens ns)

end

end Scene
end RegexMachine
