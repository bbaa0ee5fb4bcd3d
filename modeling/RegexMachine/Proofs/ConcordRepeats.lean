import RegexMachine.Proofs.ConcordWheels
import RegexMachine.Proofs.Replanning

/-!
Repeats in concord. Two repeats of one plan are in concord whatever their bodies are. Where bodies
cannot be empty the plans may differ, as long as both say the same bounds.
-/
namespace RegexMachine

namespace Machine

variable {e e' : Setting} {O : Observer e e'} {N hi hi' n : Nat} {z z' : Zone} {x x' y y' o w u : Nat}
  {p p' : Program} {B B' : Built} {greedy : Bool} {info : Info} {body body' : Part} {f f' : Way}
  {later : Nat → Prop} {Round Round' : Zone → Addr → Addr → Prop} {skips : Prop} {r : Nat}
  {k : Option Nat} {b : Bounds}

/-! ## Copies -/

theorem ascends_times (hbody : Ascends body) (n : Nat) : Ascends (Built.TimesAt f body n) := by
  induction n with
  | zero =>
    rintro later z x y rfl
    exact Nat.le_refl x
  | succ n ih =>
    rintro later z x y ⟨w, hfirst, hrest⟩
    exact Nat.le_trans (hbody hfirst) (ih hrest)

theorem ascends_upTo (hbody : Ascends body) (n : Nat) : Ascends (B.UpToAt greedy f body n) := by
  induction n with
  | zero =>
    rintro later z x y rfl
    exact Nat.le_refl x
  | succ n ih =>
    rintro later z x y ⟨o, w, hoffer, hfirst, hrest⟩
    exact Nat.le_trans (Nat.le_of_lt (offerAt_lt hoffer)) (Nat.le_trans (hbody hfirst) (ih hrest))

/-- One more round is required by a copy in front. -/
theorem IsWheel.copy (h : IsWheel e hi z greedy Round skips r k w y) (hround : Round z x w)
    (hskips : ¬ skips) (hxw : x ≤ w) (hwy : w ≤ y) :
    IsWheel e hi z greedy Round skips (r + 1) k x y := by
  intro s depth hfree
  obtain ⟨W, hW⟩ := h s depth (hfree.inside hxw (Nat.le_refl y))
  have hclear : s.Clears depth x w := hfree.inside (Nat.le_refl x) hwy
  refine ⟨{
    Head := fun r' k' c => W.Head r' k' c ∨ r' = r + 1 ∧ k' = k ∧ c.ip = x ∧ c.regs.depth = depth ∧
      c.regs.counts.size = e.program.tables.loops.size
    required := ?_
    done := fun h => h.elim W.done fun h => nomatch h.1
    choice := ?_ }, fun c hip hdepth hroom => .inr ⟨rfl, rfl, hip, hdepth, hroom⟩⟩
  · rintro r' k' c (hhead | ⟨hr, rfl, rfl, rfl, hroom⟩)
    · obtain ⟨d, hglide, hslip, hroll⟩ := W.required hhead
      exact ⟨d, hglide, hslip, hroll.mono fun _ => .inl⟩
    · obtain rfl : r' = r := by omega
      refine ⟨c, .refl c, .moved e hi z c c.ip, .intro hround hclear (Nat.le_refl _) (Nat.le_refl _)
        (fun hs => absurd hs hskips) fun b hb hdepth hsize _ => .inl ?_⟩
      exact hW b hb hdepth (hsize.trans hroom)
  · rintro k' c hne (hhead | ⟨hr, -⟩)
    · obtain ⟨b, d, o, a, hslip, hroll, hrest⟩ := W.choice hne hhead
      exact ⟨b, d, o, a, hslip, hroll.mono fun _ => .inl, hrest⟩
    · cases hr

/-- One more round is allowed by an optional copy in front. -/
theorem IsWheel.offer {m : Nat} (h : IsWheel e hi z greedy Round skips 0 (some m) w y)
    (hB : B.code = e.program.code) (hoffer : B.OfferAt greedy y x o) (hround : Round z o w)
    (hskips : ¬ skips) (how : o ≤ w) (hwy : w ≤ y) :
    IsWheel e hi z greedy Round skips 0 (some (m + 1)) x y := by
  intro s depth hfree
  have hxo : x < o := offerAt_lt hoffer
  obtain ⟨W, hW⟩ := h s depth
    (hfree.inside (Nat.le_trans (Nat.le_of_lt hxo) how) (Nat.le_refl y))
  have hclear : s.Clears depth o w := hfree.inside (Nat.le_of_lt hxo) hwy
  refine ⟨{
    Head := fun r' k' c => W.Head r' k' c ∨ r' = 0 ∧ k' = some (m + 1) ∧ c.ip = x ∧
      c.regs.depth = depth ∧ c.regs.counts.size = e.program.tables.loops.size
    required := ?_
    done := fun h => h.elim W.done fun h => nomatch h.2.1
    choice := ?_ }, fun c hip hdepth hroom => .inr ⟨rfl, rfl, hip, hdepth, hroom⟩⟩
  · rintro r' k' c (hhead | ⟨hr, -⟩)
    · obtain ⟨d, hglide, hslip, hroll⟩ := W.required hhead
      exact ⟨d, hglide, hslip, hroll.mono fun _ => .inl⟩
    · cases hr
  · rintro k' c hne (hhead | ⟨-, rfl, hip, rfl, hroom⟩)
    · obtain ⟨b, d, o, a, hslip, hroll, hrest⟩ := W.choice hne hhead
      exact ⟨b, d, o, a, hslip, hroll.mono fun _ => .inl, hrest⟩
    · obtain ⟨b, a, hstep, hglide, hback⟩ := offers_offerAt hB hoffer hip
        (hfree.inside (Nat.le_refl x) (Nat.le_trans how hwy))
      refine ⟨b, c, o, a, .moved e hi z c c.ip, .intro hround hclear (Nat.le_refl _) (Nat.le_refl _)
        (fun hs => absurd hs hskips) fun b hb hdepth hsize _ => .inl ?_, hstep, hglide, hback⟩
      exact hW b hb hdepth (hsize.trans hroom)

/-- Where no rounds are left there is nothing to do. -/
theorem isWheel_nothing : IsWheel e hi z greedy Round skips 0 (some 0) x x := by
  intro s depth _
  exact ⟨{
    Head := fun r k c => r = 0 ∧ k = some 0 ∧ c.ip = x
    required := fun h => nomatch h.1
    done := fun {c} h => ⟨c, .refl c, .moved e hi z c c.ip, h.2.2⟩
    choice := fun hne h => absurd h.2.1 hne }, fun _ hip _ _ => ⟨rfl, rfl, hip⟩⟩

theorem isWheel_times (hbody : Ascends body) (hmin : 0 < info.minChars) (n : Nat)
    (h : Built.TimesAt f body n none later z x w) (hwy : w ≤ y)
    (hrest : IsWheel e hi z greedy (Laps B info body) (info.minChars = 0) r k w y) :
    IsWheel e hi z greedy (Laps B info body) (info.minChars = 0) (r + n) k x y := by
  induction n generalizing x later with
  | zero =>
    obtain rfl : x = w := h
    exact hrest
  | succ n ih =>
    obtain ⟨u, hfirst, htimes⟩ := h
    have huw : u ≤ w := ascends_times hbody n htimes
    exact (ih htimes).copy (laps_body hmin hfirst) (Nat.ne_of_gt hmin) (hbody hfirst)
      (Nat.le_trans huw hwy)

theorem isWheel_upTo (hB : B.code = e.program.code) (hbody : Ascends body) (hmin : 0 < info.minChars)
    (n : Nat) (h : B.UpToAt greedy f body n none later z x y) :
    IsWheel e hi z greedy (Laps B info body) (info.minChars = 0) 0 (some n) x y := by
  induction n generalizing x later with
  | zero =>
    obtain rfl : x = y := h
    exact isWheel_nothing
  | succ n ih =>
    obtain ⟨o, w, hoffer, hfirst, hrest⟩ := h
    exact (ih hrest).offer hB hoffer (laps_body hmin hfirst) (Nat.ne_of_gt hmin) (hbody hfirst)
      (ascends_upTo hbody n hrest)

/-! ## Repeats -/

theorem ascends_star (hbody : Ascends body) : Ascends (B.StarAt greedy info f body) := by
  rintro later z x y ⟨g, o, w, hguard, hoffer, hround, -, rfl⟩
  obtain rfl := guardAt_none hguard
  have how : o ≤ w := ascends_round hbody hround
  exact Nat.le_succ_of_le (Nat.le_trans (Nat.le_of_lt (offerAt_lt hoffer)) how)

theorem ascends_plus (hbody : Ascends body) : Ascends (B.PlusAt greedy info f body) := by
  intro later z x y h
  unfold Built.PlusAt at h
  cases greedy with
  | true =>
    obtain ⟨g, w, -, hguard, -, hround, -, rfl⟩ := h
    obtain rfl := guardAt_none hguard
    have hle : x + 1 + 1 ≤ w := ascends_round hbody hround
    exact Nat.le_succ_of_le (Nat.le_of_succ_le (Nat.le_of_succ_le hle))
  | false =>
    obtain ⟨g, w, hguard, hround, -, rfl⟩ := h
    obtain rfl := guardAt_none hguard
    exact Nat.le_succ_of_le (ascends_round hbody hround)

theorem ascends_unrolled (hbody : Ascends body) : Ascends (B.UnrolledAt b greedy info f body) := by
  intro later z x y h
  unfold Built.UnrolledAt at h
  split at h
  · obtain ⟨w, hfirst, hrest⟩ := h
    exact Nat.le_trans (ascends_times hbody _ hfirst) (ascends_plus hbody hrest)
  · obtain ⟨w, hfirst, hrest⟩ := h
    exact Nat.le_trans (ascends_times hbody _ hfirst) (ascends_upTo hbody _ hrest)

theorem ascends_counted (hbody : Ascends body) : Ascends (B.CountedAt b greedy info body) := by
  rintro later z x y ⟨id, w, -, -, -, hround, -, rfl⟩
  have hle : x + 1 ≤ w := ascends_round hbody hround
  exact Nat.le_succ_of_le (Nat.le_of_succ_le hle)

theorem ascends_repeat (hbody : Ascends body) (plan : RepeatPlan) :
    Ascends (B.RepeatAt b greedy plan info f body) := by
  cases plan with
  | skip =>
    rintro later z x y rfl
    exact Nat.le_refl x
  | optional => exact ascends_upTo hbody 1
  | star => exact ascends_star hbody
  | plus => exact ascends_plus hbody
  | unroll => exact ascends_unrolled hbody
  | counted => exact ascends_counted hbody

/-- Required copies, and a loop or optional copies after them. -/
theorem isWheel_unrolled (hB : B.code = e.program.code) (hbody : Ascends body)
    (hmin : 0 < info.minChars) (hmeans : b ≠ ⟨0, none⟩)
    (h : B.UnrolledAt b greedy info f body none later z x y) :
    IsWheel e hi z greedy (Laps B info body) (info.minChars = 0) b.min
      (b.max.map (· - b.min)) x y := by
  unfold Built.UnrolledAt at h
  cases hm : b.max with
  | none =>
    rw [hm] at h
    obtain ⟨w, hfirst, hrest⟩ := h
    have hpos : b.min ≠ 0 := fun h0 => hmeans (congrArg₂ Bounds.mk h0 hm)
    have hcount : b.min = 1 + (b.min - 1) := by omega
    rw [Option.map_none, hcount]
    exact isWheel_times hbody hmin _ hfirst (ascends_plus hbody hrest) (isWheel_plus hB hbody hrest)
  | some m =>
    rw [hm] at h
    obtain ⟨w, hfirst, hrest⟩ := h
    have hcount : b.min = 0 + b.min := (Nat.zero_add _).symm
    rw [Option.map_some, hcount]
    exact isWheel_times hbody hmin _ hfirst (ascends_upTo hbody _ hrest)
      (hcount ▸ isWheel_upTo hB hbody hmin _ hrest)

/-- Whatever the plan, the numbers at the start are those of the bounds. -/
theorem isWheel_repeat {plan : RepeatPlan} (hB : B.code = e.program.code)
    (hloops : ∀ (id : Nat) l, B.loops[id]? = some l → id < hi ∧ e.program.tables.loops[id]? = some l)
    (hbody : Ascends body) (hmin : 0 < info.minChars) (hb : b.Allows) (hmeans : plan.Means b)
    (h : B.RepeatAt b greedy plan info f body none later z x y) :
    IsWheel e hi z greedy (Laps B info body) (info.minChars = 0) b.min
      (b.max.map (· - b.min)) x y := by
  cases plan with
  | skip => exact absurd hmeans hb.round
  | optional =>
    obtain rfl : b = ⟨0, some 1⟩ := hmeans
    exact isWheel_upTo hB hbody hmin 1 h
  | star =>
    obtain rfl : b = ⟨0, none⟩ := hmeans
    exact isWheel_star hB hbody h
  | plus =>
    obtain rfl : b = ⟨1, none⟩ := hmeans
    exact isWheel_plus hB hbody h
  | unroll => exact isWheel_unrolled hB hbody hmin hmeans h
  | counted =>
    have hleast : b.least = b.min := by
      cases hm : b.max with
      | none => simp only [Bounds.least, hm]
      | some m =>
        simp only [Bounds.least, hm]
        exact Nat.min_eq_left (hb.order m hm)
    have := isWheel_counted hB hloops hbody hb.round h
    rwa [Bounds.more_zero, hleast] at this

/-! ## In two programs -/

/-- Code of two programs that is written in the same layout. Its loops have numbers below `hi`. -/
structure Siblings (p p' : Program) (B B' : Built) (hi hi' : Nat) : Prop where
  code : B.code = p.code
  code' : B'.code = p'.code
  layout : B'.layout = B.layout
  loops : ∀ (id : Nat) l, B.loops[id]? = some l → id < hi ∧ p.tables.loops[id]? = some l
  loops' : ∀ (id : Nat) l, B'.loops[id]? = some l → id < hi' ∧ p'.tables.loops[id]? = some l

/-- An offer to leave, and what comes after it if it is declined. -/
theorem Concur.offer {o' : Nat} (hB : B.code = e.program.code) (hB' : B'.code = e'.program.code)
    (hoffer : B.OfferAt greedy y x o) (hoffer' : B'.OfferAt greedy y' x' o')
    (h : Concur O N hi hi' z z' o o' y y') (ho : o ≤ y) (ho' : o' ≤ y') :
    Concur O N hi hi' z z' x x' y y' := by
  have hlt : x < o := offerAt_lt hoffer
  have hlt' : x' < o' := offerAt_lt hoffer'
  unfold Built.OfferAt at hoffer hoffer'
  rw [hB] at hoffer
  rw [hB'] at hoffer'
  cases greedy with
  | true =>
    obtain ⟨hfork, rfl⟩ := hoffer
    obtain ⟨hfork', rfl⟩ := hoffer'
    exact .fork hfork hfork' h .stay (Nat.lt_of_lt_of_le hlt ho) (Nat.le_refl y)
      (Nat.lt_of_lt_of_le hlt' ho') (Nat.le_refl y')
  | false =>
    obtain ⟨hfork, hjump, rfl⟩ := hoffer
    obtain ⟨hfork', hjump', rfl⟩ := hoffer'
    exact .fork hfork hfork' (.jump hjump hjump' ho ho') h hlt ho hlt' ho'

theorem Accords.mono {M : Nat} {part part' : Part} (h : Accords p p' N hi hi' part part')
    (hM : M ≤ N) : Accords p p' M hi hi' part part' :=
  ⟨h.ascends, h.ascends', fun _ _ O he he' hpair _ _ _ _ _ _ _ _ hpart hpart' =>
    (h.concur O he he' hpair hpart hpart').mono hM⟩

/-- Code that is of one shape wherever it is of another. -/
theorem Accords.imp {part part' q q' : Part} (h : Accords p p' N hi hi' part part')
    (hq : ∀ later z x y, q none later z x y → part none later z x y)
    (hq' : ∀ later z x y, q' none later z x y → part' none later z x y) :
    Accords p p' N hi hi' q q' :=
  ⟨fun _ _ _ _ hpart => h.ascends (hq _ _ _ _ hpart), fun _ _ _ _ hpart => h.ascends' (hq' _ _ _ _ hpart),
    fun _ _ O he he' hpair _ _ _ _ _ _ _ _ hpart hpart' =>
      h.concur O he he' hpair (hq _ _ _ _ hpart) (hq' _ _ _ _ hpart')⟩

theorem accords_nothing {q q' : Addr → Addr → Prop} (hq : ∀ x y, q x y → x = y)
    (hq' : ∀ x y, q' x y → x = y) :
    Accords p p' N hi hi' (fun _ _ _ x y => q x y) (fun _ _ _ x y => q' x y) := by
  refine ⟨fun _ _ x y h => Nat.le_of_eq (hq x y h), fun _ _ x y h => Nat.le_of_eq (hq' x y h), ?_⟩
  intro e e' O _ _ _ _ _ z z' x x' y y' h h'
  obtain rfl := hq x y h
  obtain rfl := hq' x' y' h'
  exact .stay

namespace Siblings

variable (T : Siblings p p' B B' hi hi') (h : Accords p p' N hi hi' body body')
include T h

/-- Code of two shapes is in concord if it is a wheel that starts with the same numbers. -/
theorem wheels {part part' : Part} (hascends : Ascends part) (hascends' : Ascends part')
    (hwheel : ∀ (e : Setting), e.program = p → ∀ later z x y, part none later z x y →
      IsWheel e hi z greedy (Laps B info body) (info.minChars = 0) r k x y)
    (hwheel' : ∀ (e' : Setting), e'.program = p' → ∀ later z x y, part' none later z x y →
      IsWheel e' hi' z greedy (Laps B' info body') (info.minChars = 0) r k x y) :
    Accords p p' N hi hi' part part' := by
  refine ⟨hascends, hascends', ?_⟩
  rintro e e' O rfl rfl hpair later later' z z' x x' y y' hpart hpart'
  exact (hwheel e rfl later z x y hpart).concur (hwheel' e' rfl later' z' x' y' hpart')
    (turns_laps T.code T.code' T.layout hpair h)

theorem star : Accords p p' N hi hi' (B.StarAt greedy info f body) (B'.StarAt greedy info f' body') :=
  T.wheels h (ascends_star h.ascends) (ascends_star h.ascends')
    (fun _ he _ _ _ _ hpart => isWheel_star (he ▸ T.code) h.ascends hpart)
    fun _ he _ _ _ _ hpart => isWheel_star (he ▸ T.code') h.ascends' hpart

theorem plus : Accords p p' N hi hi' (B.PlusAt greedy info f body) (B'.PlusAt greedy info f' body') :=
  T.wheels h (ascends_plus h.ascends) (ascends_plus h.ascends')
    (fun _ he _ _ _ _ hpart => isWheel_plus (he ▸ T.code) h.ascends hpart)
    fun _ he _ _ _ _ hpart => isWheel_plus (he ▸ T.code') h.ascends' hpart

theorem counted (hmax : b.max ≠ some 0) :
    Accords p p' N hi hi' (B.CountedAt b greedy info body) (B'.CountedAt b greedy info body') :=
  T.wheels h (ascends_counted h.ascends) (ascends_counted h.ascends')
    (fun _ he _ _ _ _ hpart =>
      isWheel_counted (he ▸ T.code) (he ▸ T.loops) h.ascends hmax hpart)
    fun _ he _ _ _ _ hpart => isWheel_counted (he ▸ T.code') (he ▸ T.loops') h.ascends' hmax hpart

omit T in
theorem times (n : Nat) :
    Accords p p' N hi hi' (Built.TimesAt f body n) (Built.TimesAt f' body' n) := by
  induction n with
  | zero => exact accords_nothing (fun _ _ => id) fun _ _ => id
  | succ n ih =>
    refine ⟨ascends_times h.ascends _, ascends_times h.ascends' _, ?_⟩
    rintro e e' O he he' hpair later later' z z' x x' y y' ⟨w, hfirst, hrest⟩ ⟨w', hfirst', hrest'⟩
    exact (h.concur O he he' hpair hfirst hfirst').andThen (ih.concur O he he' hpair hrest hrest')
      (h.ascends hfirst) (ih.ascends hrest) (h.ascends' hfirst') (ih.ascends' hrest')

theorem upTo (n : Nat) :
    Accords p p' N hi hi' (B.UpToAt greedy f body n) (B'.UpToAt greedy f' body' n) := by
  induction n with
  | zero => exact accords_nothing (fun _ _ => id) fun _ _ => id
  | succ n ih =>
    refine ⟨ascends_upTo h.ascends _, ascends_upTo h.ascends' _, ?_⟩
    rintro e e' O he he' hpair later later' z z' x x' y y' ⟨o, w, hoffer, hfirst, hrest⟩
      ⟨o', w', hoffer', hfirst', hrest'⟩
    refine .offer (he ▸ T.code) (he' ▸ T.code') hoffer hoffer'
      ((h.concur O he he' hpair hfirst hfirst').andThen (ih.concur O he he' hpair hrest hrest')
        (h.ascends hfirst) (ih.ascends hrest) (h.ascends' hfirst') (ih.ascends' hrest')) ?_ ?_
    · exact Nat.le_trans (h.ascends hfirst) (ih.ascends hrest)
    · exact Nat.le_trans (h.ascends' hfirst') (ih.ascends' hrest')

theorem unrolled :
    Accords p p' N hi hi' (B.UnrolledAt b greedy info f body)
      (B'.UnrolledAt b greedy info f' body') := by
  refine ⟨ascends_unrolled h.ascends, ascends_unrolled h.ascends', ?_⟩
  intro e e' O he he' hpair later later' z z' x x' y y' hpart hpart'
  unfold Built.UnrolledAt at hpart hpart'
  have both {part part' : Part} {u u' : Nat} {l l' : Nat → Prop} {m : Nat} {g g' : Way}
      (hrest : Accords p p' N hi hi' part part') (hfirst : Built.TimesAt g body m none l z x u)
      (hfirst' : Built.TimesAt g' body' m none l' z' x' u') (hlast : part none later z u y)
      (hlast' : part' none later' z' u' y') : Concur O N hi hi' z z' x x' y y' :=
    ((times h m).concur O he he' hpair hfirst hfirst').andThen
      (hrest.concur O he he' hpair hlast hlast') (ascends_times h.ascends m hfirst)
      (hrest.ascends hlast) (ascends_times h.ascends' m hfirst') (hrest.ascends' hlast')
  cases hm : b.max with
  | none =>
    rw [hm] at hpart hpart'
    obtain ⟨w, hfirst, hrest⟩ := hpart
    obtain ⟨w', hfirst', hrest'⟩ := hpart'
    exact both (T.plus h) hfirst hfirst' hrest hrest'
  | some max =>
    rw [hm] at hpart hpart'
    obtain ⟨w, hfirst, hrest⟩ := hpart
    obtain ⟨w', hfirst', hrest'⟩ := hpart'
    exact both (T.upTo h _) hfirst hfirst' hrest hrest'

/-- Repeats of one plan. -/
theorem alike {plan : RepeatPlan} (hmax : plan = .counted → b.max ≠ some 0) :
    Accords p p' N hi hi' (B.RepeatAt b greedy plan info f body)
      (B'.RepeatAt b greedy plan info f' body') := by
  cases plan with
  | skip => exact accords_nothing (fun _ _ => id) fun _ _ => id
  | optional => exact T.upTo h 1
  | star => exact T.star h
  | plus => exact T.plus h
  | unroll => exact T.unrolled h
  | counted => exact T.counted h (hmax rfl)

/-- Repeats of two plans for the same bounds. -/
theorem replanned {plan plan' : RepeatPlan} (hmin : 0 < info.minChars) (hb : b.Allows)
    (hmeans : plan.Means b) (hmeans' : plan'.Means b) :
    Accords p p' N hi hi' (B.RepeatAt b greedy plan info f body)
      (B'.RepeatAt b greedy plan' info f' body') :=
  T.wheels h (ascends_repeat h.ascends plan) (ascends_repeat h.ascends' plan')
    (fun _ he _ _ _ _ hpart =>
      isWheel_repeat (he ▸ T.code) (he ▸ T.loops) h.ascends hmin hb hmeans hpart)
    fun _ he _ _ _ _ hpart =>
      isWheel_repeat (he ▸ T.code') (he ▸ T.loops') h.ascends' hmin hb hmeans' hpart

end Siblings
end Machine
end RegexMachine
