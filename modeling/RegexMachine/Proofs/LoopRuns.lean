import Mathlib.Data.List.Basic
import RegexMachine.Proofs.Runs

/-!
Loops give the ways of their rounds. Each rule is about a loop whose body is known by what it gives.
-/
namespace RegexMachine

theorem again_of_lt {f : Way} {size start : Nat} {greedy : Bool} {u : Trail} (h : start < u.pos)
    (hu : u.pos ≤ size) : f.again size greedy start u = f.star size greedy u :=
  if_pos ⟨h, hu⟩

theorem again_of_eq {f : Way} {size start : Nat} {greedy : Bool} {u : Trail} (h : u.pos = start) :
    f.again size greedy start u = [u] :=
  if_neg fun h' => absurd h'.1 (by omega)

/-- After a round that began at `start` and has consumed something, it is as at the head. -/
theorem Agrees.again {f : Way} {size : Nat} {z : Zone} {since : Option Nat}
    {later : Nat → Prop} {fate : Fate} {greedy : Bool} {start check : Nat} (hf : f.Regular size)
    (hsince : ∀ s, since = some s → s ≤ start) (h : Agrees size z since later fate) :
    Agrees size ⟨some check, check + 1, z.loops⟩ (some start) (leads (f.star size greedy) later)
      (fate.before (f.again size greedy start)) := by
  have hstar := h.before (hf.star greedy)
  have hbegan {p : Nat} (hlt : start < p) : ∀ s, since = some s → s < p :=
    fun s hs => Nat.lt_of_le_of_lt (hsince s hs) hlt
  refine ⟨rfl, fun p hp hs => ?_, fun p hp hs hdead t r ht hr => ?_⟩
  · have hlt := hs start rfl
    let u : Trail := ⟨p, Captures.none 0, none⟩
    have hu : f.again size greedy start u = f.star size greedy u := again_of_lt hlt hp
    rw [← hstar.live p hp (hbegan hlt)]
    refine leads_congr (t := u) (hf.again greedy start) (hf.star greedy) (by rw [hu]) ?_
    exact fun _ _ => Iff.rfl
  · have hlt := hs start rfl
    rw [again_of_lt (ht ▸ hlt) (ht ▸ hp)] at hr
    exact hstar.spare p hp (hbegan hlt) hdead t r ht hr

theorem Memory.Safe.again {μ : Memory} {φ : Promise} {f : Way} {size : Nat} {z : Zone}
    {since : Option Nat} {later : Nat → Prop} {fate : Fate} {greedy : Bool} {start check : Nat}
    (hf : f.Regular size) (hsince : ∀ s, since = some s → s ≤ start)
    (h : μ.Safe φ size z since later fate) :
    μ.Safe φ size ⟨some check, check + 1, z.loops⟩ (some start)
      (leads (f.star size greedy) later) (fate.before (f.again size greedy start)) :=
  h.imp_right (Or.imp_right fun h => ⟨h.1, h.2.again hf hsince⟩)

namespace Machine

/-- A byte that must follow does so at all places that are not spare, unless all are live. -/
def Foresees (e : Setting) (peek : Option UInt8) (fate : Fate) : Prop :=
  ∀ b, peek = some b →
    (∀ p, fate.live p) ∨ ∀ p, e.subject.bytes[p]? ≠ some b → fate.spare p

/-- Code of this shape gives ways wherever it stands; the fields `P` are loose while it runs. -/
def Means (e : Setting) (B : Built) (μ : Memory) (peek : Option UInt8) (part : Part) (P : Stale) (f : Way) :
    Prop :=
  ∀ φ later z x y fate since S t, part φ later z x y → z.Ok → S.Fits B.layout.undone → Foresees e peek fate →
    μ.Safe φ e.subject.size z since later fate →
    Gives e μ.Good fate z since (S.or P) S x y t (f t)

/-- Code that is off the one path has no loose fields. -/
abbrev Describes (e : Setting) (B : Built) (μ : Memory) (part : Part) (f : Way) : Prop :=
  Means e B μ none part .none f

variable {e : Setting} {B : Built} {μ : Memory} {φ : Promise} {z : Zone} {since : Option Nat} {S X : Stale}
  {x y w : Addr} {t : Trail} {later : Nat → Prop} {fate : Fate} {part : Part} {f : Way} {info : Info} {F : List Frame}

theorem Describes.gives (h : Describes e B μ part f) (hpart : part φ later z x y) (hz : z.Ok)
    (hS : S.Fits B.layout.undone) (hφ : μ.Safe φ e.subject.size z since later fate) :
    Gives e μ.Good fate z since S S x y t (f t) := by
  have := h φ later z x y fate since S t hpart hz hS (fun _ h => nomatch h) hφ
  rwa [Stale.or_none] at this

/-- Only states inside the subject matter. -/
theorem Gives.inside {Good : Option Memo → Prop} {ts : List Trail}
    (h : t.pos ≤ e.subject.size → Gives e Good fate z since X S x y t ts) :
    Gives e Good fate z since X S x y t ts := fun c hc => h hc.follows.inside c hc

theorem Hosts.size (hB : Hosts e B) : B.size = e.subject.size := by
  rw [hB.subject]
  rfl

/-- At the end of a checked round its marker is found, and taken to the check. -/
theorem Arrives.roundEnd (hB : Hosts e B) {Good : Option Memo → Prop} {id start : Nat}
    {c d : Core} {u : Trail} (hi : B.code[w]? = some (.roundEnd id false))
    (hc : c.frames = .round id start :: F)
    (h : Arrives e Good ⟨c, ⟨some id, id + 1, z.loops⟩, X⟩ S w u d) :
    Point.Moves e (.going d)
      (.going { d with ip := if start = u.pos then w + 2 else w + 1 }) := by
  obtain ⟨G, K, hG, hK, htidy, -, -⟩ := h.above.frames
  rw [show (Base.core ⟨c, _, X⟩).frames = _ from hc] at hK
  obtain rfl := hK.eq_of_ne (by simp)
  have hmove := moves_roundEnd (hB.fetch hi h.ip) hG htidy (Nat.lt_succ_self id)
  rw [h.ip] at hmove
  rw [← h.follows.pos]
  simpa using hmove

/-- The code of a round, and what its ways lead to: another round, or the way out if the round has
consumed nothing. -/
theorem round_gives (hB : Hosts e B) (hpart : Describes e B μ part f)
    (hf : f.Regular e.subject.size) (hadvance : 0 < info.minChars → f.Advances e.subject.size)
    (hz : z.Ok) (hS : S.Fits B.layout.undone) {greedy : Bool}
    (hφ : μ.Safe φ e.subject.size z since later fate)
    (h : B.RoundAt info part φ (leads (f.star e.subject.size greedy) later) z x w)
    (hagain : ∀ u : Trail, t.pos < u.pos → u.pos ≤ e.subject.size →
      Gives e μ.Good fate z since S S w (w + 1) u (f.star e.subject.size greedy u)) :
    Gives e μ.Good fate z since S S x (w + 1) t
      ((f t).flatMap (Way.again e.subject.size greedy f t.pos)) := by
  refine Gives.inside fun hinside => ?_
  unfold Built.RoundAt at h
  split at h
  · have hlt : ∀ u ∈ f t, t.pos < u.pos := fun u hu => hadvance ‹_› t u hinside hu
    have hle : ∀ u ∈ f t, u.pos ≤ e.subject.size := fun u hu => hf.inside t u hinside hu
    have hstar : (f t).flatMap (Way.again e.subject.size greedy f t.pos) =
        (f t).flatMap (f.star e.subject.size greedy) :=
      List.flatMap_congr fun u hu => again_of_lt (hlt u hu) (hle u hu)
    rw [hstar]
    refine (hpart.gives h hz hS (hφ.before (hf.star greedy))).bind hz (fun _ _ h => h)
      (hf.forward t) (fun u hu => hagain u (hlt u hu) (hle u hu)) fun u _ => ?_
    exact fate.before_leads (hf.star greedy) u
  · obtain ⟨id, v, hid, hstart, hbody, hend, rfl⟩ := h
    rw [hB.captures, Bool.false_and] at hend
    intro c hc
    let z' : Zone := ⟨some id, id + 1, z.loops⟩
    let c₁ : Core := { c with ip := x + 1, frames := .round id c.pos :: c.frames }
    have hmove : Point.Moves e (.going c) (.going c₁) := by
      have := moves_roundStart hB.quiet (hB.fetch hstart hc.ip)
      rwa [hc.ip] at this
    have hunder : Resumed e μ.Good z S (x + 1) c c₁ :=
      .under hc.memo _ (f := .round id c.pos) hid trivial fun _ => rfl
    have hready : Ready e μ.Good z' (some t.pos) S (x + 1) t c₁ := by
      refine ⟨rfl, hc.follows.alike rfl (.refl _ _), ?_, ?_, hc.memo⟩
      · intro check start hw hs
        cases hw
        cases hs
        exact ⟨[], c.frames, id + 1, by simp [c₁, hc.follows.pos], .nil _, Nat.lt_succ_self id⟩
      · intro start hs
        cases hs
        exact Nat.le_refl _
    have hgives : Gives e μ.Good (fate.before (f.again e.subject.size greedy t.pos)) z'
        (some t.pos) S S (x + 1) v t (f t) :=
      hpart.gives hbody (fun check h => by cases h; exact Nat.lt_succ_self id) hS
        (hφ.again hf hc.began)
    refine .move (.single hmove) rfl ?_
    refine ((hgives c₁ hready).bind (z := z) (Nat.le_succ_of_le hid) (Nat.le_refl _) (fun _ _ h => h) ?_ ?_).rebase hunder.extends ?_
    · intro u hu d hd
      have hround := hd.roundEnd hB hend rfl
      have hstay : Resumed e μ.Good z S
          (if c.pos = u.pos then v + 2 else v + 1) d
          { d with ip := if c.pos = u.pos then v + 2 else v + 1 } := .at hd.memo _
      by_cases hpos : u.pos = t.pos
      · rw [again_of_eq hpos]
        refine .move (.single hround) rfl ?_
        refine .result ⟨if_pos (hc.follows.pos.trans hpos.symm), hd.follows.alike rfl (.refl _ _),
          .moved rfl rfl rfl, hd.memo⟩ fun d' hd' _ => .done (hd'.of_eq rfl rfl rfl)
      · have hlt : t.pos < u.pos := by
          have := hf.forward t u hu
          omega
        have hle := hf.inside t u hinside hu
        rw [again_of_lt hlt hle]
        rw [if_neg (by rw [hc.follows.pos]; omega)] at hround hstay
        have habove : Above e.program ⟨c, z, S⟩ d :=
          (hunder.extends.trans (Above.mono (z := z) hd.above (Nat.le_succ_of_le hid) (Nat.le_refl _)))
        have hready' : Ready e μ.Good z since S v u d :=
          ⟨hd.ip, hd.follows, standing_above hz rfl hc.standing habove,
            fun s hs => Nat.le_trans (hc.began s hs) (Nat.le_of_lt hlt), hd.memo⟩
        exact (hagain u hlt hle).enter hz hready' hstay (.single hround) rfl
          fun d' hd' _ => .done (hd'.of_eq rfl rfl rfl)
    · intro u hu
      exact fate.before_leads (hf.again greedy t.pos) u
    · intro d hd _
      refine .move (.single (Point.moves_undo d hd.frames rfl)) rfl (.done ?_)
      exact ⟨rfl, hd.regs, hd.start, hd.memo⟩

/-! ## Loops without counts -/

theorem star_gives (hB : Hosts e B) (hpart : Describes e B μ part f)
    (hf : f.Regular e.subject.size) (hadvance : 0 < info.minChars → f.Advances e.subject.size)
    (greedy : Bool) :
    Describes e B μ (B.StarAt greedy info f part) (f.star e.subject.size greedy) := by
  intro φ later z x y fate since S t h hz hS _ hφ
  rw [Stale.or_none]
  obtain ⟨g, o, w, hguard, hoffer, hround, hjump, rfl⟩ := h
  rw [hB.size] at hguard hround
  -- Rounds that go on have less of the subject before them.
  induction hn : e.subject.size - t.pos using Nat.strongRecOn generalizing t with
  | _ n ih =>
    refine Gives.guard hB hz (hf.star greedy) hφ hguard ?_
    rw [Way.star_eq]
    refine Gives.offer hB hz hoffer ?_ .stay
    refine round_gives hB hpart hf hadvance hz hS hφ hround fun u hlt hle => ?_
    exact .jump hB hz hjump (ih (e.subject.size - u.pos) (by omega) u rfl)

theorem greedyPlus_gives (hB : Hosts e B) (hpart : Describes e B μ part f)
    (hf : f.Regular e.subject.size) (hadvance : 0 < info.minChars → f.Advances e.subject.size) :
    Describes e B μ (B.GreedyPlusAt info f part) (f.plus e.subject.size true) := by
  intro φ later z x y fate since S t h hz hS _ hφ
  rw [Stale.or_none]
  obtain ⟨g, w, hentry, hguard, hfork, hround, hjump, rfl⟩ := h
  rw [hB.size] at hguard hround
  have head : ∀ u : Trail, Gives e μ.Good fate z since S S (x + 1) (w + 1) u
      (f.star e.subject.size true u) := by
    intro u
    induction hn : e.subject.size - u.pos using Nat.strongRecOn generalizing u with
    | _ n ih =>
      refine Gives.guard hB hz (hf.star true) hφ hguard ?_
      rw [Way.star_eq]
      refine Gives.fork hB hz hfork ?_ .stay
      refine round_gives hB hpart hf hadvance hz hS hφ hround fun v hlt hle => ?_
      exact .jump hB hz hjump (ih (e.subject.size - v.pos) (by omega) v rfl)
  refine .jump hB hz hentry ?_
  rw [Way.plus_eq]
  exact round_gives hB hpart hf hadvance hz hS hφ hround fun u _ _ => .jump hB hz hjump (head u)

theorem lazyPlus_gives (hB : Hosts e B) (hpart : Describes e B μ part f)
    (hf : f.Regular e.subject.size) (hadvance : 0 < info.minChars → f.Advances e.subject.size) :
    Describes e B μ (B.LazyPlusAt info f part) (f.plus e.subject.size false) := by
  intro φ later z x y fate since S t h hz hS _ hφ
  rw [Stale.or_none]
  obtain ⟨g, w, hguard, hround, hfork, rfl⟩ := h
  rw [hB.size] at hguard hround
  induction hn : e.subject.size - t.pos using Nat.strongRecOn generalizing t with
  | _ n ih =>
    refine Gives.guard hB hz (hf.plus false) hφ hguard ?_
    rw [Way.plus_eq]
    refine round_gives hB hpart hf hadvance hz hS hφ hround fun u hlt hle => ?_
    rw [Way.star_eq, ← Way.plus_eq]
    exact Gives.fork hB hz hfork .stay (ih (e.subject.size - u.pos) (by omega) u rfl)

theorem plus_gives (hB : Hosts e B) (hpart : Describes e B μ part f)
    (hf : f.Regular e.subject.size) (hadvance : 0 < info.minChars → f.Advances e.subject.size)
    (greedy : Bool) :
    Describes e B μ (B.PlusAt greedy info f part) (f.plus e.subject.size greedy) := by
  unfold Built.PlusAt
  cases greedy with
  | true => exact greedyPlus_gives hB hpart hf hadvance
  | false => exact lazyPlus_gives hB hpart hf hadvance

theorem times_gives (hpart : Describes e B μ part f) (hf : f.Regular e.subject.size) (n : Nat) :
    Describes e B μ (Built.TimesAt f part n) (f.times n) := by
  induction n with
  | zero =>
    intro φ later z x y fate since S t h hz hS _ hφ
    rw [Stale.or_none]
    obtain rfl : x = y := h
    exact .stay
  | succ n ih =>
    intro φ later z x y fate since S t h hz hS _ hφ
    rw [Stale.or_none]
    obtain ⟨w, hfirst, hrest⟩ := h
    exact (hpart.gives hfirst hz hS (hφ.before (hf.times n))).bind hz (fun _ _ h => h)
      (hf.forward t) (fun u _ => ih.gives hrest hz hS hφ) fun u _ => fate.before_leads (hf.times n) u

theorem upTo_gives (hB : Hosts e B) (hpart : Describes e B μ part f)
    (hf : f.Regular e.subject.size) (greedy : Bool) (n : Nat) :
    Describes e B μ (B.UpToAt greedy f part n) (f.upTo greedy n) := by
  induction n with
  | zero =>
    intro φ later z x y fate since S t h hz hS _ hφ
    rw [Stale.or_none]
    obtain rfl : x = y := h
    exact .stay
  | succ n ih =>
    intro φ later z x y fate since S t h hz hS _ hφ
    rw [Stale.or_none]
    obtain ⟨o, w, hoffer, hbody, hrest⟩ := h
    refine Gives.offer hB hz hoffer ?_ .stay
    exact (hpart.gives hbody hz hS (hφ.before (hf.upTo greedy n))).bind hz (fun _ _ h => h)
      (hf.forward t) (fun u _ => ih.gives hrest hz hS hφ)
      fun u _ => fate.before_leads (hf.upTo greedy n) u

/-- Code after code that is off the one path. -/
theorem Describes.andThen {part' : Part} {g : Way} (h : Describes e B μ part f)
    (h' : Describes e B μ part' g) (hf : f.Regular e.subject.size) (hg : g.Regular e.subject.size) :
    Describes e B μ (fun φ later z x y => ∃ w, part φ (leads g later) z x w ∧ part' φ later z w y)
      (f.andThen g) := by
  intro φ later z x y fate since S t hpart hz hS _ hφ
  rw [Stale.or_none]
  obtain ⟨w, hfirst, hrest⟩ := hpart
  exact (h.gives hfirst hz hS (hφ.before hg)).bind hz (fun _ _ h => h) (hf.forward t)
    (fun u _ => h'.gives hrest hz hS hφ) fun u _ => fate.before_leads hg u

/-! ## Counted loops -/

end Machine

/-- What is left of bounds after some rounds. -/
def Bounds.after (b : Bounds) (k : Nat) : Bounds := ⟨b.min - k, b.max.map (· - k)⟩

namespace Way

variable {size : Nat} {f : Way} {greedy : Bool} {t : Trail}

theorem rounds_some {n m : Nat} (h : n ≤ m) (size : Nat) (greedy : Bool) (f : Way) :
    f.rounds size ⟨n, some m⟩ greedy = (f.times n).andThen (f.upTo greedy (m - n)) := by
  cases m with
  | zero =>
    obtain rfl : n = 0 := by omega
    funext t
    simp [rounds, andThen, times, upTo, stay]
  | succ m => rfl

theorem stay_andThen (g : Way) : stay.andThen g = g := by
  funext t
  simp [andThen, stay]

theorem andThen_assoc (f g h : Way) : (f.andThen g).andThen h = f.andThen (g.andThen h) := by
  funext t
  exact List.flatMap_assoc

/-- Where every round consumes something, no round is the last one for being empty. -/
theorem flatMap_again (hf : f.Regular size) (ha : f.Advances size) (ht : t.pos ≤ size) :
    (f t).flatMap (f.again size greedy t.pos) = (f t).flatMap (f.star size greedy) :=
  List.flatMap_congr fun u hu => again_of_lt (ha t u ht hu) (hf.inside t u ht hu)

/-- A repeat is a choice between one round more, with what is left of its bounds, and the way out. -/
theorem rounds_eq (hf : f.Regular size) (ha : f.Advances size) (ht : t.pos ≤ size) {b : Bounds}
    (hb : b.max.all (b.min ≤ ·) = true) :
    f.rounds size b greedy t =
      if b.max.any (· ≤ 0) then [t]
      else if 0 < b.min then (f t).flatMap (f.rounds size (b.after 1) greedy)
      else prefer greedy ((f t).flatMap (f.rounds size (b.after 1) greedy)) [t] := by
  obtain ⟨min, max⟩ := b
  cases max with
  | some m =>
    have hle : min ≤ m := by simpa using hb
    cases m with
    | zero => rfl
    | succ m =>
      cases min with
      | zero =>
        rw [rounds_some hle]
        have hrest : f.rounds size (Bounds.after ⟨0, some (m + 1)⟩ 1) greedy = f.upTo greedy m := by
          change f.rounds size ⟨0, some m⟩ greedy = _
          rw [rounds_some (Nat.zero_le m)]
          exact stay_andThen _
        rw [hrest]
        rw [times, stay_andThen]
        simp [upTo, andThen]
      | succ n =>
        rw [rounds_some hle]
        have hrest : f.rounds size (Bounds.after ⟨n + 1, some (m + 1)⟩ 1) greedy =
            (f.times n).andThen (f.upTo greedy (m - n)) :=
          rounds_some (Nat.le_of_succ_le_succ hle) _ _ _
        rw [hrest, times, andThen_assoc, Nat.add_sub_add_right]
        simp [andThen]
  | none =>
    cases min with
    | zero =>
      change f.star size greedy t = prefer greedy ((f t).flatMap (f.star size greedy)) [t]
      rw [star_eq, flatMap_again hf ha ht]
    | succ n =>
      cases n with
      | zero =>
        change (f.times 0).andThen (f.plus size greedy) t = (f t).flatMap (f.star size greedy)
        rw [times, stay_andThen, plus_eq, flatMap_again hf ha ht]
      | succ n =>
        change (f.times (n + 1)).andThen (f.plus size greedy) t =
          (f t).flatMap ((f.times n).andThen (f.plus size greedy))
        rw [times, andThen_assoc]
        rfl

end Way

namespace Machine

/-- Where a counted loop goes on after so many rounds. -/
def decision (l : CountedLoop) (k : Nat) (c : Core) : Core :=
  if l.max.any (· ≤ k) then { c with ip := l.exit }
  else if k < l.min then { c with ip := l.body }
  else roundChoice l c

theorem recount {counts : Array Nat} {id before : Nat} (k : Nat)
    (h : counts[id]? = some before) :
    (counts.setIfInBounds id k).setIfInBounds id before = counts := by
  obtain ⟨hlt, rfl⟩ := Array.getElem?_eq_some_iff.mp h
  rw [Array.setIfInBounds_setIfInBounds]
  simp [Array.setIfInBounds, hlt]

/-- A count has been changed, and a record of what it was lies on top. -/
theorem Core.above_counting {p : Program} {c : Core} {id before : Nat} (k : Nat)
    (hid : z.loops ≤ id) (hc : c.regs.counts[id]? = some before) :
    Above p ⟨c, z, X⟩ (c.counting id before k) := by
  refine ⟨⟨[.count id before], c.frames, rfl, .refl _, .single trivial, ?_, ?_⟩, ?_, rfl⟩
  · intro f hf
    cases List.mem_singleton.mp hf
    trivial
  · exact ⟨.refl _ _, recount k hc, rfl, rfl⟩
  · intro id' hlt
    exact Array.getElem?_setIfInBounds_ne (by change id' < z.loops at hlt; omega)

theorem Ready.counting {Good : Option Memo → Prop} {c : Core} {id before : Nat} (k : Nat)
    (hz : z.Ok) (hid : z.loops ≤ id) (hc : c.regs.counts[id]? = some before)
    (h : Ready e Good z since X x t c) :
    Ready e Good z since X x t (c.counting id before k) where
  ip := h.ip
  follows := ⟨h.follows.pos, h.follows.inside, h.follows.keep, h.follows.captures,
    h.follows.groups, by simpa [Core.counting] using h.follows.counts⟩
  standing := standing_above hz rfl h.standing (Core.above_counting (p := e.program) (X := X) k hid hc)
  began := h.began
  memo := h.memo

/-- What was done from a changed count on is undone together with the change. -/
theorem Yields.counted {Good : Option Memo → Prop} {c : Core} {id before k : Nat} {p : Point}
    {ts : List Trail} (hid : z.loops ≤ id) (hc : c.regs.counts[id]? = some before)
    (h : Yields e Good fate y ⟨c.counting id before k, z, X⟩ S p ts) :
    Yields e Good fate y ⟨c, z, X⟩ S p ts := by
  refine h.rebase ⟨Core.above_counting k hid hc, Nat.le_refl _, Nat.le_refl _, fun _ _ h => h⟩
    fun d hd _ => ?_
  refine .move (.single (Point.moves_undo d hd.frames rfl)) rfl (.done ?_)
  refine ⟨rfl, ⟨hd.regs.captures, ?_, hd.regs.keep, hd.regs.depth⟩, hd.start, hd.memo⟩
  change d.regs.counts.setIfInBounds id before = c.regs.counts
  rw [hd.regs.counts]
  exact recount k hc

/-- What holds of a loop after a round that has consumed something. -/
def Continues (e : Setting) (Good : Option Memo → Prop) (fate : Fate) (z : Zone)
    (since : Option Nat) (S : Stale) (y : Addr) (id k : Nat) (l : CountedLoop) (g : Way)
    (u : Trail) : Prop :=
  ∀ d, Ready e Good z since S d.ip u d → d.regs.counts[id]? = some k →
    Yields e Good fate y ⟨d, z, S⟩ S (.going (decision l k d)) (g u)

theorem countedRound_gives (hB : Hosts e B) (hpart : Describes e B μ part f)
    (hf : f.Regular e.subject.size) (ha : f.Advances e.subject.size) (hz : z.Ok) (hS : S.Fits B.layout.undone)
    {id k : Nat} {l : CountedLoop} {g : Way} (hg : g.Regular e.subject.size)
    (hid : z.loops ≤ id) (hbody : part none later ⟨z.within, z.checks, id + 1⟩ x w)
    (hnext : B.code[w]? = some (.repeatNext id)) (hloop : B.loops[id]? = some l)
    (hrest : ∀ u : Trail, t.pos < u.pos → u.pos ≤ e.subject.size →
      Continues e μ.Good fate z since S (w + 1) id (k + 1) l g u)
    {c : Core} (hc : Ready e μ.Good z since S x t c) (hk : c.regs.counts[id]? = some k) :
    Yields e μ.Good fate (w + 1) ⟨c, z, S⟩ S (.going c) ((f t).flatMap g) := by
  have hgives : Gives e μ.Good (fate.before g) ⟨z.within, z.checks, id + 1⟩ since S S x w t (f t) :=
    hpart.gives hbody hz hS (Or.inl rfl)
  have hready : Ready e μ.Good ⟨z.within, z.checks, id + 1⟩ since S x t c :=
    ⟨hc.ip, hc.follows, hc.standing, hc.began, hc.memo⟩
  have hle : z.loops ≤ id + 1 := Nat.le_succ_of_le hid
  refine (hgives c hready).bind (Nat.le_refl _) hle (fun _ _ h => h) (fun u hu d hd => ?_)
    fun u _ => fate.before_leads hg u
  have hlt := ha t u hc.follows.inside hu
  have hcount : d.regs.counts[id]? = some k := (hd.above.counts id (Nat.lt_succ_self id)).trans hk
  have hready' : Ready e μ.Good z since S w u d :=
    ⟨hd.ip, hd.follows, standing_above hz rfl hc.standing (hd.above.mono (z := z) (Nat.le_refl _) hle),
      fun s hs => Nat.le_trans (hc.began s hs) (Nat.le_of_lt hlt), hd.memo⟩
  have hready'' := hready'.counting (k + 1) hz hid hcount
  refine .counted hid hcount (k := k + 1) ?_
  refine .move (.single (moves_repeatNext hB.quiet (hB.fetch hnext hd.ip)
    (by rw [hB.loops]; exact hloop) hcount)) ?_ ?_
  · split
    · rfl
    · split
      · rfl
      · unfold roundChoice
        split <;> rfl
  · exact hrest u hlt (hf.inside t u hc.follows.inside hu) _
      ⟨rfl, hready''.follows, hready''.standing, hready''.began, hready''.memo⟩
      (Array.getElem?_setIfInBounds_self_of_lt (Array.getElem?_eq_some_iff.mp hcount).1)

theorem after_zero (b : Bounds) : b.after 0 = b := by
  obtain ⟨min, max⟩ := b
  cases max <;> simp [Bounds.after]

theorem after_after (b : Bounds) (k : Nat) : (b.after k).after 1 = b.after (k + 1) := by
  cases hb : b.max <;> simp [Bounds.after, hb, Nat.sub_sub]

theorem after_ordered {b : Bounds} (k : Nat) (h : b.max.all (b.min ≤ ·) = true) :
    (b.after k).max.all ((b.after k).min ≤ ·) = true := by
  cases hb : b.max with
  | none => simp [Bounds.after, hb]
  | some m =>
    simp only [hb, Option.all_some, decide_eq_true_eq] at h
    simp only [Bounds.after, hb, Option.map_some, Option.all_some, decide_eq_true_eq]
    omega

theorem after_any (b : Bounds) (k : Nat) :
    (b.after k).max.any (· ≤ 0) = b.max.any (· ≤ k) := by
  cases hb : b.max with
  | none => simp [Bounds.after, hb]
  | some m => simp [Bounds.after, hb, Nat.sub_eq_zero_iff_le]

/-- After so many rounds a counted loop gives what is left of its ways. -/
theorem decision_gives (hB : Hosts e B) (hpart : Describes e B μ part f)
    (hf : f.Regular e.subject.size) (ha : f.Advances e.subject.size) (hz : z.Ok) (hS : S.Fits B.layout.undone)
    {b : Bounds} (hb : b.max.all (b.min ≤ ·) = true) {greedy : Bool} {id : Nat}
    (hid : z.loops ≤ id) (hbody : part none later ⟨z.within, z.checks, id + 1⟩ x w)
    (hnext : B.code[w]? = some (.repeatNext id))
    (hloop : B.loops[id]? = some ⟨b.min, b.max, greedy, x, w + 1⟩) (k : Nat) (t : Trail) :
    Continues e μ.Good fate z since S (w + 1) id k ⟨b.min, b.max, greedy, x, w + 1⟩
      (f.rounds e.subject.size (b.after k) greedy) t := by
  -- Every round has less of the subject before it.
  induction hn : e.subject.size - t.pos using Nat.strongRecOn generalizing t k with
  | _ n ih =>
    have round {c : Core} (hc : Ready e μ.Good z since S x t c)
        (hk : c.regs.counts[id]? = some k) :
        Yields e μ.Good fate (w + 1) ⟨c, z, S⟩ S (.going c)
          ((f t).flatMap (f.rounds e.subject.size (b.after (k + 1)) greedy)) :=
      countedRound_gives hB hpart hf ha hz hS (hf.rounds _ _) hid hbody hnext hloop
        (fun u hlt hle => ih (e.subject.size - u.pos) (by omega) (k + 1) u rfl) hc hk
    intro c hc hk
    rw [Way.rounds_eq hf ha hc.follows.inside (after_ordered k hb), after_any, after_after]
    have hpos : 0 < (b.after k).min ↔ k < b.min := Nat.sub_pos_iff_lt
    simp only [hpos]
    unfold decision
    split
    · exact Gives.stay.enter hz hc (.at hc.memo _) .refl rfl
        fun d hd _ => .done (hd.of_eq rfl rfl rfl)
    · split
      · have hat : Resumed e μ.Good z S x c { c with ip := x } := .at hc.memo _
        refine (round (hc.resumed hz hat) hk).rebase hat.extends ?_
        exact fun d hd _ => .done (hd.of_eq rfl rfl rfl)
      · unfold roundChoice
        cases greedy with
        | true =>
          let c₁ : Core := { c with ip := x, frames := .alternative (w + 1) c.pos :: c.frames }
          have hunder : Resumed e μ.Good z S x c c₁ :=
            .under hc.memo _ (f := .alternative (w + 1) c.pos) trivial trivial fun _ => rfl
          refine (round (hc.resumed hz hunder) hk).append hunder.extends fun d hd _ => ?_
          obtain ⟨d', hback, hbest, hip, hpos, hres⟩ := hd.resume hB.quiet (c := c) rfl rfl rfl
          exact Gives.stay.enter hz hc (hip ▸ hres.resumed hpos) (.single hback) hbest
            fun d'' hd' _ => .done (hres.trans hd')
        | false =>
          let c₁ : Core := { c with ip := w + 1, frames := .alternative x c.pos :: c.frames }
          have hunder : Resumed e μ.Good z S (w + 1) c c₁ :=
            .under hc.memo _ (f := .alternative x c.pos) trivial trivial fun _ => rfl
          refine Gives.stay.after hz hc hunder .refl rfl fun d hd _ => ?_
          obtain ⟨d', hback, hbest, hip, hpos, hres⟩ := hd.resume hB.quiet (c := c) rfl rfl rfl
          have hresumed : Resumed e μ.Good z S x c d' := hip ▸ hres.resumed hpos
          have hk' : d'.regs.counts[id]? = some k := by rw [hres.regs.counts, hk]
          refine .move (.single hback) hbest ?_
          exact (round (hc.resumed hz hresumed) hk').rebase hresumed.extends
            fun d'' hd' _ => .done (hres.trans hd')

theorem counted_gives (hB : Hosts e B) (hpart : Describes e B μ part f)
    (hf : f.Regular e.subject.size) (ha : f.Advances e.subject.size) (hmin : 0 < info.minChars)
    {b : Bounds} (hb : b.max.all (b.min ≤ ·) = true) (hmax : b.max ≠ some 0) (greedy : Bool) :
    Describes e B μ (B.CountedAt b greedy info part) (f.rounds e.subject.size b greedy) := by
  intro φ later z x y fate since S t h hz hS _ _
  rw [Stale.or_none]
  obtain ⟨id, w, hid, henter, hloop, hbody, hnext, rfl⟩ := h
  rw [Built.RoundAt, if_pos hmin] at hbody
  intro c hc
  obtain ⟨n, hn⟩ : ∃ n, c.regs.counts[id]? = some n := by
    have hlt : id < c.regs.counts.size := by
      rw [hc.follows.counts, hB.loops]
      exact (Array.getElem?_eq_some_iff.mp hloop).1
    exact ⟨_, Array.getElem?_eq_getElem hlt⟩
  have hready := hc.counting 0 hz hid hn
  have hmove := moves_repeatEnter hB.quiet (hB.fetch henter hc.ip)
    (by rw [hB.loops]; exact hloop) hn
  let l : CountedLoop := ⟨b.min, b.max, greedy, x + 1, w + 1⟩
  have hdecide : (if l.min = 0 then roundChoice l (c.counting id n 0)
      else { c.counting id n 0 with ip := l.body }) = decision l 0 (c.counting id n 0) := by
    unfold decision
    have hany : l.max.any (· ≤ 0) = false := by
      cases hm : b.max with
      | none => simp [l, hm]
      | some m =>
        have : m ≠ 0 := fun h => hmax (by rw [hm, h])
        simp [l, hm, this]
    rw [hany]
    by_cases hzero : l.min = 0
    · simp [hzero]
    · simp [hzero, Nat.pos_of_ne_zero hzero]
  change Point.Moves e (.going c) (.going (if l.min = 0 then _ else _)) at hmove
  rw [hdecide] at hmove
  have hbest : (decision l 0 (c.counting id n 0)).best = c.best := by
    unfold decision roundChoice
    repeat' split
    all_goals rfl
  refine .counted hid hn (k := 0) (.move (.single hmove) hbest ?_)
  have hgives : Continues e μ.Good fate z since S (w + 1) id 0 l
      (f.rounds e.subject.size (b.after 0) greedy) t :=
    decision_gives hB hpart hf ha hz hS hb hid hbody hnext hloop 0 t
  rw [after_zero] at hgives
  exact hgives _ ⟨rfl, hready.follows, hready.standing, hready.began, hready.memo⟩
    (Array.getElem?_setIfInBounds_self_of_lt (Array.getElem?_eq_some_iff.mp hn).1)

/-! ## Repeats -/

theorem unrolled_gives (hB : Hosts e B) (hpart : Describes e B μ part f)
    (hf : f.Regular e.subject.size) (hadvance : 0 < info.minChars → f.Advances e.subject.size)
    {b : Bounds} (hb : b.max.all (b.min ≤ ·) = true) (hmin : b.max = none → 0 < b.min)
    (greedy : Bool) :
    Describes e B μ (B.UnrolledAt b greedy info f part) (f.rounds e.subject.size b greedy) := by
  obtain ⟨min, max⟩ := b
  unfold Built.UnrolledAt
  rw [hB.size]
  cases max with
  | none =>
    obtain ⟨n, rfl⟩ : ∃ n, min = n + 1 := ⟨min - 1, by have : 0 < min := hmin rfl; omega⟩
    exact (times_gives hpart hf n).andThen (plus_gives hB hpart hf hadvance greedy) (hf.times n)
      (hf.plus greedy)
  | some m =>
    have hle : min ≤ m := by simpa using hb
    rw [Way.rounds_some hle]
    exact (times_gives hpart hf min).andThen (upTo_gives hB hpart hf greedy (m - min))
      (hf.times min) (hf.upTo greedy _)

/-- Whatever the plan of a repeat is, it gives the rounds that its bounds want. -/
theorem repeat_gives (hB : Hosts e B) (hpart : Describes e B μ part f)
    (hf : f.Regular e.subject.size) {body : Node Measured}
    (hadvance : 0 < body.info.minChars → f.Advances e.subject.size)
    {b : Bounds} (hb : b.max.all (b.min ≤ ·) = true)
    (hcounted : repeatPlan b body = .counted → 0 < body.info.minChars) (greedy : Bool) :
    Describes e B μ (B.RepeatAt b greedy (repeatPlan b body) body.info f part)
      (f.rounds e.subject.size b greedy) := by
  generalize hplan : repeatPlan b body = plan at hcounted
  obtain ⟨min, max⟩ := b
  unfold repeatPlan at hplan
  split at hplan
  · rename_i hmax
    cases hplan
    obtain rfl : max = some 0 := hmax
    exact times_gives hpart hf 0
  · rename_i hmin hmax
    cases hplan
    obtain rfl : min = 0 := hmin
    obtain rfl : max = some 1 := hmax
    rw [Way.rounds_some (Nat.zero_le 1)]
    change Describes _ _ _ _ (Way.stay.andThen _)
    rw [Way.stay_andThen]
    exact upTo_gives hB hpart hf greedy 1
  · rename_i hmin hmax
    cases hplan
    obtain rfl : min = 0 := hmin
    obtain rfl : max = none := hmax
    exact star_gives hB hpart hf hadvance greedy
  · rename_i hmin hmax
    cases hplan
    obtain rfl : min = 1 := hmin
    obtain rfl : max = none := hmax
    change Describes _ _ _ _ (Way.stay.andThen _)
    rw [Way.stay_andThen]
    exact plus_gives hB hpart hf hadvance greedy
  · rename_i hskip _ hstar _
    split at hplan
    · cases hplan
      refine unrolled_gives hB hpart hf hadvance hb (fun hmax => ?_) greedy
      exact Nat.pos_of_ne_zero fun hmin => hstar hmin hmax
    · cases hplan
      have hmin := hcounted rfl
      exact counted_gives hB hpart hf (hadvance hmin) hmin hb (fun hmax => hskip hmax) greedy

/-! ## Runs of any characters -/

/-- Any characters, as many as there are first. -/
theorem star_any (s : Subject) (multiline : Bool) (t : Trail) (ht : t.pos ≤ s.size) :
    (Way.text (s.anyLength? · multiline)).star s.size true t =
      ((anyPlaces s multiline t.pos).map fun p => { t with pos := p }).reverse := by
  induction hn : s.size - t.pos using Nat.strongRecOn generalizing t with
  | _ n ih =>
    rw [Way.star_eq]
    cases hw : s.anyLength? t.pos multiline with
    | none =>
      have htext : Way.text (s.anyLength? · multiline) t = [] := by simp [Way.text, hw]
      rw [htext, anyPlaces_none hw]
      rfl
    | some k =>
      let u : Trail := { t with pos := t.pos + k }
      have htext : Way.text (s.anyLength? · multiline) t = [u] := by simp [Way.text, hw, u]
      obtain ⟨hu, hk⟩ := s.anyLength?_bounds hw
      have hlt : t.pos < u.pos := Nat.lt_add_of_pos_right hk
      have hsmall : s.size - u.pos < n := by
        have : t.pos < s.size := Nat.lt_of_lt_of_le hlt hu
        omega
      rw [htext, anyPlaces_some hw, List.map_cons, List.reverse_cons, List.flatMap_singleton,
        again_of_lt hlt hu, ih _ hsmall u hu rfl]
      rfl

/-- The machine, back at a core, has arrived at a place further on. -/
theorem Restored.arrive {Good : Option Memo → Prop} {c d : Core} {q : Nat}
    (hd : Restored Good S c d) (hc : Follows e S t { c with pos := t.pos })
    (hq : q ≤ e.subject.size) :
    Yields e Good fate y ⟨c, z, S⟩ S
      (.going { d with ip := y, pos := q, frames := c.frames }) [{ t with pos := q }] := by
  refine .result ⟨rfl, ⟨rfl, hq, hd.regs.keep.trans hc.keep, hd.regs.captures.trans hc.captures,
    hd.regs.captures.size.trans hc.groups, (congrArg Array.size hd.regs.counts).trans hc.counts⟩,
    ⟨⟨[], c.frames, rfl, .refl _, .nil _, by simp, hd.regs⟩,
      fun id _ => congrArg (·[id]?) hd.regs.counts, hd.start⟩, hd.memo⟩ fun d' hd' _ => ?_
  exact .done ⟨hd'.frames, hd'.regs.trans hd.regs, hd'.start.trans hd.start, hd'.memo⟩

/-- The alternatives that a run of characters leaves give the places it has passed, last first. -/
theorem anyPlaces_yields {Good : Option Memo → Prop} (hB : Quiet e) {wanted : Nat → Bool}
    (hlive : (∀ p, fate.live p) ∨ ∀ p, wanted p = false → fate.spare p) (ps : List Nat) (p : Nat)
    (hin : ∀ q ∈ p :: ps, q ≤ e.subject.size) {c : Core}
    (hc : Follows e S t { c with pos := t.pos }) (hm : Good c.memo) :
    Yields e Good fate y ⟨c, z, S⟩ S
      (.going { c with
        ip := y
        frames := (afterAny wanted y c.frames (p :: ps)).1
        pos := (afterAny wanted y c.frames (p :: ps)).2 })
      ((p :: ps).map fun q => { t with pos := q }).reverse := by
  induction ps generalizing p c with
  | nil => exact Restored.arrive ⟨rfl, .refl _ _, rfl, hm⟩ hc (hin p (by simp))
  | cons q ps ih =>
    have hin' : ∀ r ∈ q :: ps, r ≤ e.subject.size := fun r hr => hin r (by simp [hr])
    rw [List.map_cons, List.reverse_cons]
    cases hw : wanted p with
    | true =>
      have hafter : afterAny wanted y c.frames (p :: q :: ps) =
          afterAny wanted y (.alternative y p :: c.frames) (q :: ps) := by
        simp [afterAny, hw]
      rw [hafter]
      let c' : Core := { c with frames := .alternative y p :: c.frames }
      have habove : Above e.program ⟨c, z, S⟩ c' := by
        refine ⟨⟨[.alternative y p], c.frames, rfl, .refl _, .single trivial, ?_, .refl _ _⟩,
          fun _ _ => rfl, rfl⟩
        intro f hf
        cases List.mem_singleton.mp hf
        trivial
      refine (ih q hin' (c := c') (hc.alike rfl (.refl _ _)) hm).append
        ⟨habove, Nat.le_refl _, Nat.le_refl _, fun _ _ h => h⟩ fun d hd _ => ?_
      refine .move (.single (Point.moves_alternative hB d hd.frames)) rfl ?_
      exact Restored.arrive (d := { d with frames := c.frames })
        ⟨rfl, hd.regs, hd.start, hd.memo⟩ hc (hin p (by simp))
    | false =>
      have hafter : afterAny wanted y c.frames (p :: q :: ps) =
          afterAny wanted y c.frames (q :: ps) := by
        simp [afterAny, hw]
      rw [hafter]
      refine (ih q hin' hc hm).append
        ⟨Above.refl _ ⟨c, z, S⟩, Nat.le_refl _, Nat.le_refl _, fun _ _ h => h⟩ fun d hd hdead => ?_
      rcases hlive with hlive | hlive
      · exact absurd (hlive q) (hdead { t with pos := q } (by simp))
      · exact .drop (hlive p hw) (.done hd)

/-- The places that characters lead to lie inside the subject. -/
theorem anyPlaces_le {s : Subject} {multiline : Bool} {pos p : Nat} (hpos : pos ≤ s.size)
    (hp : p ∈ anyPlaces s multiline pos) : p ≤ s.size := by
  induction hn : s.size - pos using Nat.strongRecOn generalizing pos with
  | _ n ih =>
    cases hw : s.anyLength? pos multiline with
    | none =>
      rw [anyPlaces_none hw, List.mem_singleton] at hp
      exact hp ▸ hpos
    | some k =>
      obtain ⟨hle, hk⟩ := s.anyLength?_bounds hw
      rw [anyPlaces_some hw] at hp
      rcases List.mem_cons.mp hp with rfl | hp
      · exact hpos
      · exact ih (s.size - (pos + k)) (by omega) hle hp rfl

theorem any_gives {Good : Option Memo → Prop} (hB : Hosts e B) {i : Instr} {multiline : Bool}
    {before : Option UInt8} (hi : B.code[x]? = some i)
    (hx : ∀ r, exec r e i = takeAny e multiline before) (hlive : Foresees e before fate) :
    Gives e Good fate z since S S x (x + 1) t
      ((Way.text (e.subject.anyLength? · multiline)).star e.subject.size true t) := by
  intro c hc
  have hmove := moves_takeAny hB.quiet (hB.fetch hi hc.ip) hx
  dsimp only at hmove
  rw [hc.ip, hc.follows.pos] at hmove
  refine .move (.single hmove) rfl ?_
  rw [star_any e.subject multiline t hc.follows.inside]
  obtain ⟨ps, hps⟩ := anyPlaces_ne_nil e.subject multiline t.pos
  rw [hps]
  refine anyPlaces_yields hB.quiet ?_ ps t.pos (fun q hq => ?_) (hc.follows.alike hc.follows.pos.symm (.refl _ _)) hc.memo
  · cases before with
    | none => exact Or.inr fun p hp => by simp at hp
    | some b =>
      refine (hlive b rfl).imp_right fun h p hp => h p ?_
      simpa using hp
  · rw [← hps] at hq
    exact anyPlaces_le hc.follows.inside hq

end Machine
end RegexMachine
