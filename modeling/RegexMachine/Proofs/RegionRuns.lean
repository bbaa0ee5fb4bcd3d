import RegexMachine.Proofs.LoopRuns

/-!
Regions: what runs in one is known up to its first way only, since the region is closed for good when
it has matched.
-/
namespace RegexMachine.Machine

variable {e : Setting} {B : Built} {μ : Memory} {φ : Promise} {z : Zone} {since : Option Nat} {S P X : Stale}
  {x y w : Addr} {t : Trail} {later : Nat → Prop} {fate : Fate} {part : Part} {f : Way} {info : Info}
  {Good : Option Memo → Prop} {F : List Frame}

/-- Frames of completed code lie above a marker, and they undo what was done since. -/
structure Inside (p : Program) (base : Base) (marker : Frame) (F : List Frame) (c : Core) :
    Prop where
  frames : c.frames = F ++ marker :: base.core.frames
  tidy : Tidy base.zone.checks F
  simple : ∀ f ∈ F, Simple f
  regs : (c.regs.undoAll p F).Alike base.loose base.core.regs
  counts : ∀ id, id < base.zone.loops → c.regs.counts[id]? = base.core.regs.counts[id]?
  start : c.start = base.core.start

/-- The state in which a region has just been opened. -/
def Core.marked (c : Core) (ip : Addr) (marker : Frame) : Core :=
  { c with ip := ip, frames := marker :: c.frames }

theorem Above.inside {p : Program} {c d : Core} {marker : Frame} {ip : Addr} (hm : marker ≠ .void)
    (h : Above p ⟨c.marked ip marker, z, X⟩ d) : ∃ F, Inside p ⟨c, z, X⟩ marker F d := by
  obtain ⟨F, K, hF, hK, htidy, hsimple, hregs⟩ := h.frames
  have hK : Settled (marker :: c.frames) K := hK
  obtain rfl := hK.eq_of_ne hm
  exact ⟨F, hF, htidy, hsimple, hregs, h.counts, h.start⟩

theorem Ready.marked (h : Ready e Good z since X x t c) (ip : Addr) (marker : Frame) :
    Ready e Good z none X ip t (c.marked ip marker) :=
  ⟨rfl, h.follows.alike rfl (.refl _ _), (fun _ _ _ hs => nomatch hs), (fun _ hs => nomatch hs),
    h.memo⟩

/-- A failure takes a marker off the stack. -/
theorem Restored.unmarked {c d : Core} {ip : Addr} {marker : Frame} (hm : marker.isChoice = false)
    (hundo : ∀ r : Registers, r.undo e.program marker = r)
    (h : Restored Good X (c.marked ip marker) d) :
    ∃ d', Point.Moves e (.failing d) (.failing d') ∧ d'.best = d.best ∧ Restored Good X c d' := by
  refine ⟨_, Point.moves_undo d h.frames hm, rfl, rfl, ?_, h.start, h.memo⟩
  rw [hundo]
  exact h.regs

/-- After a region was closed its way is the only one, and what was done in it is undone. -/
theorem Inside.sealed {c d : Core} {marker : Frame} {u : Trail} {pos : Nat}
    (h : Inside e.program ⟨c, z, X⟩ marker F d) (hX : ∀ g b, S g b → X g b)
    (hu : Follows e S u { d with pos := pos }) (hm : Good d.memo) :
    Yields e Good fate y ⟨c, z, X⟩ S
      (.going { d with ip := y, pos := pos, frames := sealed F c.frames }) [u] := by
  obtain ⟨G, K, hG, hK, htidy, hmem, hundo⟩ := (sealed_settled F c.frames).region h.tidy
  have hsimple : ∀ f ∈ G, Simple f := by
    intro f hf
    rcases hmem f hf with rfl | ⟨f', hf', rfl⟩
    · trivial
    · have := h.simple f' hf'
      cases f' <;> first | cases this; done | trivial
  have hchoice : ∀ f ∈ G, f.isChoice = false := by
    intro f hf
    rcases hmem f hf with rfl | ⟨f', -, rfl⟩
    · rfl
    · exact f'.isChoice_committed
  have hregs : (d.regs.undoAll e.program G).Alike X c.regs := by
    rw [hundo]
    exact h.regs
  refine .result ⟨rfl, hu.alike rfl (.refl _ _), ⟨⟨G, K, hG, hK, htidy, hsimple, hregs⟩,
    h.counts, h.start⟩, hm⟩ fun d' hd' _ => ?_
  have hframes : d'.frames = G ++ K := hd'.frames.trans hG
  refine .move ((Point.reaches_undoAll G hchoice d' hframes).trans
    (Point.reaches_settled _ hK rfl)) rfl (.done ⟨rfl, ?_, hd'.start.trans h.start, hd'.memo⟩)
  exact ((hd'.regs.mono hX).undoAll e.program hsimple).trans hregs

/-- What is known of a region: it fails, or it has matched in its first way. -/
def Settles (e : Setting) (Good : Option Memo → Prop) (y : Addr) (base : Base) (S : Stale)
    (marker : Frame) (p : Point) : List Trail → Prop
  | [] => ∃ d, Point.Reaches e p (.failing d) ∧ d.best = p.core.best ∧
      Restored Good base.loose base.core d
  | u :: _ => ∃ d F, Point.Reaches e p (.going d) ∧ d.best = p.core.best ∧ d.ip = y ∧
      Inside e.program base marker F d ∧ Follows e S u d ∧ Good d.memo

theorem Yields.settles {c : Core} {marker : Frame} {ip : Addr} {p : Point} {ts : List Trail}
    (hm : marker.isChoice = false) (hv : marker ≠ .void)
    (hundo : ∀ r : Registers, r.undo e.program marker = r) (hlive : ∀ i, fate.live i)
    (h : Yields e Good fate y ⟨c.marked ip marker, z, X⟩ S p ts) :
    Settles e Good y ⟨c, z, X⟩ S marker p ts := by
  have hfirst := h.first hlive
  cases ts with
  | nil =>
    obtain ⟨d, hreach, hbest, hd⟩ := hfirst
    obtain ⟨d', hmove, hbest', hd'⟩ := hd.unmarked hm hundo
    exact ⟨d', hreach.tail hmove, hbest'.trans hbest, hd'⟩
  | cons u us =>
    obtain ⟨d, hreach, hbest, hd⟩ := hfirst
    obtain ⟨F, hin⟩ := hd.above.inside hv
    exact ⟨d, F, hreach, hbest, hd.ip, hin, hd.follows, hd.memo⟩

/-- An atomic group, or a possessive repeat, has the first way only. -/
theorem atomic_gives {peek peek' : Option UInt8} (hB : Hosts e B)
    (hpart : Means e B μ peek part P f) : Means e B μ peek' (B.AtomicAt part) P f.first := by
  intro φ later z x y fate since S t h hz hS _ _ c hc
  obtain ⟨mark, w, hstart, hbody, hend, rfl⟩ := h
  have hmove := moves_atomicStart hB.quiet (hB.fetch hstart hc.ip)
  rw [hc.ip] at hmove
  have hready := hc.marked (x + 1) (.atomic mark)
  have hyields := hpart none later z (x + 1) w .certain none S t hbody hz hS
    (fun _ _ => Or.inl fun _ => trivial) (Or.inl rfl) _ hready
  have hsettles := hyields.settles (c := c) rfl (by simp) (fun _ => rfl) fun _ => trivial
  unfold Way.first
  refine .move (.single hmove) rfl ?_
  cases hf : f t with
  | nil =>
    rw [hf] at hsettles
    obtain ⟨d, hreach, hbest, hd⟩ := hsettles
    exact .move hreach hbest (.done hd)
  | cons u us =>
    rw [hf] at hsettles
    obtain ⟨d, F, hreach, hbest, hip, hin, hfollows, hmemo⟩ := hsettles
    have hclose := moves_atomicEnd (hB.fetch hend hip) hin.frames hin.tidy
    rw [hip] at hclose
    refine .move (hreach.tail hclose) hbest ?_
    exact hin.sealed (fun _ _ => Or.inl) hfollows hmemo

/-! ## Look arounds -/

theorem back?_le {s : Subject} {i n p : Nat} (h : back? s i n = some p) : p ≤ i := by
  induction n generalizing i with
  | zero =>
    cases h
    exact Nat.le_refl _
  | succ n ih =>
    obtain ⟨q, hq, h⟩ := Option.bind_eq_some_iff.mp h
    exact Nat.le_trans (ih h) (Nat.le_of_lt (Subject.prev?_lt hq))

theorem earlier_eq (s : Subject) (pos : Nat) (more : Option Nat) (hmore : more ≠ some 0) :
    Way.earlier s pos more =
      match s.prev? pos with
      | none => []
      | some p => p :: Way.earlier s p (more.map (· - 1)) := by
  rw [Way.earlier, if_neg hmore]
  split <;> simp_all

/-- Frames that remember places further back. -/
def backFrames (ip : Addr) (p : Nat) (more : Option Nat) (K : List Frame) : List Frame :=
  if more.all (0 < ·) && 0 < p then .stepBack ip p more :: K else K

/-- Ways of the body of a lookbehind from one place, that end where they are wanted. -/
def arriving (f : Way) (t : Trail) (p : Nat) : List Trail :=
  (f { t with pos := p }).filter (·.pos == t.pos)

theorem behind_eq (f : Way) (s : Subject) (min : Nat) (max : Option Nat) (t : Trail) :
    f.behind s min max t = (Way.placesBehind s t.pos min max).flatMap (arriving f t) := rfl

theorem arriving_eq (f : Way) (t : Trail) (p : Nat) :
    arriving f t p = (f { t with pos := p }).flatMap fun u => if u.pos == t.pos then [u] else [] := by
  unfold arriving
  generalize f { t with pos := p } = us
  induction us with
  | nil => rfl
  | cons u us ih =>
    rw [List.filter_cons, List.flatMap_cons, ih]
    split <;> simp

/-- The body of a lookbehind, run from a place behind. -/
theorem place_yields (hB : Hosts e B) (hpart : Describes e B μ part f) {mark p : Nat} {ip : Addr}
    (hz : z.Ok) (hS : S.Fits B.layout.undone) (hbody : part none later z x w)
    (hcheck : B.code[w]? = some (.checkPos mark)) {c d : Core}
    (hd : Extends e.program ⟨c.marked ip (.look mark t.pos), z, S⟩ ⟨d, z, S⟩)
    (hready : Ready e μ.Good z none S x { t with pos := p } d) :
    Yields e μ.Good .certain (w + 1) ⟨d, z, S⟩ S (.going d) (arriving f t p) := by
  have hgives : Gives e μ.Good (Fate.certain.before (Way.holds (· == t.pos))) z none S S x w
      { t with pos := p } (f { t with pos := p }) := hpart.gives hbody hz hS (Or.inl rfl)
  rw [arriving_eq]
  refine (hgives d hready).bind (Nat.le_refl _) (Nat.le_refl _) (fun _ _ h => h)
    (fun u hu d' hd' => ?_) fun u _ =>
      Fate.certain.before_leads (Way.regular_holds e.subject.size (· == t.pos)) u
  · obtain ⟨F, hin⟩ := (hd.trans hd'.above).inside (by simp)
    have hmove := moves_checkPos (hB.fetch hcheck hd'.ip) hin.frames hin.tidy
    rw [hd'.ip, hd'.follows.pos] at hmove
    by_cases hpos : u.pos = t.pos
    · rw [if_pos hpos] at hmove
      rw [if_pos (by simpa using hpos)]
      refine .move (.single hmove) rfl ?_
      refine .result ⟨rfl, hd'.follows.alike hd'.follows.pos.symm (.refl _ _), .moved rfl rfl rfl,
        hd'.memo⟩ fun d'' hd'' _ => .done (hd''.of_eq rfl rfl rfl)
    · rw [if_neg hpos] at hmove
      rw [if_neg (by simpa using hpos)]
      exact .move (.single hmove) rfl (.done ⟨rfl, .refl _ _, rfl, hd'.memo⟩)

theorem backFrames_less (ip : Addr) (q : Nat) (more : Option Nat) (K : List Frame) :
    (if more.all (1 < ·) && 0 < q then .stepBack ip q (more.map (· - 1)) :: K else K) =
      backFrames ip q (more.map (· - 1)) K := by
  unfold backFrames
  cases more with
  | none => rfl
  | some n =>
    have : (1 < n) ↔ (0 < n - 1) := Nat.sub_pos_iff_lt.symm
    simp only [Option.all_some, Option.map_some, this]

/-- Where no frame remembers places further back there are none. -/
theorem earlier_nil {s : Subject} {p : Nat} {more : Option Nat}
    (h : (more.all (0 < ·) && 0 < p) = false) : Way.earlier s p more = [] := by
  by_cases hmore : more = some 0
  · rw [Way.earlier, if_pos hmore]
  · have hall : more.all (0 < ·) = true := by
      cases more with
      | none => rfl
      | some n =>
        have : n ≠ 0 := fun h => hmore (by rw [h])
        simp only [Option.all_some, decide_eq_true_eq]
        omega
    rw [hall, Bool.true_and, decide_eq_false_iff_not] at h
    rw [earlier_eq s p more hmore]
    cases hq : s.prev? p with
    | none => rfl
    | some q => exact absurd (Nat.lt_of_le_of_lt (Nat.zero_le q) (Subject.prev?_lt hq)) h

/-- All places behind from one on, nearest first. -/
theorem places_yields (hB : Hosts e B) (hpart : Describes e B μ part f) {mark : Nat} {ip : Addr}
    (hz : z.Ok) (hS : S.Fits B.layout.undone) (hbody : part none later z x w)
    (hcheck : B.code[w]? = some (.checkPos mark)) {c : Core} (hc : Follows e S t c) (p : Nat)
    (more : Option Nat) (hp : p ≤ t.pos) {d : Core}
    (hd : Restored μ.Good S (c.marked ip (.look mark t.pos)) d) :
    Yields e μ.Good .certain (w + 1) ⟨c.marked ip (.look mark t.pos), z, S⟩ S
      (.going { d with
        ip := x, pos := p, frames := backFrames x p more (.look mark t.pos :: c.frames) })
      ((p :: Way.earlier e.subject p more).flatMap (arriving f t)) := by
  induction p using Nat.strongRecOn generalizing more d with
  | _ p ih =>
    let K := Frame.look mark t.pos :: c.frames
    let d₁ : Core := { d with ip := x, pos := p, frames := backFrames x p more K }
    have habove : Above e.program ⟨c.marked ip (.look mark t.pos), z, S⟩ d₁ := by
      refine ⟨?_, fun id _ => congrArg (·[id]?) hd.regs.counts, hd.start⟩
      by_cases hpush : (more.all (0 < ·) && 0 < p) = true
      · refine ⟨[.stepBack x p more], K, if_pos hpush, .refl _, .single trivial, ?_, hd.regs⟩
        intro f hf
        cases List.mem_singleton.mp hf
        trivial
      · exact ⟨[], K, if_neg hpush, .refl _, .nil _, by simp, hd.regs⟩
    have hext : Extends e.program ⟨c.marked ip (.look mark t.pos), z, S⟩ ⟨d₁, z, S⟩ :=
      ⟨habove, Nat.le_refl _, Nat.le_refl _, fun _ _ h => h⟩
    have hready : Ready e μ.Good z none S x { t with pos := p } d₁ := by
      refine ⟨rfl, ⟨rfl, Nat.le_trans hp hc.inside, hd.regs.keep.trans hc.keep,
        hd.regs.captures.trans hc.captures, hd.regs.captures.size.trans hc.groups,
        (congrArg Array.size hd.regs.counts).trans hc.counts⟩, (fun _ _ _ hs => nomatch hs),
        (fun _ hs => nomatch hs), hd.memo⟩
    rw [List.flatMap_cons]
    refine (place_yields hB hpart hz hS hbody hcheck hext hready).append hext fun d' hd' _ => ?_
    by_cases hpush : (more.all (0 < ·) && 0 < p) = true
    · have hframes : d'.frames = .stepBack x p more :: K := hd'.frames.trans (if_pos hpush)
      have hmore : more ≠ some 0 := by
        rintro rfl
        simp at hpush
      rw [earlier_eq e.subject p more hmore]
      cases hq : e.subject.prev? p with
      | none =>
        refine .move (.single (Point.moves_stepBack_none d' hframes hq)) rfl (.done ?_)
        exact ⟨rfl, hd'.regs.trans hd.regs, hd'.start.trans hd.start, hd'.memo⟩
      | some q =>
        have hmove := Point.moves_stepBack hB.quiet d' hframes hq
        rw [backFrames_less] at hmove
        have hlt := Subject.prev?_lt hq
        refine .move (.single hmove) rfl ?_
        exact ih q hlt (more.map (· - 1)) (Nat.le_trans (Nat.le_of_lt hlt) hp)
          (d := { d' with frames := K })
          ⟨rfl, hd'.regs.trans hd.regs, hd'.start.trans hd.start, hd'.memo⟩
    · rw [earlier_nil (by simpa using hpush)]
      exact .done ⟨hd'.frames.trans (if_neg hpush), hd'.regs.trans hd.regs,
        hd'.start.trans hd.start, hd'.memo⟩

theorem behind_yields (hB : Hosts e B) (hpart : Describes e B μ part f) {mark : Nat}
    (hz : z.Ok) (hS : S.Fits B.layout.undone) {min : Nat} {max : Option Nat}
    (hstep : B.code[x]? = some (.stepBack min max)) (hbody : part none later z (x + 1) w)
    (hcheck : B.code[w]? = some (.checkPos mark)) {c : Core} (hc : Follows e S t c)
    (hm : μ.Good c.memo) :
    Yields e μ.Good .certain (w + 1) ⟨c.marked x (.look mark t.pos), z, S⟩ S
      (.going (c.marked x (.look mark t.pos))) (f.behind e.subject min max t) := by
  rw [behind_eq]
  unfold Way.placesBehind
  have hpos : (c.marked x (.look mark t.pos)).pos = t.pos := hc.pos
  cases hback : back? e.subject t.pos min with
  | none =>
    have hmove := moves_stepBack_fail (hB.fetch hstep rfl) (hpos ▸ hback)
    exact .move (.single hmove) rfl (.done ⟨rfl, .refl _ _, rfl, hm⟩)
  | some p =>
    have hmove := moves_stepBack_first hB.quiet (hB.fetch hstep rfl) (hpos ▸ hback)
    refine .move (.single hmove) rfl ?_
    exact places_yields hB hpart hz hS hbody hcheck hc p (max.map (· - min)) (back?_le hback)
      ⟨rfl, .refl _ _, rfl, hm⟩

theorem Settles.after {base : Base} {marker : Frame} {p q : Point} {ts : List Trail}
    (h : Settles e Good y base S marker q ts) (hr : Point.Reaches e p q)
    (hb : q.core.best = p.core.best) : Settles e Good y base S marker p ts := by
  cases ts with
  | nil =>
    obtain ⟨d, hreach, hbest, hd⟩ := h
    exact ⟨d, hr.trans hreach, hbest.trans hb, hd⟩
  | cons u us =>
    obtain ⟨d, F, hreach, hbest, hd⟩ := h
    exact ⟨d, F, hr.trans hreach, hbest.trans hb, hd⟩

/-- What a look around looks for. -/
def lookedFor (s : Subject) (k : Look) (info : Info) (f : Way) : Way :=
  if k.behind then f.behind s info.minChars info.maxChars else f

theorem lookBody_settles (hB : Hosts e B) {k : Look} {mark : Nat}
    (hpart : Means e B μ none part P f) (hP : k.behind = true → P = .none) (hz : z.Ok)
    (hS : S.Fits B.layout.undone) (h : B.LookBodyAt k info part mark φ later z x y) {c : Core}
    (hc : Ready e μ.Good z since (S.or P) x t c) :
    Settles e μ.Good y ⟨c, z, S.or P⟩ S (.look mark t.pos) (.going c)
      (lookedFor e.subject k info f t) := by
  obtain ⟨hstart, hbody⟩ := h
  have hmove : Point.Moves e (.going c) (.going (c.marked (x + 1) (.look mark t.pos))) := by
    have := moves_lookStart hB.quiet (hB.fetch hstart hc.ip)
    rw [hc.ip] at this
    rw [← hc.follows.pos]
    exact this
  refine Settles.after ?_ (.single hmove) rfl
  have hready := hc.marked (x + 1) (.look mark t.pos)
  unfold lookedFor
  cases hb : k.behind with
  | false =>
    rw [hb] at hbody
    simp only [Bool.false_eq_true, ↓reduceIte] at hbody ⊢
    exact (hpart none later z (x + 1) y .certain none S t hbody hz hS
      (fun _ _ => Or.inl fun _ => trivial) (Or.inl rfl) _ hready).settles rfl (by simp)
      (fun _ => rfl) fun _ => trivial
  | true =>
    rw [hb] at hbody
    simp only [↓reduceIte] at hbody ⊢
    obtain rfl := hP hb
    obtain ⟨w, hstep, hbody, hcheck, rfl⟩ := hbody
    rw [Stale.or_none] at hc ⊢
    exact (behind_yields hB hpart hz hS hstep hbody hcheck hc.follows hc.memo).settles rfl
      (by simp) (fun _ => rfl) fun _ => trivial

/-- A look around that wants a match keeps what its first way captures. -/
theorem lookFor_gives (hB : Hosts e B) {k : Look} (hk : k.negated = false)
    (hpart : Means e B μ none part P f) (hP : k.behind = true → P = .none)
    {peek : Option UInt8} :
    Means e B μ peek (B.LookAt k info part) P (lookedFor e.subject k info f).ahead := by
  intro φ later z x y fate since S t h hz hS _ _ c hc
  obtain ⟨mark, w, h⟩ := h
  rw [hk, if_neg (by simp)] at h
  obtain ⟨hbody, hend, rfl⟩ := h
  have hsettles := lookBody_settles hB hpart hP hz hS hbody hc
  unfold Way.ahead Way.first
  cases hf : lookedFor e.subject k info f t with
  | nil =>
    rw [hf] at hsettles
    obtain ⟨d, hreach, hbest, hd⟩ := hsettles
    exact .move hreach hbest (.done hd)
  | cons u us =>
    rw [hf] at hsettles
    obtain ⟨d, F, hreach, hbest, hip, hin, hfollows, hmemo⟩ := hsettles
    have hclose := moves_lookEnd (hB.fetch hend hip) hin.frames hin.tidy
    rw [hip] at hclose
    refine .move (hreach.tail hclose) hbest ?_
    refine hin.sealed (fun _ _ => Or.inl) ⟨rfl, hc.follows.inside, hfollows.keep,
      hfollows.captures, hfollows.groups, hfollows.counts⟩ hmemo

/-- A look around that wants no match leaves nothing behind. -/
theorem lookAgainst_gives (hB : Hosts e B) {k : Look} (hk : k.negated = true)
    (hpart : Describes e B μ part f) :
    Describes e B μ (B.LookAt k info part) (lookedFor e.subject k info f).never := by
  intro φ later z x y fate since S t h hz hS _ _
  rw [Stale.or_none]
  intro c hc
  obtain ⟨mark, w, h⟩ := h
  rw [hk, if_pos rfl] at h
  obtain ⟨hfork, hbody, hunwind, hdrop, hfail, rfl⟩ := h
  have hmove := moves_fork hB.quiet (hB.fetch hfork hc.ip)
  rw [hc.ip] at hmove
  let c₁ : Core := { c with ip := x + 1, frames := .alternative (w + 3) c.pos :: c.frames }
  have hunder : Resumed e μ.Good z S (x + 1) c c₁ :=
    .under hc.memo _ (f := .alternative (w + 3) c.pos) trivial trivial fun _ => rfl
  have hready : Ready e μ.Good z since (S.or .none) (x + 1) t c₁ := by
    rw [Stale.or_none]
    exact hc.resumed hz hunder
  have hsettles := lookBody_settles hB hpart (fun _ => rfl) hz hS hbody hready
  rw [Stale.or_none] at hsettles
  unfold Way.never
  refine .move (.single hmove) rfl ?_
  cases hf : lookedFor e.subject k info f t with
  | nil =>
    rw [hf] at hsettles
    obtain ⟨d, hreach, hbest, hd⟩ := hsettles
    obtain ⟨d', hback, hbest', hip, hpos, hres⟩ := hd.resume hB.quiet (c := c) rfl rfl rfl
    refine .move (hreach.tail hback) (hbest'.trans hbest) ?_
    exact Gives.stay.enter hz hc (hip ▸ hres.resumed hpos) .refl rfl
      fun d'' hd' _ => .done (hres.trans hd')
  | cons u us =>
    rw [hf] at hsettles
    obtain ⟨d, F, hreach, hbest, hip, hin, -, hmemo⟩ := hsettles
    have h₁ := moves_unwind (hB.fetch hunwind hip) hin.frames hin.tidy
    rw [hip] at h₁
    have h₂ := moves_drop (hB.fetch hdrop rfl : e.program.code[Core.ip { d with
      ip := w + 1, frames := c₁.frames, regs := d.regs.undoAll e.program F }]? = _) rfl
    have h₃ := moves_fail (hB.fetch hfail rfl : e.program.code[Core.ip { d with
      ip := w + 2, frames := c.frames, regs := d.regs.undoAll e.program F }]? = _)
    refine .move (((hreach.tail h₁).tail h₂).tail h₃) hbest (.done ?_)
    exact ⟨rfl, hin.regs, hin.start, hmemo⟩

end RegexMachine.Machine
