import RegexMachine.Proofs.Lengths
import RegexMachine.Proofs.Yields

/-!
Running a piece of code from any state that is at its beginning. Each instruction has a rule that
says which ways it gives, and so have the few ways in which pieces of code are put together.
-/
namespace RegexMachine
open Machine

/-- Guards that have failed stand at dead places. -/
def Promise.Kept (φ : Promise) (memo : Option Memo) : Prop :=
  ∀ ψ m, φ = some ψ → memo = some m → ∀ id p, m.hasFailed id p = true → ¬ ψ id p

theorem Memo.hasFailed_markFailed (m : Memo) (i p j q : Nat) :
    (m.markFailed i p).hasFailed j q = true ↔ (i = j ∧ p = q) ∨ m.hasFailed j q = true := by
  simp [Memo.hasFailed, Memo.markFailed, Std.HashSet.contains_insert]

theorem Promise.Kept.markFailed {φ : Promise} {ψ : Nat → Nat → Prop} {memo : Option Memo}
    (h : φ.Kept memo) {id p : Nat} (hφ : φ = some ψ) (hdead : ¬ ψ id p) :
    φ.Kept (memo.map (·.markFailed id p)) := by
  subst hφ
  intro ψ' m hψ hm j q hf
  cases hψ
  obtain ⟨m', rfl, rfl⟩ := Option.map_eq_some_iff.mp hm
  rcases (m'.hasFailed_markFailed id p j q).mp hf with ⟨rfl, rfl⟩ | hf
  · exact hdead
  · exact h _ _ rfl rfl j q hf

/-- The check of the innermost round is seen, if it is known where that round began. -/
def Standing (frames : List Frame) (within since : Option Nat) : Prop :=
  ∀ check start, within = some check → since = some start → Sees frames check start

/-- The check of the innermost round is none of those inside. -/
def Zone.Ok (z : Zone) : Prop := ∀ check, z.within = some check → check < z.checks

/-- Where there are guards, the places from which the match can be completed do not depend on the
round, once it has consumed something. -/
structure Agrees (size : Nat) (z : Zone) (since : Option Nat) (later : Nat → Prop) (fate : Fate) :
    Prop where
  known : since.isSome = z.within.isSome
  live : ∀ p, p ≤ size → (∀ start, since = some start → start < p) → (fate.live p ↔ later p)
  spare : ∀ p, p ≤ size → (∀ start, since = some start → start < p) → ¬ later p → fate.spare p

/-- The memory of guards: there is none, or what has failed does not break a promise. -/
inductive Memory where
  | blank
  | kept (φ : Promise)

namespace Memory

def Good : Memory → Option Memo → Prop
  | blank => (· = none)
  | kept φ => φ.Kept

/-- Guards do no harm: there are none, or they remember nothing, or they remember what the fate of
places is. -/
def Safe (μ : Memory) (φ : Promise) (size : Nat) (z : Zone) (since : Option Nat)
    (later : Nat → Prop) (fate : Fate) : Prop :=
  φ = none ∨ μ = blank ∨ μ = kept φ ∧ Agrees size z since later fate

end Memory

/-- The fate of a place decides that of all ways from there. -/
theorem leads_iff {size : Nat} {f : Way} (hf : f.Regular size) (later : Nat → Prop) (t : Trail) :
    leads f later t.pos ↔ ∃ r ∈ f t, later r.pos := by
  constructor
  · rintro ⟨u, r, hu, hr, hl⟩
    have hmem : r.pos ∈ (f t).map Trail.pos := by
      rw [hf.blind t u hu.symm]
      exact List.mem_map_of_mem hr
    obtain ⟨r', hr', hpos⟩ := List.mem_map.mp hmem
    exact ⟨r', hr', hpos ▸ hl⟩
  · rintro ⟨r, hr, hl⟩
    exact ⟨t, r, rfl, hr, hl⟩

/-- Ways that end inside go on to agree. -/
theorem leads_congr {size : Nat} {f g : Way} (hf : f.Regular size) (hg : g.Regular size)
    {later live : Nat → Prop} (t : Trail)
    (h : (f t).map Trail.pos = (g t).map Trail.pos)
    (hl : ∀ r ∈ f t, live r.pos ↔ later r.pos) :
    leads f live t.pos ↔ leads g later t.pos := by
  rw [leads_iff hf, leads_iff hg]
  constructor
  · rintro ⟨r, hr, hlive⟩
    have hmem : r.pos ∈ (g t).map Trail.pos := h ▸ List.mem_map_of_mem hr
    obtain ⟨r', hr', hpos⟩ := List.mem_map.mp hmem
    exact ⟨r', hr', hpos ▸ (hl r hr).mp hlive⟩
  · rintro ⟨r, hr, hlater⟩
    have hmem : r.pos ∈ (f t).map Trail.pos := h ▸ List.mem_map_of_mem hr
    obtain ⟨r', hr', hpos⟩ := List.mem_map.mp hmem
    exact ⟨r', hr', (hl r' hr').mpr (hpos ▸ hlater)⟩

theorem Fate.before_leads {size : Nat} {f : Way} (hf : f.Regular size) (fate : Fate) (t : Trail) :
    (fate.before f).Leads t.pos fate (f t) :=
  ⟨(leads_iff hf fate.live t).mp, fun h r hr => h t r rfl hr⟩

theorem Agrees.before {size : Nat} {f : Way} (hf : f.Regular size) {z : Zone} {since : Option Nat}
    {later : Nat → Prop} {fate : Fate} (h : Agrees size z since later fate) :
    Agrees size z since (leads f later) (fate.before f) := by
  refine ⟨h.known, fun p hp hs => ?_, fun p hp hs hdead t r ht hr => ?_⟩
  · let t : Trail := ⟨p, Captures.none 0, none⟩
    refine leads_congr (t := t) hf hf rfl fun r hr =>
      h.live _ (hf.inside t r hp hr) fun start hst => ?_
    exact Nat.lt_of_lt_of_le (hs start hst) (hf.forward t r hr)
  · subst ht
    refine h.spare _ (hf.inside t r hp hr) (fun start hst => ?_) fun hl => hdead ⟨t, r, rfl, hr, hl⟩
    exact Nat.lt_of_lt_of_le (hs start hst) (hf.forward t r hr)

theorem Memory.Safe.before {μ : Memory} {φ : Promise} {size : Nat} {f : Way} {z : Zone}
    {since : Option Nat} {later : Nat → Prop} {fate : Fate} (hf : f.Regular size)
    (h : μ.Safe φ size z since later fate) :
    μ.Safe φ size z since (leads f later) (fate.before f) :=
  h.imp_right (Or.imp_right fun h => ⟨h.1, h.2.before hf⟩)

namespace Machine

/-- A setting in which code is run, with no limits. -/
structure Hosts (e : Setting) (B : Built) : Prop where
  quiet : Quiet e
  code : e.program.code = B.code
  loops : e.program.tables.loops = B.loops
  subject : e.subject = B.scene.subject
  origin : e.origin = B.scene.origin
  history : e.program.has .captureHistory = B.scene.history
  /-- Groups that are not restored have no history. -/
  undone : ∀ g, B.layout.undone.getD g true = false → B.scene.history = false
  encoding : B.layout.encoding = B.scene.subject.encoding
  captures : B.layout.capturesMatter = false
  calls : ∀ g, B.layout.calls.isCalled g = false
  groups : ∀ (x : Addr) g undo, B.code[x]? = some (.groupStart g undo) → g < e.program.tables.captures + 1

theorem Hosts.fetch {e : Setting} {B : Built} (h : Hosts e B) {c : Core} {x : Addr} {i : Instr}
    (hi : B.code[x]? = some i) (hc : c.ip = x) : e.program.code[c.ip]? = some i := by
  rw [h.code, hc, hi]

/-- A core at the beginning of a piece of code, in a round that began at `since`. -/
structure Ready (e : Setting) (Good : Option Memo → Prop) (z : Zone) (since : Option Nat)
    (X : Stale) (x : Addr) (t : Trail) (c : Core) : Prop where
  ip : c.ip = x
  follows : Follows e X t c
  standing : Standing c.frames z.within since
  began : ∀ start, since = some start → start ≤ t.pos
  memo : Good c.memo

/-- Going on elsewhere from the same place, with frames on top that undo what was done. -/
structure Resumed (e : Setting) (Good : Option Memo → Prop) (z : Zone) (X : Stale) (a : Addr)
    (c d : Core) : Prop where
  ip : d.ip = a
  pos : d.pos = c.pos
  regs : d.regs.Alike X c.regs
  above : Above e.program ⟨c, z, X⟩ d
  memo : Good d.memo

section

variable {e : Setting} {Good : Option Memo → Prop} {z : Zone} {since : Option Nat} {X S : Stale}
  {x y a w : Addr} {t : Trail} {c d : Core} {fate : Fate} {ts us : List Trail}

theorem standing_above (hz : z.Ok) {base : Base} (hbase : base.zone = z)
    (h : Standing base.core.frames z.within since) (ha : Above e.program base c) :
    Standing c.frames z.within since := by
  intro check start hw hs
  obtain ⟨F, K, hF, hK, htidy, -, -⟩ := ha.frames
  rw [hF]
  exact ((h check start hw hs).of_settled hK).append htidy (hbase ▸ hz check hw)

theorem Ready.resumed (hz : z.Ok) (h : Ready e Good z since X x t c)
    (hd : Resumed e Good z X a c d) : Ready e Good z since X a t d where
  ip := hd.ip
  follows := h.follows.alike hd.pos hd.regs
  standing := standing_above hz rfl h.standing hd.above
  began := h.began
  memo := hd.memo

theorem Resumed.extends (h : Resumed e Good z X a c d) :
    Extends e.program ⟨c, z, X⟩ ⟨d, z, X⟩ :=
  ⟨h.above, Nat.le_refl _, Nat.le_refl _, fun _ _ h => h⟩

/-- Nothing but the address has changed. -/
theorem Resumed.at (hm : Good c.memo) (a : Addr) :
    Resumed e Good z X a c { c with ip := a } :=
  ⟨rfl, rfl, .refl _ _,
    ⟨⟨[], _, rfl, .refl _, .nil _, by simp, .refl _ _⟩, fun _ _ => rfl, rfl⟩, hm⟩

/-- A frame that undoes nothing has been pushed. -/
theorem Resumed.under (hm : Good c.memo) (a : Addr) {f : Frame} (hplain : f.Plain z.checks)
    (hsimple : Simple f) (hf : ∀ r : Registers, r.undo e.program f = r) :
    Resumed e Good z X a c { c with ip := a, frames := f :: c.frames } := by
  refine ⟨rfl, rfl, .refl _ _, ⟨⟨[f], _, rfl, .refl _, .single hplain, ?_, ?_⟩, fun _ _ => rfl, rfl⟩,
    hm⟩
  · intro g hg
    cases List.mem_singleton.mp hg
    exact hsimple
  · simp [hf, Registers.Alike.refl]

theorem Restored.of_eq {c' : Core} (h : Restored Good X c d) (hf : c.frames = c'.frames)
    (hr : c.regs = c'.regs) (hs : c.start = c'.start) : Restored Good X c' d :=
  ⟨h.frames.trans hf, hr ▸ h.regs, h.start.trans hs, h.memo⟩

theorem Restored.trans {d' : Core} (h : Restored Good X c d) (h' : Restored Good X d d') :
    Restored Good X c d' :=
  ⟨h'.frames.trans h.frames, h'.regs.trans h.regs, h'.start.trans h.start, h'.memo⟩

/-- The machine is back at a core, but for the address. -/
theorem Restored.resumed (h : Restored Good X c d) (hp : d.pos = c.pos) :
    Resumed e Good z X d.ip c d :=
  ⟨rfl, hp, h.regs, ⟨⟨[], _, rfl, h.frames ▸ .refl _, .nil _, by simp, h.regs⟩,
    fun id _ => congrArg (·[id]?) h.regs.counts, h.start⟩, h.memo⟩

/-- After a failure the alternative on top is resumed. -/
theorem Restored.resume {c' : Core} (h : Restored Good X c' d) (hq : Quiet e) {ip : Addr}
    (hc' : c'.frames = .alternative ip c.pos :: c.frames) (hr : c'.regs = c.regs)
    (hs : c'.start = c.start) :
    ∃ d', Point.Moves e (.failing d) (.going d') ∧ d'.best = d.best ∧ d'.ip = ip ∧
      d'.pos = c.pos ∧ Restored Good X c d' :=
  ⟨_, Point.moves_alternative hq d (h.frames.trans hc'), rfl, rfl, rfl,
    rfl, hr ▸ h.regs, h.start.trans hs, h.memo⟩

/-- From every state at the beginning of a piece of code, it gives these ways. -/
def Gives (e : Setting) (Good : Option Memo → Prop) (fate : Fate) (z : Zone)
    (since : Option Nat) (X S : Stale) (x y : Addr) (t : Trail) (ts : List Trail) : Prop :=
  ∀ c, Ready e Good z since X x t c → Yields e Good fate y ⟨c, z, X⟩ S (.going c) ts

/-- A state further on, from which a piece of code gives ways, and what comes after them. -/
theorem Gives.after (h : Gives e Good fate z since X S a y t ts) (hz : z.Ok)
    (hc : Ready e Good z since X x t c) (hd : Resumed e Good z X a c d) {p : Point}
    (hr : Point.Reaches e p (.going d)) (hb : d.best = p.core.best)
    (cont : ∀ d', Restored Good X d d' → (∀ t ∈ ts, ¬ fate.live t.pos) →
      Yields e Good fate y ⟨c, z, X⟩ S (.failing d') us) :
    Yields e Good fate y ⟨c, z, X⟩ S p (ts ++ us) :=
  .move hr hb ((h d (hc.resumed hz hd)).append hd.extends cont)

/-- The same, where nothing comes after. -/
theorem Gives.enter (h : Gives e Good fate z since X S a y t ts) (hz : z.Ok)
    (hc : Ready e Good z since X x t c) (hd : Resumed e Good z X a c d) {p : Point}
    (hr : Point.Reaches e p (.going d)) (hb : d.best = p.core.best)
    (cont : ∀ d', Restored Good X d d' → (∀ t ∈ ts, ¬ fate.live t.pos) →
      Yields e Good fate y ⟨c, z, X⟩ S (.failing d') []) :
    Yields e Good fate y ⟨c, z, X⟩ S p ts := by
  have := h.after hz hc hd hr hb cont
  rwa [List.append_nil] at this

theorem Gives.stay : Gives e Good fate z since S S x x t [t] := fun c hc =>
  .result ⟨hc.ip, hc.follows, Above.refl _ ⟨c, z, S⟩, hc.memo⟩ fun _ hd _ => .done hd

end

variable {e : Setting} {B : Built} {Good : Option Memo → Prop} {z : Zone} {since : Option Nat}
  {X S : Stale} {x y a w : Addr} {t : Trail} {c d : Core} {fate : Fate} {ts us : List Trail}

theorem Gives.jump (hB : Hosts e B) (hz : z.Ok) (hi : B.code[x]? = some (.jump a))
    (h : Gives e Good fate z since X S a y t ts) : Gives e Good fate z since X S x y t ts := by
  intro c hc
  exact h.enter hz hc (.at hc.memo a) (.single (moves_jump (hB.fetch hi hc.ip))) rfl
    fun d hd _ => .done (hd.of_eq rfl rfl rfl)

/-- The ways behind an alternative come after all others. -/
theorem Gives.fork (hB : Hosts e B) (hz : z.Ok) (hi : B.code[x]? = some (.fork a))
    (h : Gives e Good fate z since X S (x + 1) y t ts)
    (h' : Gives e Good fate z since X S a y t us) :
    Gives e Good fate z since X S x y t (ts ++ us) := by
  intro c hc
  have hmove := moves_fork hB.quiet (hB.fetch hi hc.ip)
  rw [hc.ip] at hmove
  have hunder : Resumed e Good z X (x + 1) c
      { c with ip := x + 1, frames := .alternative a c.pos :: c.frames } :=
    .under hc.memo _ trivial trivial fun _ => rfl
  refine h.after hz hc hunder (.single hmove) rfl fun d hd _ => ?_
  obtain ⟨d', hback, hbest, rfl, hpos, hres⟩ := hd.resume hB.quiet (c := c) rfl rfl rfl
  exact h'.enter hz hc (hres.resumed hpos) (.single hback) hbest
    fun d'' hd' _ => .done (hres.trans hd')

/-- Both ways on, in the order that a loop prefers. -/
theorem Gives.offer (hB : Hosts e B) (hz : z.Ok) {greedy : Bool} {exit o : Addr}
    (ho : B.OfferAt greedy exit x o) (h : Gives e Good fate z since X S o y t ts)
    (h' : Gives e Good fate z since X S exit y t us) :
    Gives e Good fate z since X S x y t (Way.prefer greedy ts us) := by
  unfold Built.OfferAt at ho
  cases greedy with
  | true =>
    obtain ⟨hi, rfl⟩ := ho
    exact h.fork hB hz hi h'
  | false =>
    obtain ⟨hi, hj, rfl⟩ := ho
    exact (h'.jump hB hz hj).fork hB hz hi h

/-- One piece of code after another. -/
theorem Gives.bind (hz : z.Ok) {S' : Stale} {fate' : Fate} {g : Way}
    (h : Gives e Good fate' z since X S' x w t ts) (hS : ∀ g b, S' g b → X g b)
    (hforward : ∀ u ∈ ts, t.pos ≤ u.pos)
    (hg : ∀ u ∈ ts, Gives e Good fate z since S' S w y u (g u))
    (hleads : ∀ u ∈ ts, fate'.Leads u.pos fate (g u)) :
    Gives e Good fate z since X S x y t (ts.flatMap g) := by
  intro c hc
  refine (h c hc).bind (Nat.le_refl _) (Nat.le_refl _) hS (fun u hu d hd => hg u hu d ?_) hleads
  exact ⟨hd.ip, hd.follows, standing_above hz rfl hc.standing hd.above,
    fun start hs => Nat.le_trans (hc.began start hs) (hforward u hu), hd.memo⟩

/-- A guard finds out whether its round has consumed something. -/
theorem Ready.roundBegan {c : Core} (h : Ready e Good z since X x t c)
    (hk : since.isSome = z.within.isSome) :
    ∃ fresh, RoundBeganAt c.frames z.within c.pos fresh ∧
      (fresh = false → ∀ start, since = some start → start < t.pos) := by
  unfold RoundBeganAt
  cases hw : z.within with
  | none =>
    rw [hw] at hk
    refine ⟨false, rfl, fun _ start hs => ?_⟩
    simp [hs] at hk
  | some check =>
    rw [hw] at hk
    obtain ⟨start, hs⟩ := Option.isSome_iff_exists.mp hk
    refine ⟨start == c.pos, ⟨start, h.standing check start hw hs, rfl⟩, fun hfresh start' hs' => ?_⟩
    cases hs.symm.trans hs'
    have hle := h.began start hs
    have hne : start ≠ c.pos := by simpa using hfresh
    rw [h.follows.pos] at hne
    omega

/-- A guard lets pass all but what has failed before, and remembers what fails. -/
theorem Gives.guard {μ : Memory} {φ : Promise} {f : Way} {later : Nat → Prop}
    (hB : Hosts e B) (hz : z.Ok) (hf : f.Regular e.subject.size)
    (hφ : μ.Safe φ e.subject.size z since later fate)
    (hg : B.GuardAt φ (leads f later) z x a)
    (h : Gives e μ.Good fate z since X S a y t (f t)) :
    Gives e μ.Good fate z since X S x y t (f t) := by
  rcases hg with rfl | ⟨ψ, id, rfl, hψ, hi, rfl⟩
  · exact h
  intro c hc
  have hfetch := hB.fetch hi hc.ip
  have pass (hmove : Point.Moves e (.going c) (.going { c with ip := x + 1 })) :
      Yields e μ.Good fate y ⟨c, z, X⟩ S (.going c) (f t) :=
    h.enter hz hc (.at hc.memo _) (.single hmove) rfl fun d hd _ => .done (hd.of_eq rfl rfl rfl)
  cases hmemo : c.memo with
  | none =>
    have hmove := moves_guard_none hfetch hmemo
    rw [hc.ip] at hmove
    exact pass hmove
  | some m =>
    obtain ⟨rfl, hagrees⟩ : μ = .kept (some ψ) ∧ Agrees e.subject.size z since later fate := by
      refine (hφ.resolve_left (by simp)).resolve_left ?_
      rintro rfl
      exact absurd (hmemo.symm.trans hc.memo) (by simp)
    obtain ⟨fresh, hbegan, hsince⟩ := hc.roundBegan hagrees.known
    have hmove := moves_guard hB.quiet hfetch hmemo hbegan
    rw [hc.ip] at hmove
    cases hfr : fresh with
    | true =>
      simp only [hfr, ↓reduceIte] at hmove
      exact pass hmove
    | false =>
      -- The round has consumed something, so the fate of the site is that of the ways from here.
      have hbefore := hagrees.before hf
      have hinside := hc.follows.inside
      simp only [hfr, Bool.false_eq_true, ↓reduceIte] at hmove
      cases hfail : m.hasFailed id c.pos with
      | true =>
        simp only [hfail, ↓reduceIte] at hmove
        have hnot : ¬ ψ id c.pos := hc.memo ψ m rfl hmemo id c.pos hfail
        rw [hψ, hc.follows.pos] at hnot
        have hspare := hbefore.spare t.pos hinside (hsince hfr) hnot
        have hnone : Yields e (Memory.kept (some ψ)).Good fate y ⟨c, z, X⟩ S (.failing c) [] :=
          .done ⟨rfl, .refl _ _, rfl, hc.memo⟩
        have := hnone.skip fun r hr => hspare t r rfl hr
        rw [List.append_nil] at this
        exact .move (.single hmove) rfl this
      | false =>
        simp only [hfail, Bool.false_eq_true, ↓reduceIte] at hmove
        refine h.enter hz hc
          (.under hc.memo _ (f := .guard id c.pos) trivial trivial fun _ => rfl)
          (.single hmove) rfl fun d hd hts => ?_
        have hnot : ¬ ψ id c.pos := by
          rw [hψ, hc.follows.pos, ← hbefore.live t.pos hinside (hsince hfr)]
          intro hl
          obtain ⟨r, hr, hl⟩ := (fate.before_leads hf t).live hl
          exact hts r hr hl
        refine .move (.single (Point.moves_guard d hd.frames)) rfl (.done ?_)
        exact ⟨rfl, hd.regs, hd.start, Promise.Kept.markFailed hd.memo rfl hnot⟩

/-! ## Atoms -/

/-- An instruction that matches a text of some length. -/
theorem Gives.text (hB : Hosts e B) {i : Instr} {width : Nat → Option Nat}
    (hi : B.code[x]? = some i) (hx : ∀ r, exec r e i = fun s => consume e (width s.pos) s)
    (hw : ∀ p n, p ≤ e.subject.size → width p = some n → p + n ≤ e.subject.size) :
    Gives e Good fate z since S S x (x + 1) t (Way.text width t) := by
  intro c hc
  have hfetch := hB.fetch hi hc.ip
  unfold Way.text
  cases hn : width t.pos with
  | none =>
    refine .move (.single (moves_consume_none hfetch hx (hc.follows.pos ▸ hn))) rfl ?_
    exact .done ⟨rfl, .refl _ _, rfl, hc.memo⟩
  | some n =>
    refine .move (.single (moves_consume hfetch hx (hc.follows.pos ▸ hn))) rfl ?_
    refine .result ⟨?_, ⟨?_, hw _ _ hc.follows.inside hn, hc.follows.keep, hc.follows.captures,
      hc.follows.groups, hc.follows.counts⟩, .moved rfl rfl rfl, hc.memo⟩ fun d hd _ => ?_
    · exact congrArg (· + 1) hc.ip
    · exact congrArg (· + n) hc.follows.pos
    · exact .done (hd.of_eq rfl rfl rfl)

theorem Gives.anchor (hB : Hosts e B) {a : Anchor} (hi : B.code[x]? = some (.anchor a)) :
    Gives e Good fate z since S S x (x + 1) t
      (Way.holds (e.subject.holds e.origin · a) t) := by
  intro c hc
  have hfetch := hB.fetch hi hc.ip
  unfold Way.holds
  by_cases hh : e.subject.holds e.origin t.pos a = true
  · rw [if_pos hh]
    refine .move (.single (moves_anchor hfetch (hc.follows.pos ▸ hh))) rfl ?_
    refine .result ⟨?_, ⟨hc.follows.pos, hc.follows.inside, hc.follows.keep, hc.follows.captures,
      hc.follows.groups, hc.follows.counts⟩, .moved rfl rfl rfl, hc.memo⟩ fun d hd _ => ?_
    · exact congrArg (· + 1) hc.ip
    · exact .done (hd.of_eq rfl rfl rfl)
  · rw [if_neg hh]
    have hfail : e.subject.holds e.origin c.pos a = false := by
      rw [hc.follows.pos]
      simpa using hh
    refine .move (.single (moves_anchor_fail hfetch hfail)) rfl ?_
    exact .done ⟨rfl, .refl _ _, rfl, hc.memo⟩

theorem Gives.keep (hB : Hosts e B) (hi : B.code[x]? = some .keep) :
    Gives e Good fate z since S S x (x + 1) t [{ t with keep := some t.pos }] := by
  intro c hc
  have hfetch := hB.fetch hi hc.ip
  refine .move (.single (moves_keep hB.quiet hfetch)) rfl ?_
  refine .result ⟨?_, ⟨hc.follows.pos, hc.follows.inside, ?_, hc.follows.captures,
    hc.follows.groups, hc.follows.counts⟩, ⟨⟨[.keep c.regs.keep], _, rfl, .refl _, .single trivial,
      ?_, .refl _ _⟩, fun _ _ => rfl, rfl⟩, hc.memo⟩ fun d hd _ => ?_
  · exact congrArg (· + 1) hc.ip
  · exact congrArg some hc.follows.pos
  · intro f hf
    cases List.mem_singleton.mp hf
    trivial
  · refine .move (.single (Point.moves_undo d hd.frames rfl)) rfl (.done ?_)
    exact ⟨rfl, ⟨hd.regs.captures, hd.regs.counts, rfl, hd.regs.depth⟩, hd.start, hd.memo⟩

end Machine
end RegexMachine
