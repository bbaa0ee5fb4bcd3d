import RegexMachine.Proofs.Instructions
import RegexMachine.Proofs.Layout
import RegexMachine.Proofs.Opened

/-!
What running a piece of code comes to: the ways in which it reaches its end, one after another as
the machine is made to backtrack, until the stack is as it was when the code was entered.

Groups on the one path through a pattern are not restored by backtracking. What they hold is stale
until they are passed again, so captures are compared outside the stale fields only.
-/
namespace RegexMachine

/-- Fields of slots that may hold anything: by group, its start (`false`) and its span (`true`). -/
abbrev Stale := Nat → Bool → Prop

namespace Stale

def none : Stale := fun _ _ => False

def or (S P : Stale) : Stale := fun g b => S g b ∨ P g b

/-- Fields may be stale of groups that backtracking does not restore, and where a start is stale
the span is. -/
structure Fits (undone : Array Bool) (S : Stale) : Prop where
  closed : ∀ g, S g false → S g true
  undone : ∀ g b, S g b → undone.getD g true = false

@[simp] theorem or_none (S : Stale) : S.or none = S := by
  funext g b
  simp [or, none]

theorem or_or (S P Q : Stale) : (S.or P).or Q = S.or (P.or Q) := by
  funext g b
  exact propext or_assoc

theorem fits_none (undone : Array Bool) : none.Fits undone :=
  ⟨fun _ h => h, fun _ _ h => h.elim⟩

theorem Fits.or {undone : Array Bool} {S P : Stale} (hS : S.Fits undone) (hP : P.Fits undone) :
    (S.or P).Fits undone :=
  ⟨fun g h => h.imp (hS.closed g) (hP.closed g), fun g b h => h.elim (hS.undone g b) (hP.undone g b)⟩

end Stale

namespace Captures

/-- Captures that agree with earlier ones outside the stale fields. No group has lost its start. -/
structure Alike (X : Stale) (c d : Captures) : Prop where
  size : c.slots.size = d.slots.size
  history : c.history = d.history
  start : ∀ g, ¬ X g false → (c.slot? g).map Slot.start = (d.slot? g).map Slot.start
  span : ∀ g, ¬ X g true → (c.slot? g).map Slot.span = (d.slot? g).map Slot.span
  opened : ∀ g, ((d.slot? g).bind Slot.start).isSome → ((c.slot? g).bind Slot.start).isSome

namespace Alike

variable {X Y : Stale} {c d d' : Captures}

theorem refl (X : Stale) (c : Captures) : c.Alike X c :=
  ⟨rfl, rfl, fun _ _ => rfl, fun _ _ => rfl, fun _ h => h⟩

theorem trans (h : c.Alike X d) (h' : d.Alike X d') : c.Alike X d' where
  size := h.size.trans h'.size
  history := h.history.trans h'.history
  start g hg := (h.start g hg).trans (h'.start g hg)
  span g hg := (h.span g hg).trans (h'.span g hg)
  opened g hg := h.opened g (h'.opened g hg)

theorem mono (h : c.Alike X d) (hXY : ∀ g b, X g b → Y g b) : c.Alike Y d where
  size := h.size
  history := h.history
  start g hg := h.start g fun hx => hg (hXY g _ hx)
  span g hg := h.span g fun hx => hg (hXY g _ hx)
  opened := h.opened

end Alike

/-- Both get the same slot. -/
theorem Alike.setSlot {X : Stale} {c d : Captures} (h : c.Alike X d) (g : Nat) (s : Slot) :
    (c.setSlot g s).Alike X (d.setSlot g s) where
  size := by simpa using h.size
  history := h.history
  start k hk := by
    rw [slot?_setSlot, slot?_setSlot, h.size]
    split
    · rfl
    · exact h.start k hk
  span k hk := by
    rw [slot?_setSlot, slot?_setSlot, h.size]
    split
    · rfl
    · exact h.span k hk
  opened k hk := by
    rw [slot?_setSlot, h.size]
    rw [slot?_setSlot] at hk
    split
    · rwa [if_pos ‹_›] at hk
    · rw [if_neg ‹_›] at hk
      exact h.opened k hk

theorem Alike.restore {X : Stale} {c d : Captures} (h : c.Alike X d) (g : Nat) (s : Slot)
    (log : History) : (c.restore g s log).Alike X (d.restore g s log) := by
  have := h.setSlot g s
  exact ⟨this.size, rfl, this.start, this.span, this.opened⟩

end Captures

/-- What is known of the rest of the match by the place where it begins: it can be completed from
live places only, and the machine need not visit the spare ones. -/
structure Fate where
  live : Nat → Prop
  spare : Nat → Prop
  dead : ∀ p, spare p → ¬ live p

namespace Fate

/-- The first way completes the match. -/
def certain : Fate := ⟨fun _ => True, fun _ => False, fun _ h => h.elim⟩

/-- No way completes the match, and all of them are tried. -/
def hopeless : Fate := ⟨fun _ => False, fun _ => False, fun _ h => h.elim⟩

/-- The fate of places with more ways before them. -/
def before (f : Way) (fate : Fate) : Fate where
  live := leads f fate.live
  spare p := ∀ t r : Trail, t.pos = p → r ∈ f t → fate.spare r.pos
  dead := by
    rintro p h ⟨t, r, ht, hr, hl⟩
    exact fate.dead _ (h t r ht hr) hl

/-- The fate of a place is that of the ways from there. -/
structure Leads (fate : Fate) (p : Nat) (fate' : Fate) (ts : List Trail) : Prop where
  live : fate.live p → ∃ r ∈ ts, fate'.live r.pos
  spare : fate.spare p → ∀ r ∈ ts, fate'.spare r.pos

theorem leads_single (fate : Fate) {p : Nat} {r : Trail} (h : r.pos = p) :
    fate.Leads p fate [r] := by
  subst h
  exact ⟨fun hl => ⟨r, List.mem_singleton.mpr rfl, hl⟩, fun hs u hu => by
    cases List.mem_singleton.mp hu
    exact hs⟩

end Fate

namespace Machine

/-- Registers that agree with earlier ones outside the stale fields. -/
structure Registers.Alike (X : Stale) (r r' : Registers) : Prop where
  captures : r.captures.Alike X r'.captures
  counts : r.counts = r'.counts
  keep : r.keep = r'.keep
  depth : r.depth = r'.depth

namespace Registers.Alike

variable {X Y : Stale} {r r' r'' : Registers}

theorem refl (X : Stale) (r : Registers) : r.Alike X r := ⟨.refl X _, rfl, rfl, rfl⟩

theorem trans (h : r.Alike X r') (h' : r'.Alike X r'') : r.Alike X r'' :=
  ⟨h.captures.trans h'.captures, h.counts.trans h'.counts, h.keep.trans h'.keep,
    h.depth.trans h'.depth⟩

theorem mono (h : r.Alike X r') (hXY : ∀ g b, X g b → Y g b) : r.Alike Y r' :=
  ⟨h.captures.mono hXY, h.counts, h.keep, h.depth⟩

end Registers.Alike

/-- Frames that record captures, counts and kept starts, but no calls. -/
def Simple : Frame → Prop
  | .call _ _ _ => False
  | .returned _ _ => False
  | _ => True

theorem Registers.Alike.undo {X : Stale} {r r' : Registers} (p : Program) {f : Frame}
    (hf : Simple f) (h : r.Alike X r') : (r.undo p f).Alike X (r'.undo p f) := by
  cases f with
  | call _ _ _ => cases hf
  | returned _ _ => cases hf
  | capture g s log => exact ⟨h.captures.restore g s log, h.counts, h.keep, h.depth⟩
  | count id n => exact ⟨h.captures, by simp [Registers.undo, h.counts], h.keep, h.depth⟩
  | keep start => exact ⟨h.captures, h.counts, rfl, h.depth⟩
  | _ => exact h

theorem Registers.Alike.undoAll {X : Stale} (p : Program) {F : List Frame}
    (hF : ∀ f ∈ F, Simple f) {r r' : Registers} (h : r.Alike X r') :
    (r.undoAll p F).Alike X (r'.undoAll p F) := by
  induction F generalizing r r' with
  | nil => exact h
  | cons f F ih => exact ih (fun g hg => hF g (by simp [hg])) (h.undo p (hF f (by simp)))

/-- A core at the place of a partial match, whose captures it has but for the stale fields. -/
structure Follows (e : Setting) (X : Stale) (t : Trail) (c : Core) : Prop where
  pos : c.pos = t.pos
  inside : t.pos ≤ e.subject.size
  keep : c.regs.keep = t.keep
  captures : c.regs.captures.Alike X t.captures
  groups : c.regs.captures.slots.size = e.program.tables.captures + 1
  counts : c.regs.counts.size = e.program.tables.loops.size

theorem Follows.mono {e : Setting} {X Y : Stale} {t : Trail} {c : Core} (h : Follows e X t c)
    (hXY : ∀ g b, X g b → Y g b) : Follows e Y t c :=
  ⟨h.pos, h.inside, h.keep, h.captures.mono hXY, h.groups, h.counts⟩

theorem Follows.alike {e : Setting} {X : Stale} {t : Trail} {c c' : Core} (h : Follows e X t c)
    (hp : c'.pos = c.pos) (hr : c'.regs.Alike X c.regs) : Follows e X t c' where
  pos := hp.trans h.pos
  inside := h.inside
  keep := hr.keep.trans h.keep
  captures := hr.captures.trans h.captures
  groups := hr.captures.size.trans h.groups
  counts := (congrArg Array.size hr.counts).trans h.counts

/-- Where a piece of code was entered. Checks and loops inside have numbers from those of the zone
on, and the loose fields are not restored by backtracking. -/
structure Base where
  core : Core
  zone : Zone
  loose : Stale

/-- Frames of completed code lie above a base, and they undo what was done since. -/
structure Above (p : Program) (base : Base) (c : Core) : Prop where
  frames : ∃ F K, c.frames = F ++ K ∧ Settled base.core.frames K ∧ Tidy base.zone.checks F ∧
    (∀ f ∈ F, Simple f) ∧ (c.regs.undoAll p F).Alike base.loose base.core.regs
  counts : ∀ id, id < base.zone.loops → c.regs.counts[id]? = base.core.regs.counts[id]?
  start : c.start = base.core.start

/-- A state from which what was done since the base is undone. -/
structure Restored (Good : Option Memo → Prop) (X : Stale) (c d : Core) : Prop where
  frames : d.frames = c.frames
  regs : d.regs.Alike X c.regs
  start : d.start = c.start
  memo : Good d.memo

/-- The end of a piece of code, reached in some way. -/
structure Arrives (e : Setting) (Good : Option Memo → Prop) (base : Base) (S : Stale) (y : Addr)
    (t : Trail) (c : Core) : Prop where
  ip : c.ip = y
  follows : Follows e S t c
  above : Above e.program base c
  memo : Good c.memo

/-- From a point the code before `y` yields these ways in order; then everything done since the
base is undone. At the end the fields `S` are stale.

The machine comes back from a way only if its place is not live, and ways to spare places need not
be shown. -/
inductive Yields (e : Setting) (Good : Option Memo → Prop) (fate : Fate) (y : Addr)
    (base : Base) (S : Stale) : Point → List Trail → Prop
  | done {c : Core} (h : Restored Good base.loose base.core c) :
      Yields e Good fate y base S (.failing c) []
  | move {p q : Point} {ts : List Trail} (h : Point.Reaches e p q)
      (hb : q.core.best = p.core.best) (hq : Yields e Good fate y base S q ts) :
      Yields e Good fate y base S p ts
  | result {c : Core} {t : Trail} {ts : List Trail} (h : Arrives e Good base S y t c)
      (next : ∀ d, Restored Good S c d → ¬ fate.live t.pos →
        Yields e Good fate y base S (.failing d) ts) :
      Yields e Good fate y base S (.going c) (t :: ts)
  | drop {p : Point} {t : Trail} {ts : List Trail} (ht : fate.spare t.pos)
      (h : Yields e Good fate y base S p ts) : Yields e Good fate y base S p (t :: ts)

/-- A base further up, above which code has been entered anew. -/
structure Extends (p : Program) (base base' : Base) : Prop where
  above : Above p base base'.core
  checks : base.zone.checks ≤ base'.zone.checks
  loops : base.zone.loops ≤ base'.zone.loops
  loose : ∀ g b, base'.loose g b → base.loose g b

theorem Above.refl (p : Program) (base : Base) : Above p base base.core where
  frames := ⟨[], _, rfl, .refl _, .nil _, by simp, .refl _ _⟩
  counts _ _ := rfl
  start := rfl

/-- Only the place has changed. -/
theorem Above.moved {p : Program} {base : Base} {c : Core} (hf : c.frames = base.core.frames)
    (hr : c.regs = base.core.regs) (hs : c.start = base.core.start) : Above p base c where
  frames := ⟨[], c.frames, rfl, hf ▸ .refl _, .nil _, by simp, hr ▸ .refl _ _⟩
  counts _ _ := by rw [hr]
  start := hs

theorem Above.mono {p : Program} {c d : Core} {z z' : Zone} {X : Stale}
    (h : Above p ⟨c, z', X⟩ d) (hchecks : z.checks ≤ z'.checks) (hloops : z.loops ≤ z'.loops) :
    Above p ⟨c, z, X⟩ d := by
  obtain ⟨F, K, hF, hK, htidy, hsimple, hregs⟩ := h.frames
  exact ⟨⟨F, K, hF, hK, htidy.mono hchecks, hsimple, hregs⟩,
    fun id hid => h.counts id (Nat.lt_of_lt_of_le hid hloops), h.start⟩

theorem Extends.trans {p : Program} {base base' : Base} {c : Core} (h : Extends p base base')
    (hc : Above p base' c) : Above p base c := by
  obtain ⟨F, K, hF, hK, htidy, hsimple, hregs⟩ := h.above.frames
  obtain ⟨G, L, hG, hL, htidy', hsimple', hregs'⟩ := hc.frames
  refine ⟨?_, fun id hid => ?_, hc.start.trans h.above.start⟩
  · rw [hF] at hL
    have hundo := (hregs'.mono h.loose).undoAll p hsimple
    rcases hL.of_append with ⟨F', hF', rfl⟩ | ⟨hv, hL⟩
    · refine ⟨G ++ F', K, by rw [hG, List.append_assoc], hK, ?_, ?_, ?_⟩
      · obtain ⟨vs, hvs, rfl⟩ := hF'
        exact (htidy'.mono h.checks).append (htidy.dropVoids hvs)
      · intro f hf
        rcases List.mem_append.mp hf with hf | hf
        · exact hsimple' f hf
        · obtain ⟨vs, -, rfl⟩ := hF'
          exact hsimple f (by simp [hf])
      · rw [Registers.undoAll_append, Registers.undoAll_settled p hF']
        exact hundo.trans hregs
    · refine ⟨G, L, hG, hK.trans hL, htidy'.mono h.checks, hsimple', ?_⟩
      rw [Registers.undoAll_voids p hv] at hundo hregs
      rw [Registers.undoAll_voids p hv] at hundo
      exact hundo.trans hregs
  · rw [hc.counts id (Nat.lt_of_lt_of_le hid h.loops), h.above.counts id hid]

theorem Arrives.extends {e : Setting} {Good : Option Memo → Prop} {base base' : Base} {S : Stale}
    {y : Addr} {t : Trail} {c : Core} (h : Arrives e Good base' S y t c)
    (hext : Extends e.program base base') : Arrives e Good base S y t c :=
  ⟨h.ip, h.follows, hext.trans h.above, h.memo⟩

namespace Yields

variable {e : Setting} {Good : Option Memo → Prop} {fate fate' : Fate} {w y : Addr}
  {base base' : Base} {S S' : Stale} {p : Point} {ts us : List Trail}

/-- When all ways of a piece of code have been tried in vain, something else is tried. -/
theorem append (h : Yields e Good fate y base' S p ts) (hext : Extends e.program base base')
    (cont : ∀ c, Restored Good base'.loose base'.core c → (∀ t ∈ ts, ¬ fate.live t.pos) →
      Yields e Good fate y base S (.failing c) us) :
    Yields e Good fate y base S p (ts ++ us) := by
  induction h with
  | done hc => exact cont _ hc (by simp)
  | move hr hb _ ih => exact .move hr hb (ih cont)
  | @result c t ts hc _ ih =>
    refine .result (hc.extends hext) fun d hd hdead => ih d hd hdead fun c' hc' hts => ?_
    refine cont c' hc' fun u hu => ?_
    rcases List.mem_cons.mp hu with rfl | hu
    · exact hdead
    · exact hts u hu
  | @drop p t ts hspare _ ih =>
    refine .drop hspare (ih fun c' hc' hts => cont c' hc' fun u hu => ?_)
    rcases List.mem_cons.mp hu with rfl | hu
    · exact fate.dead _ hspare
    · exact hts u hu

/-- The same ways, seen from a base below. -/
theorem rebase (h : Yields e Good fate y base' S p ts) (hext : Extends e.program base base')
    (cont : ∀ c, Restored Good base'.loose base'.core c → (∀ t ∈ ts, ¬ fate.live t.pos) →
      Yields e Good fate y base S (.failing c) []) :
    Yields e Good fate y base S p ts := by
  simpa using h.append hext cont

/-- Ways that lead nowhere need not be visited. -/
theorem skip (h : Yields e Good fate y base S p us) (hspare : ∀ t ∈ ts, fate.spare t.pos) :
    Yields e Good fate y base S p (ts ++ us) := by
  induction ts with
  | nil => exact h
  | cons t ts ih =>
    exact .drop (hspare t (by simp)) (ih fun u hu => hspare u (by simp [hu]))

/-- One piece of code after another. -/
theorem bind {c : Core} {z z' : Zone} {X : Stale} {g : Way}
    (h : Yields e Good fate' w ⟨c, z', X⟩ S' p ts)
    (hchecks : z.checks ≤ z'.checks) (hloops : z.loops ≤ z'.loops)
    (hloose : ∀ g b, S' g b → X g b)
    (hg : ∀ t ∈ ts, ∀ d, Arrives e Good ⟨c, z', X⟩ S' w t d →
      Yields e Good fate y ⟨d, z, S'⟩ S (.going d) (g t))
    (hlive : ∀ t ∈ ts, fate'.Leads t.pos fate (g t)) :
    Yields e Good fate y ⟨c, z, X⟩ S p (ts.flatMap g) := by
  have hself : Extends e.program ⟨c, z, X⟩ ⟨c, z', X⟩ :=
    ⟨Above.refl _ ⟨c, z, X⟩, hchecks, hloops, fun _ _ h => h⟩
  induction h with
  | @done c' hc =>
    exact .done hc
  | move hr hb _ ih => exact .move hr hb (ih hg hlive)
  | @result d t ts hd _ ih =>
    have hext : Extends e.program ⟨c, z, X⟩ ⟨d, z, S'⟩ :=
      ⟨hself.trans hd.above, Nat.le_refl _, Nat.le_refl _, hloose⟩
    refine (hg t (by simp) d hd).append hext fun d' hd' hdead => ?_
    have hnot : ¬ fate'.live t.pos := by
      intro hl
      obtain ⟨r, hr, hl⟩ := (hlive t (by simp)).live hl
      exact hdead r hr hl
    exact ih d' hd' hnot (fun u hu => hg u (by simp [hu])) (fun u hu => hlive u (by simp [hu]))
  | @drop p t ts hspare _ ih =>
    refine Yields.skip (ih (fun u hu => hg u (by simp [hu])) (fun u hu => hlive u (by simp [hu]))) ?_
    exact (hlive t (by simp)).spare hspare

/-- Where nothing is dead the first way is visited, and it is all that is known. -/
theorem first (h : Yields e Good fate y base S p ts) (hlive : ∀ i, fate.live i) :
    match ts with
    | [] => ∃ c, Point.Reaches e p (.failing c) ∧ c.best = p.core.best ∧
        Restored Good base.loose base.core c
    | t :: _ => ∃ c, Point.Reaches e p (.going c) ∧ c.best = p.core.best ∧
        Arrives e Good base S y t c := by
  induction h with
  | @done c hc => exact ⟨c, .refl, rfl, hc⟩
  | @move p q ts hr hb _ ih =>
    cases ts with
    | nil =>
      obtain ⟨c, hc, hbest, hres⟩ := ih
      exact ⟨c, hr.trans hc, hbest.trans hb, hres⟩
    | cons t ts =>
      obtain ⟨c, hc, hbest, harr⟩ := ih
      exact ⟨c, hr.trans hc, hbest.trans hb, harr⟩
  | @result c t ts hc _ _ => exact ⟨c, .refl, rfl, hc⟩
  | drop hspare _ _ => exact absurd (hlive _) (fate.dead _ hspare)

end Yields
end Machine
end RegexMachine
