import RegexMachine.Proofs.Guarantees
import RegexMachine.Proofs.Layout
import RegexMachine.Proofs.Opened

/-!
What code leaves behind that has come to its end, whatever it has matched: frames of completed code
on what was there, and registers that have changed for its own groups and loops only. Popping those
frames gives the counts back, and the places where groups were entered, but for groups that leave no
records.
-/
namespace RegexMachine

namespace Captures

theorem start?_setStart {c : Captures} {g k : Nat} {start : Option Nat} (hg : g < c.slots.size) :
    (c.setStart g start).start? k = if k = g then start else c.start? k := by
  simp only [start?, slot?_setStart]
  split
  · subst k
    simp [slot?, hg]
  · rfl

/-- Starts are put back where there are some to put back. -/
theorem setStarts_list (groups : List Nat) (f : Nat → Option Nat) (c : Captures)
    (h : ∀ g ∈ groups, g < c.slots.size) :
    let d := (groups.zip (groups.map f)).foldl (fun c e => c.setStart e.1 e.2) c
    d.slots.size = c.slots.size ∧
      ∀ k, d.start? k = if k ∈ groups then f k else c.start? k := by
  induction groups generalizing c with
  | nil => exact ⟨rfl, fun k => by simp⟩
  | cons g groups ih =>
    have hg := h g (by simp)
    obtain ⟨hsize, hstart⟩ := ih (c.setStart g (f g)) fun k hk => by
      rw [size_setStart]
      exact h k (by simp [hk])
    refine ⟨by simpa using hsize, fun k => ?_⟩
    have := hstart k
    simp only [List.map_cons, List.zip_cons_cons, List.foldl_cons] at this ⊢
    rw [this, start?_setStart hg]
    by_cases hk : k ∈ groups
    · simp [hk]
    · by_cases hkg : k = g
      · simp [hkg]
      · simp [hk, hkg]

/-- Starts of groups all of which exist. -/
theorem starts?_some {c : Captures} {r : IdRange} (h : r.stop ≤ c.slots.size) :
    c.starts? r = some (r.toList.map c.start?) := by
  have key : ∀ groups : List Nat, (∀ g ∈ groups, g < c.slots.size) →
      groups.mapM (fun g => (c.slot? g).map Slot.start) = some (groups.map c.start?) := by
    intro groups hall
    induction groups with
    | nil => rfl
    | cons g groups ih =>
      have hg : c.slot? g = some c.slots[g]! := by
        have := hall g (by simp)
        simp [slot?, this]
      rw [List.mapM_cons, ih fun k hk => hall k (by simp [hk]), hg]
      simp [start?, hg]
  refine key _ fun g hg => ?_
  obtain ⟨hle, hlt⟩ := List.mem_range'_1.mp hg
  omega

end Captures

/-- The groups and loops of a subroutine exist. -/
structure Subroutine.Fits (s : Subroutine) (t : Tables) : Prop where
  captures : s.captures.stop ≤ t.captures + 1
  loops : s.loops.first ≤ s.loops.stop
  size : s.loops.stop ≤ t.loops.size

namespace Machine

theorem size_writeFrom (vs : List Nat) (a : Array Nat) (i : Nat) :
    (writeFrom a i vs).size = a.size := by
  induction vs generalizing a i with
  | nil => rfl
  | cons v vs ih => rw [writeFrom, ih, Array.size_setIfInBounds]

/-- Values are written from an index on, as far as there is room. -/
theorem getElem?_writeFrom (vs : List Nat) (a : Array Nat) (i k : Nat) (hk : k < a.size) :
    (writeFrom a i vs)[k]? = if i ≤ k ∧ k < i + vs.length then vs[k - i]? else a[k]? := by
  induction vs generalizing a i with
  | nil =>
    have : ¬ (i ≤ k ∧ k < i + ([] : List Nat).length) := by
      simp only [List.length_nil]
      omega
    rw [writeFrom, if_neg this]
  | cons v vs ih =>
    rw [writeFrom, ih _ _ (by simpa using hk), Array.getElem?_setIfInBounds]
    by_cases hik : i = k
    · subst hik
      have hpast : ¬ (i + 1 ≤ i ∧ i < i + 1 + vs.length) := by omega
      rw [if_neg hpast, if_pos rfl, if_pos hk]
      simp
    · by_cases hle : i + 1 ≤ k
      · have hsub : k - i = k - (i + 1) + 1 := by omega
        simp only [hik, hle, hsub, ↓reduceIte, List.length_cons, List.getElem?_cons_succ]
        grind
      · have hnot : ¬ i ≤ k := by omega
        simp [hik, hle, hnot]

namespace Registers

/-- There is room for all groups and loops of a program. -/
structure Fits (r : Registers) (p : Program) : Prop where
  slots : r.captures.slots.size = p.tables.captures + 1
  counts : r.counts.size = p.tables.loops.size

/-- What backtracking keeps: the room, the counts and the open calls are the same, and so is where the
groups were entered last that are not loose. -/
structure Keeps (loose : Nat → Prop) (r r' : Registers) : Prop where
  slots : r'.captures.slots.size = r.captures.slots.size
  counts : r'.counts = r.counts
  depth : r'.depth = r.depth
  start : ∀ g, ¬ loose g → r'.captures.start? g = r.captures.start? g

/-- What code keeps whose counted loops have numbers from `lo` on and below `hi`, and which enters no
groups but those given. -/
structure Onward (lo hi : Nat) (entered : Nat → Prop) (r r' : Registers) : Prop where
  slots : r'.captures.slots.size = r.captures.slots.size
  size : r'.counts.size = r.counts.size
  counts : ∀ id, id < lo ∨ hi ≤ id → r'.counts[id]? = r.counts[id]?
  depth : r'.depth = r.depth
  start : ∀ g, ¬ entered g → r'.captures.start? g = r.captures.start? g

variable {p : Program} {r r' r'' : Registers} {lo lo' hi : Nat} {L L' W W' : Nat → Prop}

theorem Keeps.refl (r : Registers) : r.Keeps L r := ⟨rfl, rfl, rfl, fun _ _ => rfl⟩

theorem Keeps.trans (h : r.Keeps L r') (h' : r'.Keeps L r'') : r.Keeps L r'' :=
  ⟨h'.slots.trans h.slots, h'.counts.trans h.counts, h'.depth.trans h.depth,
    fun g hg => (h'.start g hg).trans (h.start g hg)⟩

/-- The more groups are loose, the less is kept. -/
theorem Keeps.mono (h : r.Keeps L r') (hL : ∀ g, L g → L' g) : r.Keeps L' r' :=
  ⟨h.slots, h.counts, h.depth, fun g hg => h.start g fun hloose => hg (hL g hloose)⟩

theorem Keeps.onward (h : r.Keeps L r') (lo hi : Nat) (hL : ∀ g, L g → W g) : r.Onward lo hi W r' :=
  ⟨h.slots, by rw [h.counts], fun id _ => by rw [h.counts], h.depth,
    fun g hg => h.start g fun hloose => hg (hL g hloose)⟩

theorem Onward.trans (h : r.Onward lo hi W r') (h' : r'.Onward lo hi W r'') : r.Onward lo hi W r'' :=
  ⟨h'.slots.trans h.slots, h'.size.trans h.size,
    fun id hid => (h'.counts id hid).trans (h.counts id hid), h'.depth.trans h.depth,
    fun g hg => (h'.start g hg).trans (h.start g hg)⟩

theorem Onward.mono (h : r.Onward lo hi W r') (hlo : lo' ≤ lo) (hW : ∀ g, W g → W' g) :
    r.Onward lo' hi W' r' :=
  ⟨h.slots, h.size, fun id hid => h.counts id (hid.imp (Nat.lt_of_lt_of_le · hlo) fun h => h), h.depth,
    fun g hg => h.start g fun hentered => hg (hW g hentered)⟩

theorem Fits.onward (h : r.Fits p) (hk : r.Onward lo hi W r') : r'.Fits p :=
  ⟨hk.slots.trans h.slots, hk.size.trans h.counts⟩

theorem Fits.keeps (h : r.Fits p) (hk : r.Keeps L r') : r'.Fits p :=
  h.onward (hk.onward 0 0 fun _ h => h)

theorem Fits.slot (h : r.Fits p) {g : Nat} (hg : g < p.tables.captures + 1) :
    ∃ slot, r.captures.slot? g = some slot :=
  ⟨_, Array.getElem?_eq_getElem (by rw [h.slots]; exact hg)⟩

theorem Fits.count (h : r.Fits p) {id : Nat} {l : CountedLoop}
    (hl : p.tables.loops[id]? = some l) : ∃ n, r.counts[id]? = some n := by
  have hid := (Array.getElem?_eq_some_iff.mp hl).1
  exact ⟨_, Array.getElem?_eq_getElem (by rw [h.counts]; exact hid)⟩

theorem fits_clear (p : Program) : (clear p.tables.captures p.tables.loops.size).Fits p := by
  constructor
  · simp [clear, Captures.none]
  · simp [clear]

/-- What a call of a subroutine saves where everything exists. -/
def saved (r : Registers) (s : Subroutine) : CallState :=
  ⟨s.captures.toList.map r.captures.start?, (r.counts.extract s.loops.first s.loops.stop).toList⟩

/-- What is put back when a subroutine is left: starts of groups and counts inside it. -/
structure PutBack (s : Subroutine) (r r' d : Registers) : Prop where
  slots : d.captures.slots.size = r'.captures.slots.size
  size : d.counts.size = r'.counts.size
  depth : d.depth = r'.depth
  start : ∀ k, d.captures.start? k =
    if k ∈ s.captures.toList then r.captures.start? k else r'.captures.start? k
  counts : ∀ id, d.counts[id]? =
    if s.loops.first ≤ id ∧ id < s.loops.stop then r.counts[id]? else r'.counts[id]?

theorem putBack_saved {sub : Nat} {s : Subroutine} (hs : p.tables.subroutines[sub]? = some s)
    (hfits : s.Fits p.tables) (hr : r.Fits p) (hr' : r'.Fits p) :
    PutBack s r r' (r'.setCallState p sub (r.saved s)) := by
  have hset : r'.setCallState p sub (r.saved s) = { r' with
      captures := r'.captures.setStarts s.captures (r.saved s).starts
      counts := writeFrom r'.counts s.loops.first (r.saved s).counts } := by
    unfold setCallState
    rw [hs]
  have hlist := Captures.setStarts_list s.captures.toList r.captures.start? r'.captures
    fun g hg => by
      obtain ⟨hle, hlt⟩ := List.mem_range'_1.mp hg
      have := hfits.captures
      rw [hr'.slots]
      omega
  rw [hset]
  refine ⟨hlist.1, size_writeFrom _ _ _, rfl, hlist.2, fun id => ?_⟩
  have hstop := hfits.size
  have hlen : (r.saved s).counts.length = s.loops.stop - s.loops.first := by
    have := hr.counts
    simp only [saved, Array.length_toList, Array.size_extract]
    omega
  by_cases hid : id < r'.counts.size
  · rw [getElem?_writeFrom _ _ _ _ hid, hlen]
    have hloops := hfits.loops
    by_cases hin : s.loops.first ≤ id ∧ id < s.loops.stop
    · rw [if_pos hin, if_pos (by omega)]
      have hget : (r.saved s).counts[id - s.loops.first]? =
          (r.counts.extract s.loops.first s.loops.stop)[id - s.loops.first]? :=
        Array.getElem?_toList ..
      rw [hget, Array.getElem?_extract]
      have hadd : s.loops.first + (id - s.loops.first) = id := by omega
      have hsize := hr.counts
      rw [if_pos (by omega), hadd]
    · rw [if_neg hin, if_neg (by omega)]
  · have h1 : id ≥ (writeFrom r'.counts s.loops.first (r.saved s).counts).size := by
      rw [size_writeFrom]
      omega
    have h2 : ¬ (s.loops.first ≤ id ∧ id < s.loops.stop) := by
      have := hr'.counts
      omega
    rw [if_neg h2, Array.getElem?_eq_none h1, Array.getElem?_eq_none (Nat.not_lt.mp hid)]

end Registers

/-- What code may change. Its counted loops have numbers below `loops`; it enters no groups but those
in `entered`. What comes after it may enter the loose groups and leave no records of them. -/
structure Scope where
  loops : Nat
  loose : Nat → Prop
  entered : Nat → Prop
  covers : ∀ g, loose g → entered g

/-- Groups that are loose before code of a scope: those that are loose after it, and groups that it
enters. -/
structure Scope.Admits (u : Scope) (L : Nat → Prop) : Prop where
  loose : ∀ g, u.loose g → L g
  entered : ∀ g, L g → u.entered g

theorem Scope.admits_loose (u : Scope) : u.Admits u.loose := ⟨fun _ h => h, u.covers⟩

/-- The scope with other groups that are loose after the code. -/
def Scope.loosening (u : Scope) (L : Nat → Prop) (hL : ∀ g, L g → u.entered g) : Scope :=
  { u with loose := L, covers := hL }

/-- The scope without a group that is not loose. -/
def Scope.without (u : Scope) (group : Nat) (h : ¬ u.loose group) : Scope where
  loops := u.loops
  loose := u.loose
  entered g := u.entered g ∧ g ≠ group
  covers g hg := ⟨u.covers g hg, fun heq => h (heq ▸ hg)⟩

/-- Code inside other code, with more that is loose after it. -/
structure Scope.Inside (v u : Scope) : Prop where
  loops : v.loops = u.loops
  entered : ∀ g, v.entered g → u.entered g

theorem Scope.Inside.refl (u : Scope) : u.Inside u := ⟨rfl, fun _ h => h⟩

theorem Scope.without_inside (u : Scope) {group : Nat} (h : ¬ u.loose group) :
    (u.without group h).Inside u := ⟨rfl, fun _ h => h.1⟩

theorem Scope.loosening_inside (u : Scope) (L : Nat → Prop) (hL : ∀ g, L g → u.entered g) :
    (u.loosening L hL).Inside u := ⟨rfl, fun _ h => h⟩

/-- What code leaves that was entered in one view and has come to its end in another: frames with
numbers of rounds that belong to the zone, which give back what was changed, but for groups that were
loose before. -/
def Leaves (p : Program) (z : Zone) (u : Scope) (L : Nat → Prop) (c d : View) : Prop :=
  d.start = c.start ∧ c.regs.Onward z.loops u.loops u.entered d.regs ∧ ∃ F K, d.frames = F ++ K ∧
    Settled c.frames K ∧ Tidy z.checks F ∧ ∀ r, d.regs.Keeps u.loose r → c.regs.Keeps L (r.undoAll p F)

namespace Leaves

variable {p : Program} {z z' : Zone} {u v : Scope} {L L' : Nat → Prop} {c c' d d' : View}

/-- Nothing has been left on the stack. -/
theorem of_frames (z : Zone) (hL : u.Admits L) (hstart : d.start = c.start) (hf : d.frames = c.frames)
    (hr : c.regs.Keeps L d.regs) : Leaves p z u L c d :=
  ⟨hstart, hr.onward _ _ hL.entered, [], c.frames, hf, .refl _, .nil _,
    fun _ h => hr.trans (h.mono hL.loose)⟩

theorem onward (h : Leaves p z u L c d) : c.regs.Onward z.loops u.loops u.entered d.regs := h.2.1

/-- A zone inside another one. -/
theorem mono (h : Leaves p z u L c d) (hc : z'.checks ≤ z.checks) (hl : z'.loops ≤ z.loops) :
    Leaves p z' u L c d := by
  obtain ⟨hstart, hr, F, K, hd, hK, hF, hundo⟩ := h
  exact ⟨hstart, hr.mono hl fun _ h => h, F, K, hd, hK, hF.mono hc, hundo⟩

/-- More may have been loose before. -/
theorem widen (h : Leaves p z u L c d) (hL : ∀ g, L g → L' g) : Leaves p z u L' c d := by
  obtain ⟨hstart, hr, F, K, hd, hK, hF, hundo⟩ := h
  exact ⟨hstart, hr, F, K, hd, hK, hF, fun r hk => (hundo r hk).mono hL⟩

/-- What is loose after a first part is loose before the second. -/
theorem andThen (h : Leaves p z v L c d) (hv : v.Inside u) (h' : Leaves p z u v.loose d d') :
    Leaves p z u L c d' := by
  obtain ⟨hstart, hr, F, K, hd, hK, hF, hundo⟩ := h
  obtain ⟨hstart', hr', G, M, hd', hM, hG, hundo'⟩ := h'
  rw [hv.loops] at hr
  refine ⟨hstart'.trans hstart, (hr.mono (Nat.le_refl _) hv.entered).trans hr', ?_⟩
  rw [hd] at hM
  rcases hM.of_append with ⟨F', hF', rfl⟩ | ⟨hvoid, hKM⟩
  · refine ⟨G ++ F', K, by rw [hd', List.append_assoc], hK, hG.append ?_, fun r hd'r => ?_⟩
    · obtain ⟨vs, hvs, rfl⟩ := hF'
      exact hF.dropVoids hvs
    · rw [Registers.undoAll_append, Registers.undoAll_settled p hF']
      exact hundo _ (hundo' r hd'r)
  · refine ⟨G, M, hd', hK.trans hKM, hG, fun r hd'r => ?_⟩
    have := hundo _ (hundo' r hd'r)
    rwa [Registers.undoAll_voids p hvoid] at this

theorem trans (h : Leaves p z u L c d) (h' : Leaves p z u u.loose d d') : Leaves p z u L c d' :=
  h.andThen (.refl u) h'

/-- A frame was put on the stack first, and the registers were changed as it records. -/
theorem under {f : Frame} (h : Leaves p z u L' c' d) (hstart : c'.start = c.start)
    (hf : c'.frames = f :: c.frames) (hplain : f.Plain z.checks) (hne : f ≠ .void)
    (hr : c.regs.Onward z.loops u.loops u.entered c'.regs)
    (hundo : ∀ r, c'.regs.Keeps L' r → c.regs.Keeps L (r.undo p f)) : Leaves p z u L c d := by
  obtain ⟨hstart', hr', F, K, hd, hK, hF, hundo'⟩ := h
  rw [hf] at hK
  obtain rfl := hK.eq_of_ne hne
  refine ⟨hstart'.trans hstart, hr.trans hr', F ++ [f], c.frames, by simp [hd], .refl _,
    hF.append (.single hplain), fun r hd'r => ?_⟩
  rw [Registers.undoAll_append]
  exact hundo _ (hundo' r hd'r)

/-- A choice was put on the stack first. -/
theorem under_choice {f : Frame} (h : Leaves p z u L c' d) (hL : u.Admits L)
    (hstart : c'.start = c.start) (hc : f.isChoice = true) (hf : c'.frames = f :: c.frames)
    (hr : c.regs.Keeps L c'.regs) : Leaves p z u L c d := by
  refine h.under hstart hf ?_ ?_ (hr.onward _ _ hL.entered) fun r hk => ?_
  · cases f <;> trivial
  · rintro rfl
    cases hc
  · rw [Registers.undo_of_isChoice p r f hc]
    exact hr.trans hk

end Leaves

/-! ## What lies below -/

section
variable {Goal : Setting → View → Prop} {m n : Nat} {e : Setting} {c d : View} {L L' : Nat → Prop}

/-- The frames of a view may be backtracked to, wherever loose groups have been entered meanwhile. -/
def Grounded (Goal : Setting → View → Prop) (L : Nat → Prop) (n : Nat) (e : Setting) (c : View) : Prop :=
  ∀ d : View, d.start = c.start → d.frames = c.frames → c.regs.Keeps L d.regs → Failing Goal n e d

theorem Grounded.mono (h : Grounded Goal L n e c) (hm : m ≤ n) : Grounded Goal L m e c :=
  fun d hs hf hr => (h d hs hf hr).mono hm

theorem Grounded.narrow (h : Grounded Goal L n e c) (hL : ∀ g, L' g → L g) : Grounded Goal L' n e c :=
  fun d hs hf hr => h d hs hf (hr.mono hL)

theorem Grounded.failing (h : Grounded Goal L n e c) : Failing Goal n e c :=
  h c rfl rfl (.refl _)

theorem Grounded.keeps (h : Grounded Goal L n e c) (hs : d.start = c.start)
    (hf : d.frames = c.frames) (hr : c.regs.Keeps L d.regs) : Grounded Goal L n e d :=
  fun d' hs' hf' hr' => h d' (hs'.trans hs) (hf'.trans hf) (hr.trans hr')

theorem grounded_nil (h : c.frames = []) : Grounded Goal L n e c :=
  fun _ _ hf _ => brings_backtrack_nil (hf.trans h)

/-- An alternative was put on the stack. -/
theorem grounded_alternative {a : Addr} {pos : Nat}
    (h : ∀ d : View, d.ip = a → d.pos = pos → d.start = c.start → d.frames = c.frames →
      c.regs.Keeps L d.regs → Going Goal n e d) (ip : Addr) (at' : Nat) :
    Grounded Goal L n e { c with ip := ip, pos := at', frames := .alternative a pos :: c.frames } :=
  fun d hs hf hr => brings_backtrack_alternative hf
    (h { d with ip := a, pos := pos, frames := c.frames } rfl rfl hs rfl hr)

/-- A frame that records a change was put on the stack. -/
theorem Grounded.undo {f : Frame} (h : Grounded Goal L n e c) (hf : f.isChoice = false)
    (hs : d.start = c.start) (hd : d.frames = f :: c.frames)
    (hundo : ∀ r, d.regs.Keeps L' r → c.regs.Keeps L (r.undo e.program f)) : Grounded Goal L' n e d :=
  fun _ hs' hf' hr' => brings_backtrack_undo (hf'.trans hd) hf
    (h _ (hs'.trans hs) rfl (hundo _ hr'))

theorem Grounded.guard {site pos : Nat} (h : Grounded Goal L n e c) (hs : d.start = c.start)
    (hd : d.frames = .guard site pos :: c.frames) (hr : c.regs.Keeps L d.regs) :
    Grounded Goal L n e d :=
  fun _ hs' hf' hr' => brings_backtrack_guard (hf'.trans hd)
    (h _ (hs'.trans hs) rfl (hr.trans hr'))

end
end Machine
end RegexMachine
