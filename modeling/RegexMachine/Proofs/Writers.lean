import RegexMachine.Proofs.Flags
import RegexMachine.Proofs.Layout

/-!
What writers write. Every writer hands out numbers of its own, and the code it writes has the shape
that belongs to it wherever it is put.
-/
namespace RegexMachine
open Compile

/-- More numbers have been handed out; whether spans are recorded has been decided before. -/
structure Compile.Issued.Grows (i i' : Issued) : Prop where
  history : i'.features.has .captureHistory = i.features.has .captureHistory
  guards : i.guards ≤ i'.guards
  checks : i.checks ≤ i'.checks
  size : i.loops.size ≤ i'.loops.size
  loops : ∀ id, id < i.loops.size → i'.loops[id]? = i.loops[id]?

namespace Compile.Issued.Grows

theorem refl (i : Issued) : i.Grows i :=
  ⟨rfl, Nat.le_refl _, Nat.le_refl _, Nat.le_refl _, fun _ _ => rfl⟩

theorem trans {i j k : Issued} (h : i.Grows j) (h' : j.Grows k) : i.Grows k where
  history := h'.history.trans h.history
  guards := Nat.le_trans h.guards h'.guards
  checks := Nat.le_trans h.checks h'.checks
  size := Nat.le_trans h.size h'.size
  loops id hid := (h'.loops id (Nat.lt_of_lt_of_le hid h.size)).trans (h.loops id hid)

/-- Any other feature may be added. -/
theorem feature (i : Issued) {f : Feature} (hf : f ≠ .captureHistory) :
    i.Grows { i with features := i.features.insert f } where
  history := by simp [FlagSet.has_insert distinct_features, hf]
  guards := Nat.le_refl _
  checks := Nat.le_refl _
  size := Nat.le_refl _
  loops _ _ := rfl

end Compile.Issued.Grows

/-- A sequence of writing steps succeeds step by step. -/
theorem Compile.bind_ok {α β : Type} {x : Gen α} {f : α → Gen β} {l : Layout} {i k : Issued} {b : β}
    (h : (x >>= f) l i = .ok b k) : ∃ a j, x l i = .ok a j ∧ f a l j = .ok b k := by
  change EStateM.bind (x l) (fun a => f a l) i = .ok b k at h
  unfold EStateM.bind at h
  split at h
  · exact ⟨_, _, by assumption, h⟩
  · cases h

theorem Compile.bind_get {β : Type} (f : Issued → Gen β) (l : Layout) (i : Issued) :
    ((get : Gen Issued) >>= f) l i = f i l i := rfl

theorem Compile.bind_read {β : Type} (f : Layout → Gen β) (l : Layout) (i : Issued) :
    ((read : Gen Layout) >>= f) l i = f l l i := rfl

theorem Compile.freshCheck_ok {l : Layout} {i j : Issued} {id : Nat} (h : freshCheck l i = .ok id j) :
    id = i.checks ∧ j = { i with checks := i.checks + 1 } := by
  rw [freshCheck, Compile.bind_get] at h
  split at h
  · cases h
  · cases h
    exact ⟨rfl, rfl⟩

theorem Compile.freshGuard_ok {l : Layout} {i j : Issued} {id : Nat} (h : freshGuard l i = .ok id j) :
    id = i.guards ∧ j = { i with guards := i.guards + 1 } := by
  rw [freshGuard, Compile.bind_get] at h
  split at h
  · cases h
  · cases h
    exact ⟨rfl, rfl⟩

theorem Compile.freshMark_ok {l : Layout} {i j : Issued} {id : Nat} (h : freshMark l i = .ok id j) :
    id = i.marks ∧ j = { i with marks := i.marks + 1 } := by
  rw [freshMark, Compile.bind_get] at h
  split at h
  · cases h
  · cases h
    exact ⟨rfl, rfl⟩

theorem Compile.loopId_ok {l : Layout} {i j : Issued} {id : Nat} (h : loopId l i = .ok id j) :
    id = i.loops.size ∧ j = i := by
  rw [loopId, Compile.bind_get] at h
  split at h
  · cases h
  · cases h
    exact ⟨rfl, rfl⟩

namespace Built

variable (B : Built)

/-- A chunk stands at an address, its calls being linked. -/
def Placed (x : Addr) (chunk : Chunk) : Prop :=
  ∀ k i, chunk[k]? = some i → B.code[x + k]? = some (link B.subs i)

/-- The table has the loops that were added between two states. -/
def HasLoops (i i' : Issued) : Prop :=
  ∀ id, i.loops.size ≤ id → id < i'.loops.size → B.loops[id]? = i'.loops[id]?

/-- A promise agrees with what has been found out about the guards between two states. -/
def Keeps (φ : Promise) (found : Nat → Nat → Prop) (i i' : Issued) : Prop :=
  (φ = none ∧ B.layout.guardDepth = 0) ∨
    ∃ ψ, φ = some ψ ∧ ∀ id, i.guards ≤ id → id < i'.guards → ψ id = found id

/-- A zone fits a place and the numbers handed out before. -/
structure FitsZone (z : Zone) (p : Place) (i : Issued) : Prop where
  within : z.within = p.within
  checks : z.checks ≤ i.checks
  loops : z.loops ≤ i.loops.size

/-- A chunk has a shape, whatever comes after it. -/
def Spells (part : Part) (p : Place) (i i' : Issued) (chunk : Chunk) : Prop :=
  i.Grows i' ∧
    (B.Placed p.base chunk → B.HasLoops i i' → ∀ later, ∃ found, ∀ φ, B.Keeps φ found i i' →
      ∀ z, FitsZone z p i → part φ later z p.base (p.base + chunk.size))

/-- A writer writes code of a shape. -/
def Writes (w : Writer) (part : Part) : Prop :=
  ∀ p i i' chunk, w p B.layout i = .ok chunk i' → B.Spells part p i i' chunk

variable {B}

theorem Placed.append {x : Addr} {a b : Chunk} (h : B.Placed x (a ++ b)) :
    B.Placed x a ∧ B.Placed (x + a.size) b := by
  constructor
  · intro k i hk
    have hlt := (Array.getElem?_eq_some_iff.mp hk).1
    exact h k i (by rw [Array.getElem?_append_left hlt]; exact hk)
  · intro k i hk
    rw [Nat.add_assoc]
    refine h (a.size + k) i ?_
    rw [Array.getElem?_append_right (Nat.le_add_right _ _), Nat.add_sub_cancel_left]
    exact hk

theorem Placed.single {x : Addr} {i : Instr} (h : B.Placed x #[i]) :
    B.code[x]? = some (link B.subs i) := h 0 i rfl

theorem Placed.moved {x y : Nat} {chunk : Chunk} (h : B.Placed x chunk) (hy : x = y) :
    B.Placed y chunk := hy ▸ h

theorem Placed.instr {x y : Nat} {i j : Instr} (h : B.Placed x #[i]) (hy : x = y)
    (hj : link B.subs i = j) : B.code[y]? = some j := hy ▸ hj ▸ h.single

theorem Placed.pair {x : Addr} {i j : Instr} (h : B.Placed x #[i, j]) :
    B.code[x]? = some (link B.subs i) ∧ B.code[x + 1]? = some (link B.subs j) :=
  ⟨h 0 i rfl, h 1 j rfl⟩

theorem Placed.triple {x : Addr} {i j k : Instr} (h : B.Placed x #[i, j, k]) :
    B.code[x]? = some (link B.subs i) ∧ B.code[x + 1]? = some (link B.subs j) ∧
      B.code[x + 2]? = some (link B.subs k) :=
  ⟨h 0 i rfl, h 1 j rfl, h 2 k rfl⟩

theorem HasLoops.left {i j k : Issued} (h : B.HasLoops i k) (hjk : j.Grows k) :
    B.HasLoops i j := fun id hle hlt => by
  rw [h id hle (Nat.lt_of_lt_of_le hlt hjk.size), hjk.loops id hlt]

theorem HasLoops.right {i j k : Issued} (h : B.HasLoops i k) (hij : i.Grows j) :
    B.HasLoops j k := fun id hle hlt => h id (Nat.le_trans hij.size hle) hlt

/-- What has been found out about guards, before and after a number. -/
def joined (n : Nat) (a b : Nat → Nat → Prop) : Nat → Nat → Prop :=
  fun id => if id < n then a id else b id

theorem Keeps.left {φ : Promise} {a b : Nat → Nat → Prop} {i j k : Issued}
    (h : B.Keeps φ (joined j.guards a b) i k) (hjk : j.Grows k) : B.Keeps φ a i j := by
  rcases h with h | ⟨ψ, rfl, h⟩
  · exact Or.inl h
  · refine Or.inr ⟨ψ, rfl, fun id hle hlt => ?_⟩
    rw [h id hle (Nat.lt_of_lt_of_le hlt hjk.guards), joined, if_pos hlt]

theorem Keeps.right {φ : Promise} {a b : Nat → Nat → Prop} {i j k : Issued}
    (h : B.Keeps φ (joined j.guards a b) i k) (hij : i.Grows j) : B.Keeps φ b j k := by
  rcases h with h | ⟨ψ, rfl, h⟩
  · exact Or.inl h
  · refine Or.inr ⟨ψ, rfl, fun id hle hlt => ?_⟩
    rw [h id (Nat.le_trans hij.guards hle) hlt, joined, if_neg (Nat.not_lt.mpr hle)]

theorem Keeps.bare {found : Nat → Nat → Prop} {i i' : Issued} (h : B.layout.guardDepth = 0) :
    B.Keeps none found i i' := Or.inl ⟨rfl, h⟩

theorem FitsZone.grow {z : Zone} {p : Place} {i j : Issued} (h : FitsZone z p i)
    (hij : i.Grows j) : FitsZone z p j :=
  ⟨h.within, Nat.le_trans h.checks hij.checks, Nat.le_trans h.loops hij.size⟩

theorem FitsZone.shift {z : Zone} {p : Place} {i : Issued} (h : FitsZone z p i) (n : Nat) :
    FitsZone z (p.shift n) i := ⟨h.within, h.checks, h.loops⟩

theorem FitsZone.move {z : Zone} {p q : Place} {i : Issued} (h : FitsZone z p i)
    (hq : q.within = p.within) : FitsZone z q i := ⟨h.within.trans hq.symm, h.checks, h.loops⟩

@[simp] theorem shift_base (p : Place) (n : Nat) : (p.shift n).base = p.base + n := rfl

@[simp] theorem inLoop_base (p : Place) : p.inLoop.base = p.base := rfl

/-! ## Guards and offers -/

theorem guardCode_spells {depth : Nat} {p : Place} {i i' : Issued} {chunk : Chunk}
    (h : guardCode depth p B.layout i = .ok chunk i') :
    i.Grows i' ∧ (B.Placed p.base chunk → ∀ later φ, B.Keeps φ (fun _ => later) i i' →
      ∀ z, z.within = p.within → B.GuardAt φ later z p.base (p.base + chunk.size)) := by
  obtain ⟨guarded, j, hg, h⟩ := bind_ok h
  have hguarded : guarded = (decide (0 < B.layout.guardDepth) &&
      decide (B.layout.guardDepth ≤ depth + p.loopDepth)) ∧ j = i := by
    cases hg
    exact ⟨rfl, rfl⟩
  obtain ⟨hval, rfl⟩ := hguarded
  cases guarded with
  | false =>
    cases h
    exact ⟨.refl _, fun _ _ _ _ _ _ => Or.inl rfl⟩
  | true =>
    have hdepth : 0 < B.layout.guardDepth := by
      simp at hval
      exact hval.1
    obtain ⟨id, k, hid, h⟩ := bind_ok h
    obtain ⟨rfl, rfl⟩ := freshGuard_ok hid
    cases h
    have hgrow : j.Grows { j with guards := j.guards + 1 } :=
      ⟨rfl, Nat.le_succ _, Nat.le_refl _, Nat.le_refl _, fun _ _ => rfl⟩
    refine ⟨hgrow.trans (.feature _ (by decide)), ?_⟩
    intro hp later φ hk z hz
    rcases hk with ⟨-, h0⟩ | ⟨ψ, rfl, hψ⟩
    · omega
    · refine Or.inr ⟨ψ, j.guards, rfl, hψ _ (Nat.le_refl _) (Nat.lt_succ_self _), ?_, rfl⟩
      rw [hz]
      exact hp.single

theorem offer_at {greedy : Bool} {x exit : Addr} (h : B.Placed x (offer greedy x exit)) :
    B.OfferAt greedy exit x (x + offerSize greedy) := by
  unfold OfferAt
  cases greedy with
  | true => exact ⟨h.single, rfl⟩
  | false => exact ⟨h.pair.1, h.pair.2, rfl⟩

theorem offer_size (greedy : Bool) (x exit : Addr) :
    (offer greedy x exit).size = offerSize greedy := by
  cases greedy <;> rfl

theorem OfferAt.exit {greedy : Bool} {exit exit' x y : Nat} (h : B.OfferAt greedy exit x y)
    (he : exit = exit') : B.OfferAt greedy exit' x y := he ▸ h

/-- One piece of code after another; the first is followed by what the second leads to. -/
theorem Spells.andThen {part part' : Part} {p : Place} {i j k : Issued} {a b : Chunk}
    (h : B.Spells part p i j a) (h' : B.Spells part' (p.shift a.size) j k b)
    (before : (Nat → Prop) → Nat → Prop) :
    B.Spells (fun φ later z x y =>
      ∃ w, part φ (before later) z x w ∧ part' φ later z w y) p i k (a ++ b) := by
  obtain ⟨hgrow, hspell⟩ := h
  obtain ⟨hgrow', hspell'⟩ := h'
  refine ⟨hgrow.trans hgrow', fun hp hl later => ?_⟩
  obtain ⟨hp, hp'⟩ := hp.append
  obtain ⟨f, hf⟩ := hspell hp (hl.left hgrow') (before later)
  obtain ⟨g, hg⟩ := hspell' hp' (hl.right hgrow) later
  refine ⟨joined j.guards f g, fun φ hk z hz => ?_⟩
  refine ⟨p.base + a.size, hf φ (hk.left hgrow') z hz, ?_⟩
  have := hg φ (hk.right hgrow) z ((hz.grow hgrow).shift _)
  rwa [shift_base, Nat.add_assoc, ← Array.size_append] at this

/-! ## Loops -/

variable {w : Writer} {part : Part}

theorem loopBody_writes (info : Info) (hw : B.Writes w part) :
    B.Writes (loopBody info w) (B.RoundAt info part) := by
  intro p i i' chunk h
  unfold loopBody at h
  unfold RoundAt
  dsimp only at h ⊢
  by_cases hmin : 0 < info.minChars
  · simp only [hmin, ↓reduceIte] at h ⊢
    obtain ⟨hgrow, hspell⟩ := hw _ _ _ _ h
    refine ⟨hgrow, fun hp hl later => ?_⟩
    obtain ⟨found, hfound⟩ := hspell hp hl later
    exact ⟨found, fun φ hk z hz => hfound φ hk z ⟨hz.within, hz.checks, hz.loops⟩⟩
  · simp only [hmin, ↓reduceIte] at h ⊢
    obtain ⟨id, j, hid, h⟩ := bind_ok h
    obtain ⟨rfl, rfl⟩ := freshCheck_ok hid
    rw [bind_read] at h
    obtain ⟨code, k, hcode, h⟩ := bind_ok h
    cases h
    obtain ⟨hgrow, hspell⟩ := hw _ _ _ _ hcode
    have hfirst : i.Grows { i with checks := i.checks + 1 } :=
      ⟨rfl, Nat.le_refl _, Nat.le_succ _, Nat.le_refl _, fun _ _ => rfl⟩
    refine ⟨hfirst.trans hgrow, fun hp hl later => ?_⟩
    obtain ⟨hp, hend⟩ := hp.append
    obtain ⟨hstart, hp⟩ := hp.append
    obtain ⟨found, hfound⟩ := hspell hp (hl.right hfirst) later
    refine ⟨found, fun φ hk z hz => ?_⟩
    refine ⟨i.checks, p.base + 1 + code.size, hz.checks, hstart.single, ?_, ?_, ?_⟩
    · exact hfound φ hk ⟨some i.checks, i.checks + 1, z.loops⟩
        ⟨rfl, Nat.le_refl _, hz.loops⟩
    · have := hend.single
      rw [Array.size_append, ← Nat.add_assoc] at this
      exact this
    · simp only [Array.size_append, List.size_toArray, List.length_cons, List.length_nil]
      change @Eq Nat _ _; omega

theorem starCode_writes (greedy : Bool) (depth : Nat) (info : Info) (f : Way)
    (hw : B.Writes w part) :
    B.Writes (starCode greedy depth info w) (B.StarAt greedy info f part) := by
  intro p i i' chunk h
  obtain ⟨guard, j, hguard, h⟩ := bind_ok h
  obtain ⟨code, k, hcode, h⟩ := bind_ok h
  cases h
  obtain ⟨hgrow, hg⟩ := guardCode_spells hguard
  obtain ⟨hgrow', hspell⟩ := loopBody_writes info hw _ _ _ _ hcode
  refine ⟨hgrow.trans hgrow', fun hp hl later => ?_⟩
  obtain ⟨hp, hjump⟩ := hp.append
  obtain ⟨hp, hbody⟩ := hp.append
  obtain ⟨hp, hoffer⟩ := hp.append
  obtain ⟨found, hfound⟩ := hspell (hbody.moved (by grind [offer_size, shift_base]))
    (hl.right hgrow) (leads (f.star B.size greedy) later)
  refine ⟨joined j.guards (fun _ => leads (f.star B.size greedy) later) found,
    fun φ hk z hz => ?_⟩
  refine ⟨p.base + guard.size, p.base + guard.size + offerSize greedy,
    p.base + guard.size + offerSize greedy + code.size,
    hg hp _ φ (hk.left hgrow') z hz.within, ?_, ?_,
    hjump.instr (by grind [offer_size]) rfl, by grind [offer_size]⟩
  · exact OfferAt.exit (offer_at hoffer) (by grind [offer_size])
  · have := hfound φ (hk.right hgrow) z ((hz.grow hgrow).shift _)
    rwa [shift_base, ← Nat.add_assoc] at this

theorem greedyPlusCode_writes (depth : Nat) (info : Info) (f : Way) (hw : B.Writes w part) :
    B.Writes (greedyPlusCode depth info w) (B.GreedyPlusAt info f part) := by
  intro p i i' chunk h
  obtain ⟨guard, j, hguard, h⟩ := bind_ok h
  obtain ⟨code, k, hcode, h⟩ := bind_ok h
  cases h
  have hguard' : guardCode depth (p.shift 1) B.layout i = .ok guard j := hguard
  obtain ⟨hgrow, hg⟩ := guardCode_spells hguard'
  obtain ⟨hgrow', hspell⟩ := loopBody_writes info hw _ _ _ _ hcode
  refine ⟨hgrow.trans hgrow', fun hp hl later => ?_⟩
  obtain ⟨hp, hjump⟩ := hp.append
  obtain ⟨hp, hbody⟩ := hp.append
  obtain ⟨hp, hfork⟩ := hp.append
  obtain ⟨hentry, hguardAt⟩ := hp.append
  obtain ⟨found, hfound⟩ := hspell (hbody.moved (by grind [shift_base])) (hl.right hgrow)
    (leads (f.star B.size true) later)
  refine ⟨joined j.guards (fun _ => leads (f.star B.size true) later) found,
    fun φ hk z hz => ?_⟩
  refine ⟨p.base + 1 + guard.size, p.base + 1 + guard.size + 1 + code.size,
    hentry.instr rfl (by grind [link]), hg hguardAt _ φ (hk.left hgrow') z hz.within,
    hfork.instr (by grind) (by grind [link]), ?_, hjump.instr (by grind) rfl, by grind⟩
  have := hfound φ (hk.right hgrow) z ((hz.grow hgrow).shift _)
  rwa [shift_base, show p.base + (guard.size + 2) = p.base + 1 + guard.size + 1 by grind] at this

theorem lazyPlusCode_writes (depth : Nat) (info : Info) (f : Way) (hw : B.Writes w part) :
    B.Writes (lazyPlusCode depth info w) (B.LazyPlusAt info f part) := by
  intro p i i' chunk h
  obtain ⟨guard, j, hguard, h⟩ := bind_ok h
  obtain ⟨code, k, hcode, h⟩ := bind_ok h
  cases h
  obtain ⟨hgrow, hg⟩ := guardCode_spells hguard
  obtain ⟨hgrow', hspell⟩ := loopBody_writes info hw _ _ _ _ hcode
  refine ⟨hgrow.trans hgrow', fun hp hl later => ?_⟩
  obtain ⟨hp, hfork⟩ := hp.append
  obtain ⟨hguardAt, hbody⟩ := hp.append
  obtain ⟨found, hfound⟩ := hspell hbody (hl.right hgrow) (leads (f.star B.size false) later)
  refine ⟨joined j.guards (fun _ => leads (f.plus B.size false) later) found,
    fun φ hk z hz => ?_⟩
  exact ⟨p.base + guard.size, p.base + guard.size + code.size,
    hg hguardAt _ φ (hk.left hgrow') z hz.within,
    hfound φ (hk.right hgrow) z ((hz.grow hgrow).shift _),
    hfork.instr (by grind) rfl, by grind⟩

theorem plusCode_writes (greedy : Bool) (depth : Nat) (info : Info) (f : Way)
    (hw : B.Writes w part) :
    B.Writes (plusCode greedy depth info w) (B.PlusAt greedy info f part) := by
  cases greedy with
  | true => exact greedyPlusCode_writes depth info f hw
  | false => exact lazyPlusCode_writes depth info f hw

theorem copies_spells (f : Way) (hw : B.Writes w part) (n : Nat) {p : Place} {done chunk : Chunk}
    {i i' : Issued} (h : copies w p done n B.layout i = .ok chunk i') :
    ∃ code, chunk = done ++ code ∧ B.Spells (TimesAt f part n) (p.shift done.size) i i' code := by
  induction n generalizing done i with
  | zero =>
    cases h
    exact ⟨#[], by simp, .refl _, fun _ _ _ => ⟨fun _ _ => True, fun _ _ _ _ => rfl⟩⟩
  | succ n ih =>
    obtain ⟨code, j, hcode, h⟩ := bind_ok h
    obtain ⟨hgrow, hspell⟩ := hw _ _ _ _ hcode
    obtain ⟨rest, rfl, hgrow', hrest⟩ := ih h
    refine ⟨code ++ rest, by simp, hgrow.trans hgrow', fun hp hl later => ?_⟩
    obtain ⟨hp, hp'⟩ := hp.append
    obtain ⟨a, ha⟩ := hspell hp (hl.left hgrow') (leads (f.times n) later)
    obtain ⟨b, hb⟩ := hrest (hp'.moved (by grind [shift_base])) (hl.right hgrow) later
    refine ⟨joined j.guards a b, fun φ hk z hz => ?_⟩
    refine ⟨p.base + done.size + code.size, ha φ (hk.left hgrow') z hz, ?_⟩
    have := hb φ (hk.right hgrow) z ((hz.grow hgrow).move rfl)
    grind [shift_base]

/-- Optional copies one after another, each with its offer to leave. -/
def joinList (greedy : Bool) (x exit : Addr) : List Chunk → Chunk
  | [] => #[]
  | b :: bs =>
    offer greedy x exit ++ b ++ joinList greedy (x + offerSize greedy + b.size) exit bs

theorem joinOptional_eq (greedy : Bool) (x exit : Addr) (bs : List Chunk) :
    joinOptional greedy x exit bs.toArray = joinList greedy x exit bs := by
  have key : ∀ (acc : Chunk) (bs : List Chunk),
      bs.foldl (fun code b => code ++ offer greedy (x + code.size) exit ++ b) acc =
        acc ++ joinList greedy (x + acc.size) exit bs := by
    intro acc bs
    induction bs generalizing acc with
    | nil => simp [joinList]
    | cons b bs ih =>
      rw [List.foldl_cons, ih]
      simp [joinList, offer_size, Nat.add_assoc]
  have := key #[] bs
  simpa [joinOptional] using this

theorem joinList_size (greedy : Bool) (x exit : Addr) (bs : List Chunk) :
    (joinList greedy x exit bs).size = chunksSize (offerSize greedy) bs.toArray := by
  have key : ∀ (n : Nat) (bs : List Chunk),
      bs.foldl (fun n b => n + offerSize greedy + b.size) n =
        n + (bs.map fun b => offerSize greedy + b.size).sum := by
    intro n bs
    induction bs generalizing n with
    | nil => simp
    | cons b bs ih => simp [ih]; omega
  have hsum : chunksSize (offerSize greedy) bs.toArray =
      (bs.map fun b => offerSize greedy + b.size).sum := by
    simpa [chunksSize] using key 0 bs
  rw [hsum]
  induction bs generalizing x with
  | nil => rfl
  | cons b bs ih =>
    have := ih (x + offerSize greedy + b.size)
      (by simpa [chunksSize] using key 0 bs)
    simp only [joinList, Array.size_append, offer_size, this, List.map_cons, List.sum_cons]

/-- Optional bodies are written one after another; put together with their offers they have the
shape of optional copies. -/
theorem optionalBodies_spells (greedy : Bool) (f : Way) (hw : B.Writes w part) (n : Nat)
    {p : Place} {done bodies : Array Chunk} {i i' : Issued}
    (h : optionalBodies greedy w p done n B.layout i = .ok bodies i') :
    ∃ bs : List Chunk, bodies = done ++ bs.toArray ∧ i.Grows i' ∧
      ∀ exit : Nat, exit = p.base + (joinList greedy p.base exit bs).size →
        B.Placed p.base (joinList greedy p.base exit bs) → B.HasLoops i i' →
        ∀ later, ∃ found, ∀ φ, B.Keeps φ found i i' → ∀ z, FitsZone z p i →
          B.UpToAt greedy f part n φ later z p.base exit := by
  induction n generalizing p done i with
  | zero =>
    cases h
    exact ⟨[], by simp, .refl _, fun exit he _ _ _ => ⟨fun _ _ => True, fun _ _ _ _ => he.symm⟩⟩
  | succ n ih =>
    obtain ⟨code, j, hcode, h⟩ := bind_ok h
    obtain ⟨hgrow, hspell⟩ := hw _ _ _ _ hcode
    obtain ⟨bs, rfl, hgrow', hrest⟩ := ih h
    refine ⟨code :: bs, by simp, hgrow.trans hgrow', fun exit he hp hl later => ?_⟩
    obtain ⟨hp, hp'⟩ := Placed.append hp
    obtain ⟨hoffer, hp⟩ := hp.append
    obtain ⟨a, ha⟩ := hspell (hp.moved (by grind [offer_size, shift_base])) (hl.left hgrow')
      (leads (f.upTo greedy n) later)
    have hbase : p.base + offerSize greedy + code.size =
        (p.shift (offerSize greedy + code.size)).base := Nat.add_assoc _ _ _
    rw [hbase] at hp'
    obtain ⟨b, hb⟩ := hrest exit (by grind [joinList, offer_size])
      (hp'.moved (by grind [offer_size])) (hl.right hgrow) later
    refine ⟨joined j.guards a b, fun φ hk z hz => ?_⟩
    refine ⟨p.base + offerSize greedy, p.base + offerSize greedy + code.size,
      offer_at hoffer, ha φ (hk.left hgrow') z (hz.shift _), ?_⟩
    rw [hbase]
    exact hb φ (hk.right hgrow) z ((hz.grow hgrow).shift _)

theorem optionalCode_writes (greedy : Bool) (f : Way) (hw : B.Writes w part) (n : Nat) :
    B.Writes (optionalCode greedy w n) (B.UpToAt greedy f part n) := by
  intro p i i' chunk h
  obtain ⟨bodies, j, hbodies, h⟩ := bind_ok h
  cases h
  obtain ⟨bs, rfl, hgrow, hspell⟩ := optionalBodies_spells greedy f hw n hbodies
  refine ⟨hgrow, fun hp hl later => ?_⟩
  rw [Array.empty_append, joinOptional_eq] at hp ⊢
  have hsize := joinList_size greedy p.base
    (p.base + chunksSize (offerSize greedy) bs.toArray) bs
  rw [hsize]
  exact hspell _ (by rw [hsize]) hp hl later

theorem unrolledCode_writes (b : Bounds) (greedy : Bool) (depth : Nat) (info : Info) (f : Way)
    (hw : B.Writes w part) :
    B.Writes (unrolledCode b greedy depth info w) (B.UnrolledAt b greedy info f part) := by
  intro p i i' chunk h
  unfold unrolledCode at h
  unfold UnrolledAt
  cases hmax : b.max with
  | none =>
    simp only [hmax] at h ⊢
    obtain ⟨front, j, hfront, h⟩ := bind_ok h
    obtain ⟨rest, k, hrest, h⟩ := bind_ok h
    cases h
    obtain ⟨front, rfl, hspells⟩ := copies_spells f hw _ hfront
    rw [Array.empty_append] at hrest ⊢
    exact Spells.andThen (p := p) hspells (plusCode_writes greedy depth info f hw _ _ _ _ hrest) _
  | some max =>
    simp only [hmax] at h ⊢
    obtain ⟨front, j, hfront, h⟩ := bind_ok h
    obtain ⟨rest, k, hrest, h⟩ := bind_ok h
    cases h
    obtain ⟨front, rfl, hspells⟩ := copies_spells f hw _ hfront
    rw [Array.empty_append] at hrest ⊢
    exact Spells.andThen (p := p) hspells (optionalCode_writes greedy f hw _ _ _ _ _ hrest) _

theorem countedCode_writes (b : Bounds) (greedy : Bool) (info : Info) (hw : B.Writes w part)
    (hbare : B.layout.guardDepth = 0) :
    B.Writes (countedCode b greedy info w) (B.CountedAt b greedy info part) := by
  intro p i i' chunk h
  obtain ⟨id, j, hid, h⟩ := bind_ok h
  obtain ⟨rfl, rfl⟩ := loopId_ok hid
  obtain ⟨_, j', hadd, h⟩ := bind_ok h
  cases hadd
  obtain ⟨code, k, hcode, h⟩ := bind_ok h
  obtain ⟨_, k', hset, h⟩ := bind_ok h
  cases hset
  cases h
  obtain ⟨hgrow, hspell⟩ := loopBody_writes info hw _ _ _ _ hcode
  have hsize : j.loops.size < k.loops.size := by
    have := hgrow.size
    simp only [Array.size_push] at this
    omega
  let loop : CountedLoop := ⟨b.min, b.max, greedy, p.base + 1, p.base + code.size + 2⟩
  have hall : j.Grows { k with loops := k.loops.setIfInBounds j.loops.size loop } := by
    refine ⟨hgrow.history, hgrow.guards, hgrow.checks, by simp; omega, fun id hid => ?_⟩
    have := hgrow.loops id (by simp only [Array.size_push]; omega)
    simp only [Array.getElem?_push] at this
    rw [Array.getElem?_setIfInBounds_ne (by omega), this, if_neg (by omega)]
  refine ⟨hall, fun hp hl later => ?_⟩
  obtain ⟨hp, hnext⟩ := hp.append
  obtain ⟨henter, hp⟩ := hp.append
  have hl' : ∀ id, j.loops.size + 1 ≤ id → id < k.loops.size → B.loops[id]? = k.loops[id]? := by
    intro id hle hlt
    rw [hl id (by omega) (by simpa using hlt), Array.getElem?_setIfInBounds_ne (by omega)]
  obtain ⟨found, hfound⟩ := hspell hp (fun id hle => hl' id (by simpa using hle)) later
  refine ⟨found, fun φ _ z hz => ?_⟩
  refine ⟨j.loops.size, p.base + 1 + code.size, hz.loops, henter.instr rfl rfl, ?_, ?_,
    hnext.instr (by grind) rfl, by grind⟩
  · rw [hl _ (Nat.le_refl _) (by simpa using hsize), Array.getElem?_setIfInBounds_self_of_lt hsize]
    grind
  · exact hfound none (.bare hbare) ⟨z.within, z.checks, j.loops.size + 1⟩
      ⟨hz.within, hz.checks, by simp⟩

theorem repeatCode_writes (b : Bounds) (greedy : Bool) (depth : Nat) (plan : RepeatPlan)
    (info : Info) (f : Way) (hw : B.Writes w part)
    (hbare : plan = .counted → B.layout.guardDepth = 0) :
    B.Writes (repeatCode b greedy depth plan info w) (B.RepeatAt b greedy plan info f part) := by
  cases plan with
  | skip =>
    intro p i i' chunk h
    cases h
    exact ⟨.refl _, fun _ _ _ => ⟨fun _ _ => True, fun _ _ _ _ => rfl⟩⟩
  | optional => exact optionalCode_writes greedy f hw 1
  | star => exact starCode_writes greedy depth info f hw
  | plus => exact plusCode_writes greedy depth info f hw
  | unroll => exact unrolledCode_writes b greedy depth info f hw
  | counted => exact countedCode_writes b greedy info hw (hbare rfl)

/-! ## Regions, choices and groups -/

theorem atomicCode_writes (hw : B.Writes w part) (hbare : B.layout.guardDepth = 0) :
    B.Writes (atomicCode w) (B.AtomicAt part) := by
  intro p i i' chunk h
  obtain ⟨mark, j, hmark, h⟩ := bind_ok h
  obtain ⟨rfl, rfl⟩ := freshMark_ok hmark
  obtain ⟨code, k, hcode, h⟩ := bind_ok h
  cases h
  obtain ⟨hgrow, hspell⟩ := hw _ _ _ _ hcode
  refine ⟨⟨hgrow.history, hgrow.guards, hgrow.checks, hgrow.size, hgrow.loops⟩,
    fun hp hl later => ?_⟩
  obtain ⟨hp, hend⟩ := hp.append
  obtain ⟨hstart, hp⟩ := hp.append
  obtain ⟨found, hfound⟩ := hspell hp hl later
  refine ⟨found, fun φ _ z hz => ?_⟩
  exact ⟨i.marks, p.base + 1 + code.size, hstart.instr rfl rfl,
    hfound none (.bare hbare) z ⟨hz.within, hz.checks, hz.loops⟩,
    hend.instr (by grind) rfl, by grind⟩

/-- Only the numbers of loops, checks and guards matter. -/
theorem Spells.issued {part : Part} {p : Place} {i j k : Issued} {chunk : Chunk}
    (h : B.Spells part p j k chunk) (hij : i.Grows j) (hg : j.guards = i.guards)
    (hc : j.checks = i.checks) (hl : j.loops = i.loops) : B.Spells part p i k chunk := by
  obtain ⟨hgrow, hspell⟩ := h
  refine ⟨hij.trans hgrow, ?_⟩
  intro hp hloops later
  obtain ⟨found, hfound⟩ := hspell hp (fun id => by rw [hl]; exact hloops id) later
  refine ⟨found, fun φ hk z hz => hfound φ ?_ z ⟨hz.within, hc ▸ hz.checks, hl ▸ hz.loops⟩⟩
  rcases hk with hk | ⟨ψ, hφ, hψ⟩
  · exact Or.inl hk
  · exact Or.inr ⟨ψ, hφ, fun id hle => hψ id (hg ▸ hle)⟩

/-- What a lookbehind does before its body, and after it. -/
def lookStep (k : Look) (info : Info) : Chunk :=
  if k.behind then #[.stepBack info.minChars info.maxChars] else #[]

def lookCheck (k : Look) (mark : Nat) : Chunk := if k.behind then #[.checkPos mark] else #[]

theorem lookBody_at {k : Look} {info : Info} {mark : Nat} {q : Place} {x : Nat} {i i' : Issued}
    {code : Chunk} (hspell : B.Spells part q i i' code) (hbare : B.layout.guardDepth = 0)
    (hq : q.base = x + 1 + (lookStep k info).size)
    (hp : B.Placed x (#[.lookStart mark] ++ lookStep k info ++ code ++ lookCheck k mark))
    (hl : B.HasLoops i i') (φ : Promise) (later : Nat → Prop) {z : Zone} (hz : FitsZone z q i) :
    B.LookBodyAt k info part mark φ later z x
      (x + (#[Instr.lookStart mark] ++ lookStep k info ++ code ++ lookCheck k mark).size) := by
  obtain ⟨hp, hcheck⟩ := hp.append
  obtain ⟨hp, hcode⟩ := hp.append
  obtain ⟨hstart, hstep⟩ := hp.append
  obtain ⟨found, hfound⟩ := hspell.2 (hcode.moved (by grind)) hl later
  have hbody := hfound none (.bare hbare) z hz
  refine ⟨hstart.instr rfl rfl, ?_⟩
  cases hb : k.behind with
  | true =>
    simp only [lookStep, lookCheck, hb, ↓reduceIte] at hcheck hstep hq ⊢
    rw [hq] at hbody
    exact ⟨x + 1 + 1 + code.size, hstep.instr rfl rfl, hbody, hcheck.instr (by grind) rfl,
      by grind⟩
  | false =>
    simp only [lookStep, lookCheck, hb, Bool.false_eq_true, ↓reduceIte] at hq ⊢
    rw [hq] at hbody
    have hsize : x + (#[Instr.lookStart mark] ++ #[] ++ code ++ #[]).size =
        x + 1 + (#[] : Chunk).size + code.size := by grind
    rw [hsize]
    exact hbody

theorem lookCode_writes (k : Look) (info : Info) (hw : B.Writes w part)
    (hbare : B.layout.guardDepth = 0) :
    B.Writes (lookCode k info w) (B.LookAt k info part) := by
  intro p i i' chunk h
  have key : ∀ mark j, (if k.negated = true then (do
        let code ← w (p.shift (2 + (lookStep k info).size))
        let inner := #[.lookStart mark] ++ lookStep k info ++ code ++ lookCheck k mark
        return #[.fork (p.base + inner.size + 4)] ++ inner ++ #[.unwind mark, .drop, .fail] : Gen Chunk)
      else (do
        let code ← w (p.shift (1 + (lookStep k info).size))
        return #[.lookStart mark] ++ lookStep k info ++ code ++ lookCheck k mark ++
          #[.lookEnd mark])) B.layout j = .ok chunk i' →
      B.Spells (B.LookAt k info part) p j i' chunk := by
    intro mark j h
    unfold LookAt
    cases hn : k.negated with
    | true =>
      simp only [hn, ↓reduceIte] at h ⊢
      obtain ⟨code, l, hcode, h⟩ := bind_ok h
      cases h
      have hspell := hw _ _ _ _ hcode
      refine ⟨hspell.1, fun hp hl later => ⟨fun _ _ => True, fun φ _ z hz => ?_⟩⟩
      obtain ⟨hp, hend⟩ := hp.append
      obtain ⟨hfork, hp⟩ := hp.append
      have hbody := lookBody_at (x := p.base + 1) hspell hbare (by grind [shift_base]) hp hl φ
        later (hz.shift _)
      obtain ⟨hunwind, hdrop, hfail⟩ := hend.triple
      refine ⟨mark, _, hfork.instr rfl (by grind [link]), hbody, ?_, ?_, ?_, by grind⟩
      · rw [Array.size_append, ← Nat.add_assoc] at hunwind
        exact hunwind
      · rw [Array.size_append, ← Nat.add_assoc] at hdrop
        exact hdrop
      · rw [Array.size_append, ← Nat.add_assoc] at hfail
        exact hfail
    | false =>
      simp only [hn, Bool.false_eq_true, ↓reduceIte] at h ⊢
      obtain ⟨code, l, hcode, h⟩ := bind_ok h
      cases h
      have hspell := hw _ _ _ _ hcode
      refine ⟨hspell.1, fun hp hl later => ⟨fun _ _ => True, fun φ _ z hz => ?_⟩⟩
      obtain ⟨hp, hend⟩ := hp.append
      have hbody := lookBody_at (x := p.base) hspell hbare (by grind [shift_base]) hp hl φ
        later (hz.shift _)
      exact ⟨mark, _, hbody, hend.instr rfl rfl, by grind⟩
  obtain ⟨mark, j, hmark, h⟩ := bind_ok h
  obtain ⟨rfl, rfl⟩ := freshMark_ok hmark
  have hmarked : i.Grows { i with marks := i.marks + 1 } :=
    ⟨rfl, Nat.le_refl _, Nat.le_refl _, Nat.le_refl _, fun _ _ => rfl⟩
  unfold lookStep lookCheck at key
  cases hb : k.behind with
  | true =>
    simp only [hb, ↓reduceIte] at h key
    obtain ⟨_, j, hadd, h⟩ := bind_ok h
    cases hadd
    exact (key _ _ h).issued (hmarked.trans (.feature _ (by decide))) rfl rfl rfl
  | false =>
    simp only [hb, Bool.false_eq_true, ↓reduceIte] at h key
    exact (key _ _ h).issued hmarked rfl rfl rfl

theorem absentCode_writes (hw : B.Writes w part) (hbare : B.layout.guardDepth = 0) :
    B.Writes (absentCode w) (B.AbsentAt part) := by
  intro p i i' chunk h
  obtain ⟨_, j, hadd, h⟩ := bind_ok h
  cases hadd
  obtain ⟨code, k, hcode, h⟩ := bind_ok h
  cases h
  obtain ⟨hgrow, hspell⟩ := hw _ _ _ _ hcode
  have hadded : i.Grows { i with features := i.features.insert .hasAbsent } :=
    .feature _ (by decide)
  refine ⟨hadded.trans hgrow, fun hp hl later => ?_⟩
  obtain ⟨hp, hend⟩ := hp.append
  obtain ⟨hstart, hp⟩ := hp.append
  obtain ⟨found, hfound⟩ := hspell hp hl later
  refine ⟨found, fun φ _ z hz => ?_⟩
  refine ⟨p.base + 2 + code.size, hstart.pair.1, ?_,
    hfound none (.bare hbare) z ⟨hz.within, hz.checks, hz.loops⟩, hend.instr (by grind) rfl, by grind⟩
  rw [hstart.pair.2]
  grind [link]

theorem conditionalCode_writes (groups : List Nat) {no : Writer} {noPart : Part}
    (hw : B.Writes w part) (hno : B.Writes no noPart) (hbare : B.layout.guardDepth = 0) :
    B.Writes (conditionalCode groups w no) (B.ConditionalAt groups part noPart) := by
  intro p i i' chunk h
  obtain ⟨code, j, hcode, h⟩ := bind_ok h
  obtain ⟨noCode, k, hnoCode, h⟩ := bind_ok h
  cases h
  obtain ⟨hgrow, hspell⟩ := hw _ _ _ _ hcode
  obtain ⟨hgrow', hspell'⟩ := hno _ _ _ _ hnoCode
  refine ⟨hgrow.trans hgrow', fun hp hl later => ?_⟩
  obtain ⟨hp, hnoAt⟩ := hp.append
  obtain ⟨hp, hjump⟩ := hp.append
  obtain ⟨hif, hp⟩ := hp.append
  obtain ⟨a, ha⟩ := hspell hp (hl.left hgrow') later
  obtain ⟨b, hb⟩ := hspell' (hnoAt.moved (by grind [shift_base])) (hl.right hgrow) later
  refine ⟨fun _ _ => True, fun φ _ z hz => ?_⟩
  refine ⟨p.base + 1 + code.size, hif.instr rfl (by grind [link]),
    ha none (.bare hbare) z (hz.shift _), hjump.instr (by grind) (by grind [link]), ?_⟩
  have := hb none (.bare hbare) z ((hz.grow hgrow).shift _)
  grind [shift_base]

theorem callCode_at {group : Nat} {x : Nat} {i i' : Issued} {chunk : Chunk}
    (h : callCode group B.layout i = .ok chunk i') :
    i' = i ∧ (B.Placed x chunk → B.CallAt group x (x + chunk.size)) := by
  unfold callCode at h
  rw [bind_read] at h
  cases hsub : (B.layout.subroutines[group]?).join with
  | none =>
    rw [hsub] at h
    cases h
  | some sub =>
    rw [hsub] at h
    cases h
    exact ⟨rfl, fun hp => ⟨sub, hsub, hp.instr rfl rfl, rfl⟩⟩

theorem captureCode_writes (group : Nat) (hw : B.Writes w part) :
    B.Writes (captureCode group w) (B.CaptureAt group part) := by
  intro p i i' chunk h
  unfold captureCode at h
  rw [bind_read] at h
  unfold CaptureAt
  cases hc : B.layout.calls.isCalled group with
  | true =>
    simp only [hc, ↓reduceIte] at h ⊢
    obtain ⟨rfl, hcall⟩ := callCode_at (x := p.base) h
    exact ⟨.refl _, fun hp _ _ => ⟨fun _ _ => True, fun _ _ _ _ => hcall hp⟩⟩
  | false =>
    simp only [hc, Bool.false_eq_true, ↓reduceIte] at h ⊢
    obtain ⟨code, j, hcode, h⟩ := bind_ok h
    cases h
    obtain ⟨hgrow, hspell⟩ := hw _ _ _ _ hcode
    refine ⟨hgrow, fun hp hl later => ?_⟩
    obtain ⟨hp, hend⟩ := hp.append
    obtain ⟨hstart, hp⟩ := hp.append
    obtain ⟨found, hfound⟩ := hspell hp hl later
    exact ⟨found, fun φ hk z hz => ⟨p.base + 1 + code.size, hstart.instr rfl rfl,
      hfound φ hk z (hz.shift _), hend.instr (by grind) rfl, by grind⟩⟩

end Built
end RegexMachine
