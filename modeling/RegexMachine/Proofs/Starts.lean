import RegexMachine.Proofs.Boundaries
import RegexMachine.Proofs.Searches

/-!
The starts that a search tries. Both loops try places where a character begins, one after another
inside the range that is asked for, and pass over those only that a hint rules out.
-/
namespace RegexMachine

/-! ## Boundaries in a range -/

namespace Subject

variable {t : Subject} {lo hi p : Nat}

/-- The boundaries in `lo ..= hi`. -/
def between (t : Subject) (lo hi : Nat) : List Nat :=
  (List.range' lo (hi + 1 - lo)).filter t.isBoundary

theorem mem_between : p ∈ t.between lo hi ↔ (lo ≤ p ∧ p ≤ hi) ∧ t.isBoundary p = true := by
  rw [between, List.mem_filter, List.mem_range'_1]
  constructor
  · exact fun ⟨⟨h, h'⟩, hb⟩ => ⟨⟨h, by omega⟩, hb⟩
  · exact fun ⟨⟨h, h'⟩, hb⟩ => ⟨⟨h, by omega⟩, hb⟩

theorem between_empty (h : hi < lo) : t.between lo hi = [] := by
  have : hi + 1 - lo = 0 := by omega
  rw [between, this]
  rfl

theorem between_append (mid : Nat) (h : lo ≤ mid) (h' : mid ≤ hi) :
    t.between lo hi = t.between lo mid ++ t.between (mid + 1) hi := by
  have hsum : hi + 1 - lo = (mid + 1 - lo) + (hi + 1 - (mid + 1)) := by omega
  have hstart : mid + 1 = lo + 1 * (mid + 1 - lo) := by omega
  rw [between, hsum, ← List.range'_append, List.filter_append, ← hstart]
  rfl

theorem between_self (h : t.isBoundary p = true) : t.between p p = [p] := by
  have : p + 1 - p = 1 := by omega
  rw [between, this]
  simp [List.range'_one, h]

theorem between_none (h : ∀ k, lo ≤ k → k ≤ hi → t.isBoundary k = false) :
    t.between lo hi = [] := by
  rw [List.eq_nil_iff_forall_not_mem]
  intro p hp
  obtain ⟨⟨hlo, hhi⟩, hb⟩ := mem_between.mp hp
  rw [h p hlo hhi] at hb
  cases hb

/-- Places where no character begins do not count. -/
theorem between_skip {mid : Nat} (h : lo ≤ mid)
    (hgap : ∀ k, lo ≤ k → k < mid → t.isBoundary k = false) :
    t.between lo hi = t.between mid hi := by
  rcases Nat.lt_or_ge hi mid with hempty | hge
  · rw [between_empty hempty]
    exact between_none fun k hk hle => hgap k hk (by omega)
  · rcases Nat.eq_or_lt_of_le h with rfl | hlt
    · rfl
    · have hsucc : mid - 1 + 1 = mid := by omega
      have hnone : t.between lo (mid - 1) = [] :=
        between_none fun k hk hle => hgap k hk (by omega)
      rw [between_append (mid - 1) (by omega) (by omega), hnone, hsucc, List.nil_append]

theorem between_upTo {mid : Nat} (h : mid ≤ hi)
    (hgap : ∀ k, mid < k → k ≤ hi → t.isBoundary k = false) :
    t.between lo hi = t.between lo mid := by
  rcases Nat.lt_or_ge mid lo with hlt | hle
  · rw [between_empty hlt]
    exact between_none fun k hk hle => hgap k (by omega) hle
  · have hnone : t.between (mid + 1) hi = [] := between_none fun k hk hle => hgap k hk hle
    rw [between_append mid hle h, hnone, List.append_nil]

theorem WellFormed.between_next (h : t.WellFormed) (hb : t.isBoundary lo = true)
    (hlo : lo < t.size) (hle : lo ≤ hi) : t.between lo hi = lo :: t.between (t.next lo) hi := by
  obtain ⟨-, -, hgap⟩ := h.next_spec hb hlo
  rw [between_append lo (Nat.le_refl lo) hle, between_self hb]
  rw [between_skip (lt_next t lo) fun k hk hlt => hgap k hk hlt]
  rfl

theorem between_last {mid : Nat} (h : lo ≤ hi) (hb : t.isBoundary hi = true) (hmid : mid < hi)
    (hgap : ∀ k, mid < k → k < hi → t.isBoundary k = false) :
    t.between lo hi = t.between lo mid ++ [hi] := by
  rcases Nat.eq_or_lt_of_le h with rfl | hlt
  · rw [between_empty hmid, between_self hb, List.nil_append]
  · have hsucc : hi - 1 + 1 = hi := by omega
    rw [between_append (hi - 1) (by omega) (by omega), hsucc, between_self hb,
      between_upTo (by omega) fun k hk hle => hgap k hk (by omega)]

end Subject

/-! ## Finding bytes and texts -/

namespace Bytes

theorem scan_none {p : Nat → Bool} {n i : Nat} (h : scan p i n = none) :
    ∀ k, i ≤ k → k < i + n → p k = false := by
  induction n generalizing i with
  | zero => exact fun k hk hlt => absurd hlt (by omega)
  | succ n ih =>
    rw [scan] at h
    split at h
    · cases h
    · rename_i hp
      intro k hk hlt
      rcases Nat.eq_or_lt_of_le hk with rfl | hk
      · exact Bool.not_eq_true _ ▸ hp
      · exact ih h k hk (by omega)

theorem scan_some {p : Nat → Bool} {n i c : Nat} (h : scan p i n = some c) :
    i ≤ c ∧ c < i + n ∧ p c = true ∧ ∀ k, i ≤ k → k < c → p k = false := by
  induction n generalizing i with
  | zero => cases h
  | succ n ih =>
    rw [scan] at h
    split at h
    · rename_i hp
      cases h
      exact ⟨Nat.le_refl _, by omega, hp, fun k hk hlt => absurd hlt (by omega)⟩
    · rename_i hp
      obtain ⟨hle, hlt, hc, hbefore⟩ := ih h
      refine ⟨by omega, by omega, hc, fun k hk hlt => ?_⟩
      rcases Nat.eq_or_lt_of_le hk with rfl | hk
      · exact Bool.not_eq_true _ ▸ hp
      · exact hbefore k hk hlt

end Bytes

namespace Machine

variable {e : Setting} {pos last : Nat}

/-! ## Attempts one after another -/

/-- Attempts at all these starts, until one of them ends the search. -/
def tryAll (clock : Nat) (e : Setting) : List Nat → Search SearchOutcome
  | [] => takeBest
  | p :: ps => orElse (tryAt clock e p) (tryAll clock e ps)

/-- Some of the starts in a list, in the same order. The others are ruled out by a hint. -/
inductive Picks (e : Setting) : List Nat → List Nat → Prop
  | nil : Picks e [] []
  | tried (p : Nat) {ps qs : List Nat} (h : Picks e ps qs) : Picks e (p :: ps) (p :: qs)
  | passed {p : Nat} {ps qs : List Nat} (hp : allowed e p = false) (h : Picks e ps qs) :
    Picks e (p :: ps) qs

theorem Picks.sublist {ps qs : List Nat} (h : Picks e ps qs) : qs.Sublist ps := by
  induction h with
  | nil => exact .slnil
  | tried p _ ih => exact ih.cons_cons p
  | passed _ _ ih => exact ih.cons _

theorem Picks.skip {ps qs rs : List Nat} (hp : ∀ p ∈ ps, allowed e p = false)
    (h : Picks e qs rs) : Picks e (ps ++ qs) rs := by
  induction ps with
  | nil => exact h
  | cons p ps ih => exact .passed (hp p (by simp)) (ih fun q hq => hp q (by simp [hq]))

theorem Picks.append_rejected {ps qs rs : List Nat} (h : Picks e ps rs)
    (hq : ∀ p ∈ qs, allowed e p = false) : Picks e (ps ++ qs) rs := by
  induction h with
  | nil =>
    have hnone := Picks.skip hq (.nil (e := e))
    rwa [List.append_nil] at hnone
  | tried p _ ih => exact .tried p ih
  | passed hp _ ih => exact .passed hp ih

theorem picks_none {ps : List Nat} (hp : ∀ p ∈ ps, allowed e p = false) : Picks e ps [] :=
  Picks.nil.append_rejected hp

/-! ## Hints -/

/-- What a start that the hints allow is like. -/
structure Allowed (e : Setting) (p : Nat) : Prop where
  buffer : e.program.tables.hints.anchor.has .beginBuffer = true → e.subject.isStart p = true
  position : e.program.tables.hints.anchor.has .beginPosition = true → p = e.origin
  line : e.program.tables.hints.anchor.has .beginLine = true → e.subject.isLineStart p = true
  length : e.program.tables.hints.minLength ≤ e.subject.size - p
  leading : ∀ lit, e.program.tables.hints.leading = some lit →
    e.subject.bytes.startsAt p lit = true
  firstBytes : ∀ set, e.program.tables.hints.firstBytes = some set →
    ∃ b, e.subject.bytes[p]? = some b ∧ set.has b = true

theorem allowed_iff {p : Nat} : allowed e p = true ↔ Allowed e p := by
  unfold allowed
  simp only [Bool.and_eq_true, Bool.or_eq_true, Bool.not_eq_true', decide_eq_true_eq,
    Option.all_eq_true, Option.any_eq_true, beq_iff_eq]
  constructor
  · rintro ⟨⟨⟨⟨⟨hbuffer, hposition⟩, hline⟩, hlength⟩, hleading⟩, hfirst⟩
    exact ⟨fun h => hbuffer.resolve_left (by simp [h]), fun h => hposition.resolve_left (by simp [h]),
      fun h => hline.resolve_left (by simp [h]), hlength, hleading, hfirst⟩
  · rintro ⟨hbuffer, hposition, hline, hlength, hleading, hfirst⟩
    have given {a : StartAnchor} {q : Prop}
        (h : e.program.tables.hints.anchor.has a = true → q) :
        e.program.tables.hints.anchor.has a = false ∨ q := by
      cases ha : e.program.tables.hints.anchor.has a with
      | false => exact Or.inl rfl
      | true => exact Or.inr (h ha)
    exact ⟨⟨⟨⟨⟨given hbuffer, given hposition⟩, given hline⟩, hlength⟩, hleading⟩, hfirst⟩

theorem rejected {p : Nat} (h : ¬ Allowed e p) : allowed e p = false := by
  rw [← Bool.not_eq_true, allowed_iff]
  exact h

/-- No character begins between two places where the hints would allow a match. -/
def Barren (e : Setting) (lo hi : Nat) : Prop :=
  ∀ p, lo ≤ p → p < hi → e.subject.isBoundary p = true → ¬ Allowed e p

/-- What the search for the next start needs of a program and a subject: there are only whole
characters, and bytes inside of characters are no first bytes of matches. -/
structure Searchable (e : Setting) : Prop where
  wellFormed : e.subject.WellFormed
  firstBytes : e.subject.encoding = .utf8 → ∀ set, e.program.tables.hints.firstBytes = some set →
    ∀ b, Encoding.isContinuation b = true → set.has b = false

theorem Searchable.boundary (he : Searchable e) {set : ByteSet} {i : Nat}
    (hset : e.program.tables.hints.firstBytes = some set) (hi : i < e.subject.size)
    (hbyte : set.has (e.subject.bytes.byteAt i) = true) : e.subject.isBoundary i = true := by
  refine Subject.isBoundary_of_byte hi fun hutf8 => ?_
  rw [← Bool.not_eq_true]
  intro hcontinues
  rw [he.firstBytes hutf8 set hset _ hcontinues] at hbyte
  cases hbyte

/-- Inside a line no match begins that is to begin with a line. -/
theorem barren_line (ht : e.subject.WellFormed) (stop : Nat)
    (hline : e.program.tables.hints.anchor.has .beginLine = true) (hpos : 0 < pos)
    (hb : e.subject.isBoundary pos = true)
    (hnot : e.subject.isLineStart pos = false) (hstop : stop ≤ e.subject.size)
    (hinside : ∀ k, pos ≤ k → k < stop → (e.subject.bytes.byteAt k == 10) = false) :
    Barren e pos (stop + 1) := by
  intro p hp hlt _ ha
  have hstart := ha.line hline
  rcases Nat.eq_or_lt_of_le hp with rfl | hp
  · rw [hnot] at hstart
    cases hstart
  · -- The character before lies in the line as well.
    obtain ⟨q, hq, -, hqp, hgap⟩ := ht.prev?_spec (i := p) (by omega) (by omega)
    have hposq : pos ≤ q := by
      refine Nat.not_lt.mp fun hbefore => ?_
      rw [hgap pos hbefore hp] at hb
      cases hb
    have hqsize : q < e.subject.bytes.size := by simp only [Subject.size] at *; omega
    have hbyte := hinside q hposq (by omega)
    simp only [Bytes.byteAt, Array.getD_eq_getD_getElem?, Array.getElem?_eq_getElem hqsize,
      Option.getD_some] at hbyte
    simp [Subject.isLineStart, Nat.ne_of_gt (Nat.lt_trans hpos hp), hq, Subject.isNewline,
      Encoding.isNewline, hqsize, hbyte] at hstart

theorem candidate?_spec (he : Searchable e) (hpos : pos ≤ e.subject.size)
    (hb : e.subject.isBoundary pos = true) :
    (candidate? e pos = none ∧ Barren e pos (e.subject.size + 1)) ∨
      ∃ c, candidate? e pos = some c ∧ pos ≤ c ∧ c ≤ e.subject.size ∧
        e.subject.isBoundary c = true ∧ Barren e pos c := by
  have hsize : e.subject.size = e.subject.bytes.size := rfl
  unfold candidate?
  dsimp only
  cases hlit : e.program.tables.hints.leading with
  | some lit =>
    simp only [Bytes.findText]
    cases hf : Bytes.scan (fun k => e.subject.bytes.startsAt k lit) pos
        (e.subject.bytes.size + 1 - pos) with
    | none =>
      refine Or.inl ⟨rfl, fun p hp hlt _ ha => ?_⟩
      have hnot := Bytes.scan_none hf p hp (by omega)
      rw [ha.leading lit hlit] at hnot
      cases hnot
    | some f =>
      obtain ⟨hle, hlt, -, hbefore⟩ := Bytes.scan_some hf
      obtain ⟨hc, hcf, hgap⟩ := he.wellFormed.leftAdjust_spec (i := f) (by omega)
      refine Or.inr ⟨_, rfl, ?_, by omega, hc, fun p hp hlt _ ha => ?_⟩
      · refine Nat.not_lt.mp fun hbefore => ?_
        rw [hgap pos hbefore hle] at hb
        cases hb
      · have hnot := hbefore p hp (by omega)
        rw [ha.leading lit hlit] at hnot
        cases hnot
  | none =>
    dsimp only
    split
    · rename_i hline
      simp only [Bool.and_eq_true, decide_eq_true_eq, Bool.not_eq_true'] at hline
      obtain ⟨⟨hline, hpos'⟩, hnot⟩ := hline
      have hbarren (stop : Nat) (hstop : stop ≤ e.subject.size) :=
        barren_line he.wellFormed stop hline hpos' hb hnot hstop
      simp only [Bytes.findByte]
      cases hf : Bytes.scan (fun k => e.subject.bytes.byteAt k == 10) pos
          (e.subject.bytes.size - pos) with
      | none =>
        have hnone := Bytes.scan_none hf
        exact Or.inl ⟨rfl, hbarren _ (Nat.le_refl _) fun k hk hlt => hnone k hk (by omega)⟩
      | some f =>
        obtain ⟨hle, hlt, hnewline, hbefore⟩ := Bytes.scan_some hf
        have hbyte : e.subject.bytes.byteAt f = 10 := beq_iff_eq.mp hnewline
        have hf : e.subject.isBoundary f = true :=
          Subject.isBoundary_of_byte (by omega) fun _ => by rw [hbyte]; rfl
        have hnext : e.subject.next f = f + 1 := by
          have hchar := he.wellFormed.charAt hf (by omega)
          rw [hchar.next_eq, Encoding.charLenAt, hbyte]
          have : e.subject.encoding.charLen 10 = 1 := by cases e.subject.encoding <;> rfl
          omega
        obtain ⟨hc, hcsize, -⟩ := he.wellFormed.next_spec hf (by omega)
        rw [hnext] at hc hcsize
        exact Or.inr ⟨f + 1, rfl, by omega, hcsize, hc, hbarren f (by omega) hbefore⟩
    · cases hset : e.program.tables.hints.firstBytes with
      | some set =>
        simp only [Bytes.findByte]
        have known {p : Nat} (ha : Allowed e p) :
            p < e.subject.bytes.size ∧ set.has (e.subject.bytes.byteAt p) = true := by
          obtain ⟨b, hbyte, hhas⟩ := ha.firstBytes set hset
          refine ⟨(Array.getElem?_eq_some_iff.mp hbyte).1, ?_⟩
          rwa [Bytes.byteAt, Array.getD_eq_getD_getElem?, hbyte]
        cases hf : Bytes.scan (fun k => set.has (e.subject.bytes.byteAt k)) pos
            (e.subject.bytes.size - pos) with
        | none =>
          refine Or.inl ⟨rfl, fun p hp hlt _ ha => ?_⟩
          obtain ⟨hlt, hhas⟩ := known ha
          have hnot := Bytes.scan_none hf p hp (by omega)
          rw [hhas] at hnot
          cases hnot
        | some c =>
          obtain ⟨hle, hlt, hhas, hbefore⟩ := Bytes.scan_some hf
          refine Or.inr ⟨c, rfl, hle, by omega, he.boundary hset (by omega) hhas,
            fun p hp hlt _ ha => ?_⟩
          have hnot := hbefore p hp hlt
          rw [(known ha).2] at hnot
          cases hnot
      | none =>
        exact Or.inr ⟨pos, rfl, Nat.le_refl _, hpos, hb, fun p hp hlt => absurd hlt (by omega)⟩

theorem Allowed.begins {p : Nat} (h : Allowed e p)
    (hbuffer : e.program.tables.hints.anchor.has .beginBuffer = true) :
    p = 0 ∧ e.subject.notBol = false := by
  have hstart := h.buffer hbuffer
  simpa [Subject.isStart] using hstart

/-! ## The loops -/

theorem Barren.rejected {lo hi : Nat} (h : Barren e lo hi) (hle : last < hi) :
    ∀ p ∈ e.subject.between lo last, allowed e p = false := by
  intro p hp
  obtain ⟨⟨hlo, hhi⟩, hb⟩ := Subject.mem_between.mp hp
  exact Machine.rejected (h p hlo (by omega) hb)

/-- Starts before a candidate are passed over. -/
theorem Barren.picks {mid : Nat} {qs : List Nat} (h : Barren e pos mid) (hle : pos ≤ mid)
    (hmid : mid ≤ last) (hq : Picks e (e.subject.between mid last) qs) :
    Picks e (e.subject.between pos last) qs := by
  rcases Nat.eq_or_lt_of_le hle with rfl | hlt
  · exact hq
  · have hsucc : mid - 1 + 1 = mid := by omega
    rw [Subject.between_append (mid - 1) (by omega) (by omega), hsucc]
    exact .skip (h.rejected (by omega)) hq

theorem forwardFrom_picks (he : Searchable e) (hlast : last ≤ e.subject.size)
    (hpos : pos ≤ e.subject.size) (hb : e.subject.isBoundary pos = true) :
    ∃ ps, Picks e (e.subject.between pos last) ps ∧
      ∀ clock, forwardFrom clock e last pos = tryAll clock e ps := by
  induction hn : last + 1 - pos using Nat.strongRecOn generalizing pos with
  | _ n ih =>
    have hstep clock := Machine.forwardFrom_eq clock e last pos
    by_cases hpast : last < pos
    · simp only [if_pos hpast] at hstep
      refine ⟨[], ?_, hstep⟩
      rw [Subject.between_empty hpast]
      exact .nil
    simp only [if_neg hpast] at hstep
    rcases candidate?_spec he hpos hb with ⟨hc, hbarren⟩ | ⟨c, hc, hle, hsize, hbc, hbarren⟩
    · simp only [hc] at hstep
      exact ⟨[], picks_none (hbarren.rejected (by omega)), hstep⟩
    simp only [hc] at hstep
    by_cases hfar : last < c
    · simp only [if_pos hfar] at hstep
      exact ⟨[], picks_none (hbarren.rejected hfar), hstep⟩
    simp only [if_neg hfar, if_neg (Nat.not_lt.mpr hle)] at hstep
    by_cases hend : e.subject.atEnd c = true
    · simp only [if_pos hend] at hstep
      have hlast : last = c := by
        rw [Subject.atEnd_iff] at hend
        omega
      refine ⟨[c], hbarren.picks hle (by omega) ?_, hstep⟩
      rw [hlast, Subject.between_self hbc]
      exact .tried c .nil
    · simp only [if_neg hend] at hstep
      have hlt : c < e.subject.size := by
        rw [Subject.atEnd_iff] at hend
        omega
      obtain ⟨hnext, hnextSize, -⟩ := he.wellFormed.next_spec hbc hlt
      have hforward := Subject.lt_next e.subject c
      obtain ⟨ps, hps, hrest⟩ := ih (last + 1 - e.subject.next c) (by omega) hnextSize hnext rfl
      simp only [hrest] at hstep
      refine ⟨c :: ps, hbarren.picks hle (by omega) ?_, hstep⟩
      rw [he.wellFormed.between_next hbc hlt (by omega)]
      exact .tried c hps

/-- A start is tried if the hints allow it, and then those that come after it. -/
theorem picks_allowed {before qs : List Nat} {search : Nat → Search SearchOutcome}
    (hsearch : ∀ clock, search clock =
      orElse (if allowed e pos then tryAt clock e pos else pure none) (tryAll clock e qs))
    (h : Picks e before qs) :
    ∃ ps, Picks e (pos :: before) ps ∧ ∀ clock, search clock = tryAll clock e ps := by
  cases hok : allowed e pos with
  | true =>
    simp only [hok, ↓reduceIte] at hsearch
    exact ⟨pos :: qs, .tried pos h, hsearch⟩
  | false =>
    simp only [hok, Bool.false_eq_true, ↓reduceIte] at hsearch
    exact ⟨qs, .passed hok h, hsearch⟩

theorem backwardFrom_picks (ht : e.subject.WellFormed) (first : Nat) (hpos : pos ≤ e.subject.size)
    (hb : e.subject.isBoundary pos = true) :
    ∃ ps, Picks e (e.subject.between first pos).reverse ps ∧
      ∀ clock, backwardFrom clock e first pos = tryAll clock e ps := by
  induction pos using Nat.strongRecOn with
  | _ pos ih =>
    have hstep clock := Machine.backwardFrom_eq clock e first pos
    by_cases hpast : pos < first
    · simp only [if_pos hpast] at hstep
      refine ⟨[], ?_, hstep⟩
      rw [Subject.between_empty hpast]
      exact .nil
    simp only [if_neg hpast] at hstep
    rcases Nat.eq_zero_or_pos pos with rfl | h0
    · obtain rfl : first = 0 := by omega
      have hprev : e.subject.prev? 0 = none := rfl
      simp only [hprev] at hstep
      rw [Subject.between_self hb]
      exact @picks_allowed _ _ _ [] _ hstep .nil
    · obtain ⟨p, hprev, hbp, hlt, hgap⟩ := ht.prev?_spec h0 hpos
      simp only [hprev] at hstep
      obtain ⟨qs, hqs, hrest⟩ := ih p hlt (by omega) hbp
      simp only [hrest] at hstep
      rw [Subject.between_last (by omega) hb hlt hgap, List.reverse_append]
      exact picks_allowed hstep hqs

/-- The starts that are cut off at the end are ruled out by hints. -/
theorem lastStart?_spec (hbol : e.subject.notBol = e.options.has .notBol)
    (horigin : e.origin ≤ last) (hlast : last ≤ e.subject.size) :
    (lastStart? e last = none ∧ Barren e e.origin (last + 1)) ∨
      ∃ l, lastStart? e last = some l ∧ l ≤ last ∧
        ∀ p, e.origin ≤ p → p ≤ last → l < p → ¬ Allowed e p := by
  unfold lastStart?
  dsimp only
  split
  · rename_i hbuffer
    simp only [Bool.and_eq_true, Bool.or_eq_true, decide_eq_true_eq] at hbuffer
    refine Or.inl ⟨rfl, fun p hp hlt _ ha => ?_⟩
    obtain ⟨rfl, hbegins⟩ := ha.begins hbuffer.1
    rcases hbuffer.2 with horigin | hnot
    · omega
    · rw [hbol, hnot] at hbegins
      cases hbegins
  · split
    · exact Or.inl ⟨rfl, fun p _ _ _ ha => by have := ha.length; omega⟩
    · refine Or.inr ⟨_, rfl, ?_, fun p hp hle hlt ha => ?_⟩
      · refine Nat.le_trans (Nat.min_le_left _ _) ?_
        split
        · exact Nat.zero_le _
        · split
          · exact horigin
          · exact Nat.le_refl _
      · have hlength := ha.length
        have hin : p ≤ if e.program.tables.hints.anchor.has .beginBuffer then 0
            else if e.program.tables.hints.anchor.has .beginPosition then e.origin else last := by
          split
          · exact Nat.le_of_eq (ha.begins ‹_›).1
          · split
            · exact Nat.le_of_eq (ha.position ‹_›)
            · exact hle
        exact absurd (Nat.le_min.mpr ⟨hin, by omega⟩) (Nat.not_le.mpr hlt)

theorem forward_picks (he : Searchable e) (hbol : e.subject.notBol = e.options.has .notBol)
    (horigin : e.origin ≤ last) (hlast : last ≤ e.subject.size) :
    ∃ ps, Picks e (e.subject.between e.origin last) ps ∧
      ∀ clock (s : State), s.best = none → forward clock e last s = tryAll clock e ps s := by
  obtain ⟨hb, hle, hsize, hgap⟩ := he.wellFormed.rightAdjust_spec (Nat.le_trans horigin hlast)
  rcases lastStart?_spec hbol horigin hlast with ⟨hl, hbarren⟩ | ⟨l, hl, hll, hcut⟩
  · refine ⟨[], picks_none (hbarren.rejected (by omega)), fun clock s hs => ?_⟩
    simp only [forward, hl]
    obtain ⟨ip, pos, start, stack, regs, tally, memo, best, events⟩ := s
    cases hs
    rfl
  · obtain ⟨ps, hps, hforward⟩ := forwardFrom_picks he (Nat.le_trans hll hlast) hsize hb
    refine ⟨ps, ?_, fun clock s _ => by simp only [forward, hl, hforward]⟩
    have hrest {lo : Nat} (hlo : e.origin ≤ lo) (hlt : l < lo) :
        ∀ p ∈ e.subject.between lo last, allowed e p = false := by
      intro p hp
      obtain ⟨⟨hlo', hhi⟩, -⟩ := Subject.mem_between.mp hp
      exact rejected (hcut p (by omega) hhi (by omega))
    rw [Subject.between_skip hle hgap]
    rcases Nat.lt_or_ge l (e.subject.rightAdjust e.origin) with hlt | hge
    · rw [Subject.between_empty hlt] at hps
      exact hps.append_rejected (hrest hle hlt)
    · rw [Subject.between_append l hge hll]
      exact hps.append_rejected (hrest (by omega) (by omega))

theorem backward_picks (ht : e.subject.WellFormed) (first : Nat) (horigin : e.origin ≤ e.subject.size) :
    ∃ ps, Picks e (e.subject.between first e.origin).reverse ps ∧
      ∀ clock, backward clock e first = tryAll clock e ps := by
  obtain ⟨hb, hle, hgap⟩ := ht.leftAdjust_spec horigin
  obtain ⟨ps, hps, hbackward⟩ := backwardFrom_picks ht first (by omega) hb
  refine ⟨ps, ?_, hbackward⟩
  rw [Subject.between_upTo hle hgap]
  exact hps

end Machine
end RegexMachine
