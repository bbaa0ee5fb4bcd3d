import RegexMachine.Proofs.LiteralPrograms
import RegexMachine.Proofs.SoundHints

/-!
Searches for texts. The pattern of an escaped text is found where the text stands first, and nothing
is found where it stands nowhere.
-/
namespace RegexMachine
open Compile

namespace Machine

variable {e : Setting} {s : State} {bytes : Bytes} {fold : Bool} {pos k n : Nat}

/-- How a text is read in a search. Nothing in it is called. -/
def Setting.reading (e : Setting) : Reading :=
  ⟨e.subject, e.origin, e.subject.encoding, fun _ => false⟩

/-- A search for a text with a program of that text alone, for the first match there is. -/
structure Seeks (e : Setting) (bytes : Bytes) (fold : Bool) : Prop where
  literal : e.program.IsLiteral bytes fold
  encoding : e.subject.encoding = e.program.encoding
  notEmpty : e.options.has .findNotEmpty = false
  longest : e.options.has .findLongest = false
  signal : ∀ n, e.signal n = false

theorem Seeks.code (h : Seeks e bytes fold) :
    e.program.code = (literalCode e.subject.encoding bytes fold).push .accept := by
  rw [h.encoding]
  exact h.literal.code

theorem Seeks.hints (h : Seeks e bytes fold) :
    ∃ span, e.program.tables.hints =
      Hints.ofTree e.subject.encoding (textRoot span bytes fold e.subject.encoding) := by
  rw [h.encoding]
  exact h.literal.hints

/-! ## Attempts -/

/-- A run ends where it accepts, if neither longer nor other matches are asked for. -/
theorem run_accept (hi : e.program.code[s.ip]? = some .accept)
    (hnotEmpty : e.options.has .findNotEmpty = false)
    (hlongest : e.options.has .findLongest = false) (n : Nat) :
    ∃ t, t.core = s.core ∧ run (n + 1) e s = (.accepted, t) := by
  have hpass : (e.options.has .findNotEmpty && (s.fetched e .accept).matchStart ==
      (s.fetched e .accept).pos) = false := by
    rw [hnotEmpty, Bool.false_and]
  let t := s.fetched e .accept
  refine ⟨t.emit e (.accept t.matchStart t.pos),
    (core_emit ..).trans (core_fetched s e .accept), ?_⟩
  rw [run_succ, step_fetched _ _ _ _ hi]
  change finish n e (accept e (s.fetched e .accept)) = _
  rw [accept_taken hpass hlongest]
  rfl

section
variable {i : Instr} {width : Nat → Option Nat} (hi : e.program.code[s.ip]? = some i)
  (hx : ∀ r, exec r e i = fun s => consume e (width s.pos) s)
include hi hx

theorem run_consume (hw : width s.pos = some k) (n : Nat) :
    ∃ t, t.core = { s.core with ip := s.ip + 1, pos := s.pos + k } ∧
      run (n + 1) e s = run n e t := by
  have hcore := core_fetched s e i
  have hpos : (s.fetched e i).pos = s.pos := congrArg Core.pos hcore
  have hwidth : width (s.fetched e i).pos = some k := hpos.symm ▸ hw
  refine ⟨{ s.fetched e i with ip := (s.fetched e i).ip + 1, pos := (s.fetched e i).pos + k },
    ?_, ?_⟩
  · have hip : (s.fetched e i).ip = s.ip := congrArg Core.ip hcore
    rw [← hcore, ← hip, ← hpos]
    rfl
  · rw [run_succ, step_fetched _ _ _ _ hi, hx]
    change finish n e (consume e (width (s.fetched e i).pos) (s.fetched e i)) = _
    rw [hwidth]
    rfl

/-- Without alternatives a run ends where nothing matches. -/
theorem run_consume_none (hw : width s.pos = none) (hstack : s.stack.frames = []) (n : Nat) :
    ∃ t, t.core = s.core ∧ run (n + 1) e s = (.exhausted, t) := by
  have hcore := core_fetched s e i
  have hpos : (s.fetched e i).pos = s.pos := congrArg Core.pos hcore
  have hframes : (s.fetched e i).stack.frames = [] := (congrArg Core.frames hcore).trans hstack
  refine ⟨{ s.fetched e i with stack := .empty }, ?_, ?_⟩
  · rw [← hcore]
    simp [State.core, hframes, FrameStack.empty]
  · rw [run_succ, step_fetched _ _ _ _ hi, hx]
    change finish n e (consume e (width (s.fetched e i).pos) (s.fetched e i)) = _
    rw [hpos, hw]
    change finish n e (backtrack e _) = _
    rw [backtrack_frames e _ hframes]
    rfl

end

/-- A literal that is not empty is an instruction that matches it. -/
theorem exec_literal (fold : Bool) (hne : bytes.isEmpty = false) :
    ∃ i, literalCode e.subject.encoding bytes fold = #[i] ∧
      ∀ r, exec r e i = fun s => consume e (e.reading.literalLength? bytes fold s.pos) s := by
  cases fold with
  | true =>
    refine ⟨.foldedText (e.subject.encoding.foldBytes bytes), by simp [literalCode, hne],
      fun r => ?_⟩
    simp only [Reading.literalLength?, hne]
    rfl
  | false =>
    by_cases hone : bytes.size = 1
    · refine ⟨.byte (bytes.byteAt 0), by simp [literalCode, hne, hone], fun r => ?_⟩
      simp only [Reading.literalLength?, hne, Setting.reading, ← e.subject.byteLength?_eq hone]
      rfl
    · refine ⟨.text bytes, by simp [literalCode, hne, hone], fun r => ?_⟩
      simp only [Reading.literalLength?, hne]
      rfl

/-- A run that begins with an empty stack matches the text where it stands. -/
theorem Seeks.run_found (h : Seeks e bytes fold) (hip : s.ip = 0)
    (hk : e.reading.literalLength? bytes fold s.pos = some k) (n : Nat) :
    ∃ t, t.regs = s.regs ∧ t.start = s.start ∧ t.pos = s.pos + k ∧
      run (n + 2) e s = (.accepted, t) := by
  cases hne : bytes.isEmpty with
  | true =>
    have hcode : e.program.code[s.ip]? = some .accept := by
      rw [h.code, literalCode, if_pos hne, hip]
      rfl
    rw [Reading.literalLength?, if_pos hne] at hk
    obtain ⟨t, ht, hrun⟩ := run_accept hcode h.notEmpty h.longest (n + 1)
    cases hk
    exact ⟨t, congrArg Core.regs ht, congrArg Core.start ht, congrArg Core.pos ht, hrun⟩
  | false =>
    obtain ⟨i, hi, hx⟩ := exec_literal (e := e) fold hne
    have hcode : e.program.code[s.ip]? = some i := by
      rw [h.code, hi, hip]
      rfl
    obtain ⟨t, ht, hrun⟩ := run_consume hcode hx hk (n + 1)
    have htip : t.ip = s.ip + 1 := congrArg Core.ip ht
    have haccept : e.program.code[t.ip]? = some .accept := by
      rw [h.code, hi, htip, hip]
      rfl
    obtain ⟨u, hu, hrun'⟩ := run_accept haccept h.notEmpty h.longest n
    have hcore := hu.trans ht
    exact ⟨u, congrArg Core.regs hcore, congrArg Core.start hcore, congrArg Core.pos hcore,
      hrun.trans hrun'⟩

theorem Seeks.run_none (h : Seeks e bytes fold) (hip : s.ip = 0) (hstack : s.stack.frames = [])
    (hnone : e.reading.literalLength? bytes fold s.pos = none) (n : Nat) :
    ∃ t, t.best = s.best ∧ run (n + 1) e s = (.exhausted, t) := by
  cases hne : bytes.isEmpty with
  | true =>
    rw [Reading.literalLength?, if_pos hne] at hnone
    cases hnone
  | false =>
    obtain ⟨i, hi, hx⟩ := exec_literal (e := e) fold hne
    have hcode : e.program.code[s.ip]? = some i := by
      rw [h.code, hi, hip]
      rfl
    obtain ⟨t, ht, hrun⟩ := run_consume_none hcode hx hnone hstack n
    exact ⟨t, congrArg Core.best ht, hrun⟩

/-- What the search answers for a text of a length. -/
def foundAt (pos k : Nat) : SearchOutcome := .found ⟨#[some ⟨pos, pos + k⟩], none⟩

theorem Seeks.region_eq (h : Seeks e bytes fold)
    (hregs : s.regs = .clear e.program.tables.captures e.program.tables.loops.size)
    (hstart : s.start = pos) (hpos : s.pos = pos + k) :
    s.region e = ⟨#[some ⟨pos, pos + k⟩], none⟩ := by
  have hmatch : s.matchStart = pos := by
    rw [State.matchStart, hregs, hstart, hpos]
    exact Nat.min_eq_left (Nat.le_add_right pos k)
  rw [State.region, hmatch, h.literal.history, hregs, h.literal.captures, hpos]
  simp [Region.ofCaptures, Registers.clear, Captures.none, Array.setIfInBounds]

/-- Two steps are enough to find a text: that of its instruction, and the one that accepts. -/
theorem Seeks.tryAt_found (h : Seeks e bytes fold)
    (hk : e.reading.literalLength? bytes fold pos = some k) (n : Nat) (s : State) :
    ∃ t, tryAt (n + 2) e pos s = .ok (some (foundAt pos k)) t := by
  let s' := (s.enter e 0 pos).emit e (.start pos)
  have hcore : s'.core = (s.enter e 0 pos).core := core_emit ..
  have hpos : s'.pos = pos := congrArg Core.pos hcore
  obtain ⟨t, hregs, hstart, hend, hrun⟩ :=
    h.run_found (s := s') (congrArg Core.ip hcore) (hpos.symm ▸ hk) n
  have hregion : t.region e = ⟨#[some ⟨pos, pos + k⟩], none⟩ :=
    h.region_eq (hregs.trans (congrArg Core.regs hcore)) (hstart.trans (congrArg Core.start hcore))
      (hpos ▸ hend)
  refine ⟨t, ?_⟩
  rw [tryAt_eq (h.signal _), attempt, hrun]
  simp only [hregion]
  rfl

theorem Seeks.tryAt_none (h : Seeks e bytes fold)
    (hnone : e.reading.literalLength? bytes fold pos = none) (n : Nat) (s : State) :
    ∃ t, t.best = s.best ∧ tryAt (n + 1) e pos s = .ok none t := by
  let s' := (s.enter e 0 pos).emit e (.start pos)
  have hcore : s'.core = (s.enter e 0 pos).core := core_emit ..
  have hpos : s'.pos = pos := congrArg Core.pos hcore
  obtain ⟨t, hbest, hrun⟩ := h.run_none (s := s') (congrArg Core.ip hcore)
    (congrArg Core.frames hcore) (hpos.symm ▸ hnone) n
  refine ⟨t.emit e (.exhausted pos), ?_, ?_⟩
  · exact (congrArg Core.best (core_emit ..)).trans (hbest.trans (congrArg Core.best hcore))
  · rw [tryAt_eq (h.signal _), attempt, hrun]

/-- What attempts at a place answer, if anything. -/
def Setting.textAt? (e : Setting) (bytes : Bytes) (fold : Bool) (pos : Nat) :
    Option SearchOutcome :=
  (e.reading.literalLength? bytes fold pos).map (foundAt pos)

/-- Attempts at some places find the text at the first of them where it stands. -/
theorem Seeks.tryAll_eq (h : Seeks e bytes fold) (n : Nat) (ps : List Nat) (hbest : s.best = none) :
    answer (tryAll (n + 2) e ps s) =
      .ok ((ps.findSome? (e.textAt? bytes fold)).getD .notFound) := by
  induction ps generalizing s with
  | nil => exact takeBest_none hbest
  | cons p ps ih =>
    rw [tryAll, List.findSome?_cons, Setting.textAt?]
    cases hk : e.reading.literalLength? bytes fold p with
    | none =>
      obtain ⟨t, ht, htry⟩ := h.tryAt_none hk (n + 1) s
      rw [orElse_none htry]
      exact ih (ht.trans hbest)
    | some k =>
      obtain ⟨t, htry⟩ := h.tryAt_found hk n s
      rw [orElse_some htry]
      rfl

/-! ## Starts -/

/-- Starts that a hint rules out are passed over without loss. -/
theorem Picks.findSome?_eq {α : Type} {f : Nat → Option α} {ps qs : List Nat} (h : Picks e ps qs)
    (hnone : ∀ p ∈ ps, allowed e p = false → f p = none) : qs.findSome? f = ps.findSome? f := by
  induction h with
  | nil => rfl
  | tried p _ ih =>
    rw [List.findSome?_cons, List.findSome?_cons,
      ih fun q hq => hnone q (List.mem_cons_of_mem _ hq)]
  | @passed p ps qs hp _ ih =>
    rw [List.findSome?_cons, hnone p (by simp) hp]
    exact ih fun q hq => hnone q (List.mem_cons_of_mem _ hq)

/-- Hints allow all places where the text stands. -/
theorem Seeks.allowed (h : Seeks e bytes fold) (hwell : e.subject.WellFormed)
    (hpos : pos ≤ e.subject.size) (hb : e.subject.isBoundary pos = true)
    (hk : e.reading.literalLength? bytes fold pos = some k) : Allowed e pos := by
  obtain ⟨span, hhints⟩ := h.hints
  -- Nothing but the encoding of the layout matters, as nothing is called.
  let l : Layout := ⟨e.subject.encoding, ⟨#[], #[]⟩, #[], #[], false, 0⟩
  let root := textRoot span bytes fold e.subject.encoding
  have hmatch : Matches l root e ⟨0, pos + k, pos, [], .clear 0 0⟩ := by
    unfold Matches matchExtent root textRoot Pattern.textAtom
    split
    · rename_i hempty
      rw [Reading.literalLength?, if_pos hempty] at hk
      cases hk
      rfl
    · exact ⟨k, hk, rfl⟩
  exact hmatch.allowed hhints rfl hwell (textRoot_distinct _) (textRoot_proper _)
    (textRoot_hasBytes span bytes fold _) hpos hb

/-- No byte inside a character is taken for the beginning of the text. -/
theorem Seeks.searchable (h : Seeks e bytes fold) (hwell : e.subject.WellFormed)
    (hspells : Encoding.utf8.Spells bytes.toList) : Searchable e := by
  refine ⟨hwell, fun hutf8 set hset b hb => ?_⟩
  obtain ⟨span, hhints⟩ := h.hints
  rw [hhints, hutf8] at hset
  exact Hints.firstBytes_textRoot hspells hset hb

/-- A search from the beginning finds the text at the first boundary where it stands. -/
theorem Seeks.forward_eq (h : Seeks e bytes fold) (hwell : e.subject.WellFormed)
    (hspells : Encoding.utf8.Spells bytes.toList) (hbol : e.subject.notBol = e.options.has .notBol)
    (horigin : e.origin = 0) (n : Nat) (hbest : s.best = none) :
    answer (forward (n + 2) e e.subject.size s) =
      .ok (((e.subject.between 0 e.subject.size).findSome? (e.textAt? bytes fold)).getD
        .notFound) := by
  obtain ⟨ps, hpicks, hforward⟩ := forward_picks (h.searchable hwell hspells) hbol
    (horigin ▸ Nat.zero_le e.subject.size) (Nat.le_refl e.subject.size)
  rw [hforward _ _ hbest, h.tryAll_eq n ps hbest, ← horigin, hpicks.findSome?_eq]
  intro p hp hnot
  obtain ⟨⟨-, hle⟩, hb⟩ := Subject.mem_between.mp hp
  rw [Setting.textAt?, Option.map_eq_none_iff]
  cases hk : e.reading.literalLength? bytes fold p with
  | none => rfl
  | some k =>
    rw [allowed_iff.mpr (h.allowed hwell hle hb hk)] at hnot
    cases hnot

end Machine

theorem Subject.between_sorted (t : Subject) (lo hi : Nat) : (t.between lo hi).Pairwise (· < ·) :=
  (List.pairwise_lt_range' ..).filter _

/-- What is found first in a list in order is what is found at its least place. -/
theorem findSome?_least {α : Type} {f : Nat → Option α} {l : List Nat} {i : Nat} {a : α}
    (hsorted : l.Pairwise (· < ·)) (hi : i ∈ l) (hf : f i = some a)
    (hleast : ∀ j ∈ l, (f j).isSome = true → i ≤ j) : l.findSome? f = some a := by
  cases hfind : l.findSome? f with
  | none =>
    rw [List.findSome?_eq_none_iff.mp hfind i hi] at hf
    cases hf
  | some b =>
    obtain ⟨before, j, after, rfl, hj, hnone⟩ := List.findSome?_eq_some_iff.mp hfind
    have hle : i ≤ j := hleast j (by simp) (by rw [hj]; rfl)
    rcases List.mem_append.mp hi with hbefore | hrest
    · rw [hnone i hbefore] at hf
      cases hf
    · rcases List.mem_cons.mp hrest with rfl | hafter
      · rw [← hj, hf]
      · have hlt := (List.pairwise_cons.mp (List.pairwise_append.mp hsorted).2.1).1 i hafter
        omega

/-! ## First places -/

/-- A search finds the first place where something stands, if it stands anywhere, and answers with
the span that it takes up. -/
structure SearchReport.FindsFirst (r : SearchReport) (stands : Nat → Nat → Prop) : Prop where
  found : ∀ i n, stands i n → (∀ j k, stands j k → i ≤ j) →
    r.result = .ok (.found ⟨#[some ⟨i, i + n⟩], none⟩)
  notFound : (∀ i n, ¬ stands i n) → r.result = .ok .notFound

/-- Of all places only the first one matters. -/
theorem SearchReport.FindsFirst.of_least {r : SearchReport} {stands stands' : Nat → Nat → Prop}
    (h : r.FindsFirst stands) (hstands : ∀ i n, stands i n → stands' i n)
    (hleast : ∀ i n, stands' i n → (∀ j k, stands' j k → i ≤ j) → stands i n) :
    r.FindsFirst stands' where
  found i n hi hfirst :=
    h.found i n (hleast i n hi hfirst) fun j k hj => hfirst j k (hstands j k hj)
  notFound hnone := h.notFound fun i n hi => hnone i n (hstands i n hi)

namespace Matcher
open Machine

variable {bytes : Bytes} {fold : Bool} {m : Matcher} {w : Watch}

/-- A search for a text answers with the least boundary where it matches. -/
theorem search_seeks (h : Seeks (m.setting 0 .empty w) bytes fold)
    (hwell : (m.setting 0 .empty w).subject.WellFormed)
    (hspells : Encoding.utf8.Spells bytes.toList) :
    (m.search w).FindsFirst fun i n => (m.setting 0 .empty w).subject.isBoundary i = true ∧
      (m.setting 0 .empty w).reading.literalLength? bytes fold i = some n := by
  let e := m.setting 0 .empty w
  obtain ⟨n, hclock⟩ : ∃ n, defaultClock = n + 2 := ⟨2 ^ 62 - 2, rfl⟩
  have hin : ¬ (m.subject.size < 0 || m.subject.size < m.subject.size) = true := by simp
  have hresult : (m.search w).result =
      .ok (((e.subject.between 0 e.subject.size).findSome? (e.textAt? bytes fold)).getD
        .notFound) := by
    rw [search, searchWith_result m .empty w defaultClock hin, if_pos (Nat.zero_le _), hclock]
    exact h.forward_eq hwell hspells rfl rfl n rfl
  constructor
  · rintro i k ⟨hb, hk⟩ hleast
    have hfirst : (e.subject.between 0 e.subject.size).findSome? (e.textAt? bytes fold) =
        some (foundAt i k) := by
      refine findSome?_least (e.subject.between_sorted _ _)
        (Subject.mem_between.mpr ⟨⟨Nat.zero_le i, Subject.le_of_isBoundary hb⟩, hb⟩)
        (by rw [Setting.textAt?, hk]; rfl) fun j hj hsome => ?_
      rw [Setting.textAt?, Option.isSome_map] at hsome
      obtain ⟨l, hl⟩ := Option.isSome_iff_exists.mp hsome
      exact hleast j l ⟨(Subject.mem_between.mp hj).2, hl⟩
    rw [hresult, hfirst]
    rfl
  · intro hnone
    have hnowhere : (e.subject.between 0 e.subject.size).findSome? (e.textAt? bytes fold) =
        none := by
      refine List.findSome?_eq_none_iff.mpr fun i hi => ?_
      rw [Setting.textAt?, Option.map_eq_none_iff, Option.eq_none_iff_forall_ne_some]
      exact fun k hk => hnone i k ⟨(Subject.mem_between.mp hi).2, hk⟩
    rw [hresult, hnowhere]
    rfl

end Matcher

/-! ## Where texts stand -/

namespace Machine

variable {e : Setting} {bytes : Bytes} {i n : Nat}

theorem literalLength?_plain_iff :
    e.reading.literalLength? bytes false i = some n ↔
      n = bytes.size ∧ e.subject.bytes.Has i bytes.toList := by
  cases hne : bytes.isEmpty with
  | true =>
    rw [Reading.literalLength?, if_pos hne]
    obtain rfl : bytes = #[] := Array.isEmpty_iff.mp hne
    exact ⟨fun h => ⟨(Option.some.inj h).symm, Bytes.has_nil _ _⟩, fun h => by rw [h.1]; rfl⟩
  | false =>
    simp only [Reading.literalLength?, hne, Bool.false_eq_true, ↓reduceIte]
    exact Subject.textLength?_iff

theorem literalLength?_folded_iff (hwell : e.subject.WellFormed)
    (hb : e.subject.isBoundary i = true) :
    e.reading.literalLength? bytes true i = some n ↔ e.subject.FoldsAlike bytes i n := by
  rw [← hwell.foldedLength?_iff hb]
  cases hne : bytes.isEmpty with
  | true =>
    rw [Reading.literalLength?, if_pos hne]
    obtain rfl : bytes = #[] := Array.isEmpty_iff.mp hne
    have hnil : (e.subject.encoding.foldBytes #[]).toList = [] :=
      (Encoding.foldBytes_foldsTo _ #[]).unique (.nil 0)
    have hhere : e.subject.encoding.FoldsTo e.subject.bytes i i
        ((e.subject.encoding.foldBytes #[]).toList.drop 0) := by
      rw [hnil]
      exact .nil i
    rw [Subject.foldedLength?, Subject.foldedEnd?_of_foldsTo (Nat.zero_le _) hhere,
      Option.map_some, Nat.sub_self]
  | false =>
    simp only [Reading.literalLength?, hne, Bool.false_eq_true, ↓reduceIte]
    rfl

/-- Searches for a text find it at the first of all places where it stands. -/
theorem Seeks.findsFirst_plain {m : Matcher} {w : Watch}
    (h : Seeks (m.setting 0 .empty w) bytes false)
    (hwell : (m.setting 0 .empty w).subject.WellFormed)
    (hspells : Encoding.utf8.Spells bytes.toList) :
    (m.search w).FindsFirst fun i n => n = bytes.size ∧ m.subject.Has i bytes.toList := by
  refine (Matcher.search_seeks h hwell hspells).of_least
    (fun i n hi => literalLength?_plain_iff.mp hi.2) fun i n hi hfirst => ?_
  refine ⟨?_, literalLength?_plain_iff.mpr hi⟩
  by_cases hne : bytes.toList = []
  · obtain rfl : i = 0 := Nat.le_zero.mp (hfirst 0 n ⟨hi.1, hne ▸ Bytes.has_nil _ _⟩)
    exact hwell.isBoundary_zero
  · exact Subject.isBoundary_of_has hspells hne hi.2

/-- Searches for a text whatever its case find the first characters that fold alike. -/
theorem Seeks.findsFirst_folded {m : Matcher} {w : Watch}
    (h : Seeks (m.setting 0 .empty w) bytes true)
    (hwell : (m.setting 0 .empty w).subject.WellFormed)
    (hspells : Encoding.utf8.Spells bytes.toList) :
    (m.search w).FindsFirst ((m.setting 0 .empty w).subject.FoldsAlike bytes) :=
  (Matcher.search_seeks h hwell hspells).of_least
    (fun _ _ hi => (literalLength?_folded_iff hwell hi.1).mp hi.2)
    fun _ _ hi _ => ⟨hi.begins, (literalLength?_folded_iff hwell hi.begins).mpr hi⟩

end Machine

/-! ## Escaped texts -/

open Machine

/-- The pattern of an escaped text. -/
def Pattern.Setting.escaped (p : String) (limits : CompileLimits) : Pattern.Setting :=
  ⟨.ofString (Pattern.escape p), .native, .utf8, limits⟩

theorem Compilation.ofPattern_escape (p : String) (limits : CompileLimits) (options : Options)
    {o : Options} (ho : Dialect.native.effectiveOptions options = .ok o)
    (hextended : o.has .extended = false) (hhistory : o.has .captureHistory = false)
    (properties : PropertyRegistry) :
    ∃ program, (ofPattern (.escaped p limits) options properties).result = .ok program ∧
      program.IsLiteral (.ofString p) (o.has .ignoreCase) ∧ program.encoding = .utf8 ∧
      program.tables.options = o := by
  obtain ⟨span, hparse⟩ := Pattern.parse_escape p limits hextended properties
  obtain ⟨program, htree, hliteral, hencoding, hoptions⟩ :=
    ofTree_textAtom (.escaped p limits) hhistory span .empty false
  refine ⟨program, ?_, hliteral, hencoding, hoptions⟩
  unfold ofPattern
  rw [show (Pattern.Setting.escaped p limits).dialect.effectiveOptions options = .ok o from ho]
  dsimp only
  rw [show Pattern.parse (.escaped p limits) o properties = _ from hparse]
  exact htree

/-- Where the pattern asks for nothing else, a search looks for the first match. -/
theorem Matcher.setting_seeks {m : Matcher} {bytes : Bytes} {fold : Bool}
    (h : m.program.IsLiteral bytes fold)
    (hdefaults : m.program.tables.options.searchDefaults = .empty) {w : Watch}
    (hsignal : ∀ n, w.signal n = false) :
    Seeks (m.setting 0 .empty w) bytes fold ∧
      (m.setting 0 .empty w).subject = .ofBytes m.subject m.program.encoding .empty := by
  have hoptions : m.program.tables.options.searchDefaults.union .empty = .empty := by
    rw [hdefaults]
    rfl
  refine ⟨⟨h, rfl, ?_, ?_, hsignal⟩, ?_⟩
  · exact congrArg (FlagSet.has · SearchFlag.findNotEmpty) hoptions
  · exact congrArg (FlagSet.has · SearchFlag.findLongest) hoptions
  · exact congrArg (Subject.ofBytes m.subject m.program.encoding) hoptions

/-- An escaped text is a pattern that finds the text. A search finds it where it stands first, and
nothing if it stands nowhere; whatever the case, it finds the first characters that fold alike. -/
theorem Matcher.search_escape (p : String) (limits : CompileLimits)
    (properties : PropertyRegistry) :
    (∃ program, (Compilation.ofPattern (.escaped p limits) .empty properties).result = .ok program ∧
      ∀ (m : Matcher) (w : Watch), m.program = program → Encoding.utf8.Spells m.subject.toList →
        (∀ n, w.signal n = false) → (m.search w).FindsFirst fun i n =>
          n = (Bytes.ofString p).size ∧ m.subject.Has i (Bytes.ofString p).toList) ∧
    ∃ program, (Compilation.ofPattern (.escaped p limits) (FlagSet.ofList [.ignoreCase])
        properties).result = .ok program ∧
      ∀ (m : Matcher) (w : Watch), m.program = program → Encoding.utf8.Spells m.subject.toList →
        (∀ n, w.signal n = false) → (m.search w).FindsFirst
          ((Subject.ofBytes m.subject .utf8 .empty).FoldsAlike (Bytes.ofString p)) := by
  constructor
  · obtain ⟨program, hresult, hliteral, hencoding, hoptions⟩ :=
      Compilation.ofPattern_escape p limits .empty rfl rfl rfl properties
    refine ⟨program, hresult, fun m w hm hwell hsignal => ?_⟩
    subst hm
    obtain ⟨hseeks, hsubject⟩ := setting_seeks hliteral (by rw [hoptions]; rfl) hsignal
    rw [hencoding] at hsubject
    exact hseeks.findsFirst_plain (hsubject ▸ hwell) (spells_ofString p)
  · obtain ⟨program, hresult, hliteral, hencoding, hoptions⟩ :=
      Compilation.ofPattern_escape p limits (FlagSet.ofList [.ignoreCase]) rfl rfl rfl properties
    refine ⟨program, hresult, fun m w hm hwell hsignal => ?_⟩
    subst hm
    obtain ⟨hseeks, hsubject⟩ := setting_seeks hliteral (by rw [hoptions]; rfl) hsignal
    rw [hencoding] at hsubject
    rw [← hsubject]
    exact hseeks.findsFirst_folded (hsubject ▸ hwell) (spells_ofString p)

/-- The text `SS.ß.`. -/
def capitals : Bytes := #[83, 83, 46, 195, 159, 46]

theorem foldsAlike_capitals :
    (Subject.ofBytes capitals .utf8 .empty).FoldsAlike (Bytes.ofString "ß.") 0 3 := by
  refine ⟨by decide +kernel, by decide +kernel, ?_⟩
  have hsharp : Encoding.utf8.foldBytes #[195, 159, 46] = #[115, 115, 46] := by
    have h0 : Encoding.utf8.foldChar #[195, 159, 46] 0 = ([115, 115], 2) := by decide +kernel
    have h2 : Encoding.utf8.foldChar #[195, 159, 46] 2 = ([46], 1) := by decide +kernel
    simp [Encoding.foldBytes, Encoding.foldFrom, h0, h2]
  have hcapitals : Encoding.utf8.foldBytes #[83, 83, 46] = #[115, 115, 46] := by
    have h0 : Encoding.utf8.foldChar #[83, 83, 46] 0 = ([115], 1) := by decide +kernel
    have h1 : Encoding.utf8.foldChar #[83, 83, 46] 1 = ([115], 1) := by decide +kernel
    have h2 : Encoding.utf8.foldChar #[83, 83, 46] 2 = ([46], 1) := by decide +kernel
    simp [Encoding.foldBytes, Encoding.foldFrom, h0, h1, h2]
  have hbytes : Bytes.ofString "ß." = #[195, 159, 46] := by decide +kernel
  rw [hbytes]
  exact hcapitals.trans hsharp.symm

/-- The text `ß.` stands at its end, and in capital letters at its beginning. -/
theorem search_escape_capitals :
    ∃ program program',
      (Compilation.ofPattern (.escaped "ß." .standard) .empty .empty).result = .ok program ∧
      (Compilation.ofPattern (.escaped "ß." .standard) (FlagSet.ofList [.ignoreCase])
        .empty).result = .ok program' ∧
      ((Matcher.new program capitals ⟨0, 0, 1024, 0, 16384⟩).search .none).result =
        .ok (.found ⟨#[some ⟨3, 6⟩], none⟩) ∧
      ((Matcher.new program' capitals ⟨0, 0, 1024, 0, 16384⟩).search .none).result =
        .ok (.found ⟨#[some ⟨0, 3⟩], none⟩) := by
  obtain ⟨⟨program, hresult, hplain⟩, program', hresult', hfolded⟩ :=
    Matcher.search_escape "ß." .standard .empty
  let m := Matcher.new program capitals ⟨0, 0, 1024, 0, 16384⟩
  let m' := Matcher.new program' capitals ⟨0, 0, 1024, 0, 16384⟩
  have hwell : Encoding.utf8.Spells capitals.toList := by
    have hbytes : capitals = Bytes.ofString "SS.ß." := by decide +kernel
    rw [hbytes]
    exact spells_ofString _
  have hhas : ∀ j < 4, capitals.Has j (Bytes.ofString "ß.").toList ↔ j = 3 := by
    unfold Bytes.Has
    decide +kernel
  refine ⟨program, program', hresult, hresult', ?_, ?_⟩
  · refine (hplain m .none rfl hwell fun _ => rfl).found 3 3
      ⟨by decide +kernel, (hhas 3 (by decide)).mpr rfl⟩ fun j k hj => ?_
    exact Nat.not_lt.mp fun hlt => absurd ((hhas j (by omega)).mp hj.2) (by omega)
  · exact (hfolded m' .none rfl hwell fun _ => rfl).found 0 3 foldsAlike_capitals
      fun j k _ => Nat.zero_le j

end RegexMachine
