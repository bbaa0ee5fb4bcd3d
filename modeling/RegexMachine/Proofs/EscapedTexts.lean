import RegexMachine.Pattern.Tree
import RegexMachine.Proofs.LiteralSpans

/-!
Escaped texts. With a backslash before each character that has a meaning of its own, a text is read
as a single literal, and as nothing else.
-/
namespace RegexMachine
open Encoding

/-! ## Strings as bytes -/

theorem toNat_bounds (x : Char) : x.toNat ≤ 0x10FFFF ∧ ¬ (0xD800 ≤ x.toNat ∧ x.toNat ≤ 0xDFFF) := by
  have hvalid : x.toNat < 0xD800 ∨ 0xDFFF < x.toNat ∧ x.toNat < 0x110000 := x.valid
  omega

theorem encode_char (x : Char) : utf8.encode x.toNat = .ok (utf8Bytes x.toNat) :=
  if_pos (toNat_bounds x)

theorem utf8EncodeChar_eq (x : Char) : String.utf8EncodeChar x = utf8Bytes x.toNat := by
  have hle := (toNat_bounds x).1
  unfold String.utf8EncodeChar utf8Bytes
  dsimp only
  change (if x.toNat ≤ 127 then [UInt8.ofNat x.toNat] else _) = _
  generalize hn : x.toNat = n at hle
  have hval : x.val.toNat = n := hn
  rw [hval]
  by_cases h1 : n < 0x80
  · rw [if_pos (by omega), if_pos h1]
  rw [if_neg (by omega), if_neg h1]
  by_cases h2 : n < 0x800
  · have h : n / 64 % 32 = n / 64 := Nat.mod_eq_of_lt (by omega)
    rw [if_pos (by omega), if_pos h2, h]
    simp [Nat.add_comm]
  rw [if_neg (by omega), if_neg h2]
  by_cases h3 : n < 0x10000
  · have h : n / 4096 % 16 = n / 4096 := Nat.mod_eq_of_lt (by omega)
    rw [if_pos (by omega), if_pos h3, h]
    simp [Nat.add_comm]
  · have h : n / 262144 % 8 = n / 262144 := Nat.mod_eq_of_lt (by omega)
    rw [if_neg (by omega), if_neg h3, h]
    simp [Nat.add_comm]

theorem bytes_ofList (l : List Char) :
    (Bytes.ofString (String.ofList l)).toList = l.flatMap fun x => utf8Bytes x.toNat := by
  have hchars : String.utf8EncodeChar = fun x => utf8Bytes x.toNat := funext utf8EncodeChar_eq
  rw [Bytes.ofString, String.toUTF8, String.toByteArray_ofList, List.utf8Encode,
    List.data_toByteArray, hchars]

/-- The bytes of a string are those of its characters. -/
theorem bytes_ofString (p : String) :
    (Bytes.ofString p).toList = p.toList.flatMap fun x => utf8Bytes x.toNat := by
  rw [← bytes_ofList, String.ofList_toList]

/-- A string is made up of whole characters. -/
theorem spells_ofString (p : String) : utf8.Spells (Bytes.ofString p).toList := by
  rw [bytes_ofString]
  induction p.toList with
  | nil => exact .nil
  | cons x l ih =>
    rw [List.flatMap_cons]
    exact .cons (encode_char x) ih

namespace Pattern

variable {α β : Type} {s : Reading} {c c' : Cursor} {l : List Char} {x : Char}

/-! ## Actions on the cursor -/

theorem bind_run {x : Parse α} {f : α → Parse β} {a : α} (h : x s c = .ok a c') :
    (x >>= f) s c = f a s c' := by
  change EStateM.bind (x s) (fun a => f a s) c = _
  rw [EStateM.bind, h]

theorem read_run : (read : Parse Reading) s c = .ok s c := rfl

theorem get_run : (get : Parse Cursor) s c = .ok c c := rfl

theorem here_run : here s c = .ok c.pos c := rfl

theorem peekAt_run (k : Nat) : peekAt k s c = .ok ((s.pattern[c.pos + k]?).map byteChar) c := rfl

theorem peek_run : peek s c = .ok ((s.pattern[c.pos]?).map byteChar) c := rfl

theorem atEnd_run : atEnd s c = .ok (s.pattern.size ≤ c.pos) c := rfl

theorem skip_run (n : Nat) : skip n s c = .ok () { c with pos := c.pos + n } := rfl

theorem behaves_run (b : Behavior) : behaves b s c = .ok (s.dialect.behaves b) c := rfl

theorem hasOption_run (f : CompileFlag) : hasOption f s c = .ok (c.options.has f) c := rfl

theorem literalNode_run (bytes : Bytes) (start : Nat) :
    literalNode bytes start s c =
      .ok (.atom ⟨start, c.pos⟩ (.literal bytes (c.options.has .ignoreCase))) c := rfl

theorem bytesBetween_run {start stop : Nat} (hstart : start ≤ stop) (hstop : stop ≤ s.pattern.size) :
    bytesBetween start stop s c = .ok (s.pattern.slice start stop) c := by
  have hin : (decide (start ≤ stop) && decide (stop ≤ s.pattern.size)) = true := by
    simp [hstart, hstop]
  rw [bytesBetween, bind_run read_run, if_pos hin]
  rfl

/-- The character at the cursor is taken as it was written. -/
theorem nextCode_run {code : Nat} {y : List UInt8} (h : s.encoding.encode code = .ok y)
    (hy : s.pattern.Has c.pos y) :
    nextCode s c = .ok (code, y.toArray) { c with pos := c.pos + y.length } := by
  obtain ⟨head, tail, rfl, -⟩ := spelling_encode h
  have hle := hy.le (List.cons_ne_nil head tail)
  have hend : decide (s.pattern.size ≤ c.pos) = false := by
    simp only [List.length_cons] at hle
    simp
    omega
  have hpeek : peekCode s c = .ok (some (code, (head :: tail).length)) c := by
    rw [peekCode, bind_run atEnd_run, hend, ← decodeAt_encode h hy]
    rfl
  have hslice : s.pattern.slice c.pos (c.pos + (head :: tail).length) = (head :: tail).toArray :=
    Array.toList_inj.mp hy
  rw [nextCode, bind_run hpeek]
  dsimp only
  rw [bind_run here_run, bind_run (skip_run _),
    bind_run (bytesBetween_run (Nat.le_add_right _ _) hle), hslice]
  rfl

/-- Characters that mean themselves only after a backslash. -/
def specials : List Char :=
  ['\\', '.', '*', '+', '?', '(', ')', '[', ']', '{', '}', '|', '^', '$']

/-- A character as it is written to mean itself. -/
def escapeChar (x : Char) : List Char := if x ∈ specials then ['\\', x] else [x]

/-- A text with a backslash before each character that needs one. -/
def escape (p : String) : String := String.ofList (p.toList.flatMap escapeChar)

/-! ## Special characters -/

/-- What holds of all special characters holds of each. -/
theorem forall_specials {P : Char → Prop} :
    (∀ x ∈ specials, P x) ↔ P '\\' ∧ P '.' ∧ P '*' ∧ P '+' ∧ P '?' ∧ P '(' ∧ P ')' ∧ P '[' ∧ P ']' ∧
      P '{' ∧ P '}' ∧ P '|' ∧ P '^' ∧ P '$' := by
  simp [specials]

theorem specials_ascii (hx : x ∈ specials) : x.toNat < 0x80 := by
  revert x
  simp only [forall_specials]
  decide

theorem special_ne (hx : x ∈ specials) {y : Char} (hy : y ∉ specials) : (x == y) = false := by
  rw [beq_eq_false_iff_ne]
  rintro rfl
  exact hy hx

theorem plain_ne (hx : x ∉ specials) {y : Char} (hy : y ∈ specials) : x ≠ y := by
  rintro rfl
  exact hx hy

theorem ofChar?_plain (hx : x ∉ specials) : Sign.ofChar? x = none := by
  unfold Sign.ofChar?
  split <;> first | rfl | exact absurd (by decide) hx

theorem typeEscape?_special (d : Dialect) (o : Options) (hx : x ∈ specials) :
    typeEscape? d o x = none := by
  revert x
  simp only [forall_specials]
  and_intros <;> rfl

theorem anchorEscape?_special (d : Dialect) (ascii : Bool) (hx : x ∈ specials) :
    anchorEscape? d ascii x = none := by
  revert x
  simp only [forall_specials]
  and_intros <;> rfl

theorem controlCode?_special (d : Dialect) (hx : x ∈ specials) :
    controlCode? d false x = none := by
  revert x
  simp only [forall_specials]
  and_intros <;> cases h : d.allows .controlEscapes <;> simp [controlCode?, h]

theorem escapedOperator_native (o : Sign) : Dialect.native.allows o.escapedOperator = false := by
  cases o <;> rfl

theorem toNat_byteChar (b : UInt8) : (byteChar b).toNat = b.toNat := by
  have hall : ∀ n < 256, (Char.ofNat n).toNat = n := by decide +kernel
  exact hall _ b.toNat_lt

theorem byteChar_ofNat (h : x.toNat < 0x80) : byteChar (UInt8.ofNat x.toNat) = x := by
  rw [byteChar, toNat_ofNat (by omega)]
  exact Char.ofNat_toNat x

theorem utf8Bytes_ascii {n : Nat} (h : n < 0x80) : utf8Bytes n = [UInt8.ofNat n] := if_pos h

/-- A character that is not special does not begin with a byte that is. -/
theorem byteChar_head (hx : x ∉ specials) {y : UInt8} {tail : List UInt8}
    (h : utf8Bytes x.toNat = y :: tail) : byteChar y ∉ specials := by
  by_cases hlow : x.toNat < 0x80
  · rw [utf8Bytes_ascii hlow] at h
    obtain rfl := (List.cons.inj h).1
    rwa [byteChar_ofNat hlow]
  · have hencode := encode_char x
    obtain ⟨y', tail', hy, hspell⟩ := spelling_encode hencode
    obtain ⟨rfl, rfl⟩ := List.cons.inj (h.symm.trans hy)
    have hhigh := head_ge (by omega) (h ▸ hencode) hspell
    rw [UInt8.lt_iff_toNat_lt] at hhigh
    intro hmem
    have hascii := specials_ascii hmem
    have hcode : (byteChar y).toNat = y.toNat := toNat_byteChar y
    exact hhigh (by rwa [hcode] at hascii)

/-- Bytes of a character as it is written to mean itself. -/
def escapedBytes (x : Char) : List UInt8 := (escapeChar x).flatMap fun y => utf8Bytes y.toNat

theorem escapedBytes_plain (hx : x ∉ specials) : escapedBytes x = utf8Bytes x.toNat := by
  rw [escapedBytes, escapeChar, if_neg hx, List.flatMap_singleton]

theorem escapedBytes_special (hx : x ∈ specials) : escapedBytes x = 92 :: utf8Bytes x.toNat := by
  rw [escapedBytes, escapeChar, if_pos hx]
  simp [utf8Bytes_ascii]

theorem escapedBytes_ne_nil (x : Char) : escapedBytes x ≠ [] := by
  obtain ⟨y, tail, hy, -⟩ := spelling_encode (encode_char x)
  by_cases hx : x ∈ specials
  · rw [escapedBytes_special hx]
    exact List.cons_ne_nil _ _
  · rw [escapedBytes_plain hx, hy]
    exact List.cons_ne_nil _ _

theorem bytes_escape (p : String) :
    (Bytes.ofString (escape p)).toList = p.toList.flatMap escapedBytes := by
  rw [escape, bytes_ofList, List.flatMap_assoc]
  rfl

/-! ## Reading escaped texts -/

/-- The rest of a pattern from the cursor on is an escaped text. -/
structure Ahead (s : Reading) (c : Cursor) (l : List Char) : Prop where
  dialect : s.dialect = .native
  encoding : s.encoding = .utf8
  extended : c.options.has .extended = false
  rest : s.pattern.Has c.pos (l.flatMap escapedBytes)
  stop : c.pos + (l.flatMap escapedBytes).length = s.pattern.size

theorem peekSign_plain {y : Char} (hbyte : (s.pattern[c.pos]?).map byteChar = some y)
    (hy : y ≠ '\\') :
    peekSign s c = .ok ((Sign.ofChar? y).bind fun o =>
      if s.dialect.allows o.plainOperator then some (o, 1) else none) c := by
  rw [peekSign, bind_run read_run, bind_run peek_run, hbyte]
  simp only
  rfl

theorem peekSign_backslash (hbyte : (s.pattern[c.pos]?).map byteChar = some '\\') :
    peekSign s c = .ok ((((s.pattern[c.pos + 1]?).map byteChar).bind Sign.ofChar?).bind fun o =>
      if s.dialect.allows o.escapedOperator then some (o, 2) else none) c := by
  rw [peekSign, bind_run read_run, bind_run peek_run, hbyte]
  rfl

theorem octal_special (hx : x ∈ specials) : (decide ('0' ≤ x) && decide (x ≤ '7')) = false := by
  revert x
  simp only [forall_specials]
  and_intros <;> rfl

theorem digit_special (hx : x ∈ specials) : (decide ('1' ≤ x) && decide (x ≤ '9')) = false := by
  revert x
  simp only [forall_specials]
  and_intros <;> rfl

namespace Ahead

theorem first (h : Ahead s c (x :: l)) : s.pattern.Has c.pos (escapedBytes x) := by
  have hrest := h.rest
  rw [List.flatMap_cons] at hrest
  exact (Bytes.has_append.mp hrest).1

theorem next (h : Ahead s c (x :: l)) :
    Ahead s { c with pos := c.pos + (escapedBytes x).length } l where
  dialect := h.dialect
  encoding := h.encoding
  extended := h.extended
  rest := by
    have hrest := h.rest
    rw [List.flatMap_cons] at hrest
    exact (Bytes.has_append.mp hrest).2
  stop := by
    have hstop := h.stop
    rw [List.flatMap_cons, List.length_append] at hstop
    dsimp only
    omega

theorem skipExtended_run (h : Ahead s c l) : skipExtended s c = .ok () c := by
  rw [skipExtended, bind_run (hasOption_run .extended), h.extended]
  rfl

theorem special_bytes (h : Ahead s c (x :: l)) (hx : x ∈ specials) :
    (s.pattern[c.pos]?).map byteChar = some '\\' ∧
      (s.pattern[c.pos + 1]?).map byteChar = some x ∧
      s.pattern.Has (c.pos + 1) (utf8Bytes x.toNat) := by
  have hfirst := h.first
  have hascii := specials_ascii hx
  rw [escapedBytes_special hx] at hfirst
  have hrest : s.pattern.Has (c.pos + 1) (utf8Bytes x.toNat) :=
    (Bytes.has_append (x := [92]) (y := utf8Bytes x.toNat)).mp hfirst |>.2
  have hbyte : s.pattern[c.pos]? = some 92 := hfirst.get? (k := 0) (by simp)
  have hnext : s.pattern[c.pos + 1]? = some (UInt8.ofNat x.toNat) := by
    rw [utf8Bytes_ascii hascii] at hrest
    exact hrest.get? (k := 0) (by simp)
  refine ⟨?_, ?_, hrest⟩
  · rw [hbyte]
    rfl
  · rw [hnext, Option.map_some, byteChar_ofNat hascii]

theorem plain_head (h : Ahead s c (x :: l)) (hx : x ∉ specials) :
    ∃ y, (s.pattern[c.pos]?).map byteChar = some y ∧ y ∉ specials := by
  have hfirst := h.first
  rw [escapedBytes_plain hx] at hfirst
  obtain ⟨y, tail, hy, -⟩ := spelling_encode (encode_char x)
  rw [hy] at hfirst
  have hbyte : s.pattern[c.pos]? = some y := hfirst.get? (k := 0) (by simp)
  exact ⟨byteChar y, by rw [hbyte]; rfl, byteChar_head hx hy⟩

/-- No operator begins before the end. -/
theorem peekSign_run (h : Ahead s c l) : peekSign s c = .ok none c := by
  cases l with
  | nil =>
    have hend : s.pattern[c.pos]? = none := by
      rw [Array.getElem?_eq_none_iff]
      simpa using Nat.le_of_eq h.stop.symm
    rw [peekSign, bind_run read_run, bind_run peek_run, hend]
    rfl
  | cons x l =>
    by_cases hx : x ∈ specials
    · obtain ⟨hbyte, hnext, -⟩ := h.special_bytes hx
      rw [peekSign_backslash hbyte, hnext, h.dialect]
      simp [escapedOperator_native]
    · obtain ⟨y, hbyte, hy⟩ := h.plain_head hx
      rw [peekSign_plain hbyte (plain_ne hy (by decide)), ofChar?_plain hy]
      rfl

/-- After a backslash a special character means itself. -/
theorem readCharEscape_run (start : Nat) (he : s.encoding = .utf8) (hx : x ∈ specials)
    (hbyte : (s.pattern[c.pos]?).map byteChar = some x)
    (hhas : s.pattern.Has c.pos (utf8Bytes x.toNat)) :
    readCharEscape start s c =
      .ok (.atom ⟨start, c.pos + (utf8Bytes x.toNat).length⟩
        (.literal (utf8Bytes x.toNat).toArray (c.options.has .ignoreCase)))
        { c with pos := c.pos + (utf8Bytes x.toNat).length } := by
  have hencode : s.encoding.encode x.toNat = .ok (utf8Bytes x.toNat) := he ▸ encode_char x
  have hescaped : readEscaped false start s c =
      .ok (.code x.toNat) { c with pos := c.pos + (utf8Bytes x.toNat).length } := by
    rw [readEscaped, bind_run read_run, bind_run peek_run, hbyte]
    dsimp only
    rw [controlCode?_special _ hx]
    dsimp only
    rw [bind_run (peekAt_run 1)]
    simp only [special_ne hx (y := 'x') (by decide), special_ne hx (y := 'u') (by decide),
      special_ne hx (y := 'o') (by decide), special_ne hx (y := 'c') (by decide),
      octal_special hx, Bool.false_and, Bool.false_eq_true, ↓reduceIte]
    rw [bind_run (nextCode_run hencode hhas)]
    rfl
  rw [readCharEscape, bind_run hescaped]
  dsimp only
  rw [bind_run read_run, hencode]
  dsimp only
  rw [literalNode_run]

theorem readEscape_run (h : Ahead s c (x :: l)) (hx : x ∈ specials) :
    readEscape s c =
      .ok (.atom ⟨c.pos, c.pos + (escapedBytes x).length⟩
        (.literal (utf8Bytes x.toNat).toArray (c.options.has .ignoreCase)))
        { c with pos := c.pos + (escapedBytes x).length } := by
  obtain ⟨-, hnext, hhas⟩ := h.special_bytes hx
  have hlength : c.pos + (escapedBytes x).length = c.pos + 1 + (utf8Bytes x.toNat).length := by
    rw [escapedBytes_special hx, List.length_cons]
    omega
  rw [readEscape, bind_run here_run, bind_run read_run, bind_run get_run, bind_run (skip_run 1),
    bind_run peek_run]
  dsimp only
  rw [hnext]
  dsimp only
  rw [bind_run (peekAt_run 1), typeEscape?_special _ _ hx]
  dsimp only
  have hproperty (c' : Cursor) (hc : (s.pattern[c'.pos]?).map byteChar = some x) :
      seesProperty s c' = .ok false c' := by
    rw [seesProperty, bind_run peek_run, hc, bind_run (peekAt_run 1), bind_run read_run]
    have hp : (some x == some 'p') = false := special_ne hx (y := 'p') (by decide)
    have hP : (some x == some 'P') = false := special_ne hx (y := 'P') (by decide)
    rw [hp, hP]
    rfl
  rw [bind_run (hproperty _ hnext), anchorEscape?_special _ _ hx]
  simp only [special_ne hx (y := 'K') (by decide), special_ne hx (y := 'R') (by decide),
    special_ne hx (y := 'N') (by decide), special_ne hx (y := 'X') (by decide),
    special_ne hx (y := 'Q') (by decide), special_ne hx (y := 'k') (by decide),
    special_ne hx (y := 'g') (by decide), digit_special hx, Bool.false_and, Bool.false_eq_true,
    ↓reduceIte]
  rw [hlength]
  have hchar := readCharEscape_run c.pos h.encoding hx (c := { c with pos := c.pos + 1}) hnext hhas
  cases nameClose? ((s.pattern[c.pos + 1 + 1]?).map byteChar) <;> exact hchar

/-- The next character is read as a literal. -/
theorem readAtom_run (h : Ahead s c (x :: l)) :
    readAtom none s c =
      .ok (.atom ⟨c.pos, c.pos + (escapedBytes x).length⟩
        (.literal (utf8Bytes x.toNat).toArray (c.options.has .ignoreCase)))
        { c with pos := c.pos + (escapedBytes x).length } := by
  rw [readAtom, bind_run here_run, bind_run (behaves_run _)]
  dsimp only
  rw [readPlainAtom, bind_run read_run, bind_run get_run, bind_run peek_run]
  by_cases hx : x ∈ specials
  · obtain ⟨hbyte, -, -⟩ := h.special_bytes hx
    rw [hbyte]
    exact h.readEscape_run hx
  · obtain ⟨y, hbyte, hy⟩ := h.plain_head hx
    have hne {z : Char} (hz : z ∈ specials) : (some y == some z) = false :=
      beq_eq_false_iff_ne.mpr fun heq => plain_ne hy hz (Option.some.inj heq)
    have hfirst := h.first
    rw [escapedBytes_plain hx] at hfirst ⊢
    have hencode : s.encoding.encode x.toNat = .ok (utf8Bytes x.toNat) := h.encoding ▸ encode_char x
    rw [hbyte]
    simp only [hne (z := '[') (by decide), hne (z := '.') (by decide), hne (z := '^') (by decide),
      hne (z := '$') (by decide), hne (z := '\\') (by decide), Bool.false_and, Bool.false_eq_true,
      ↓reduceIte]
    rw [bind_run (nextCode_run hencode hfirst), literalNode_run]

/-- Nothing is repeated. -/
theorem readRepeats_run (h : Ahead s c l) (n : Node Span) (start : Nat) (again : Bool)
    (fuel : Nat) : readRepeats n start again (fuel + 1) s c = .ok n c := by
  have hsign : readRepeatSign s c = .ok none c := by
    rw [readRepeatSign, bind_run h.peekSign_run]
    rfl
  rw [readRepeats, bind_run h.skipExtended_run, bind_run here_run, bind_run hsign]
  rfl

theorem readPiece_run (h : Ahead s c (x :: l)) (fuel : Nat) :
    readPiece none (fuel + 1) s c =
      .ok (.node (.atom ⟨c.pos, c.pos + (escapedBytes x).length⟩
        (.literal (utf8Bytes x.toNat).toArray (c.options.has .ignoreCase))))
        { c with pos := c.pos + (escapedBytes x).length } := by
  rw [readPiece, bind_run h.readAtom_run]
  · rfl
  · nofun

/-- A sequence goes on with the next character. -/
theorem readSequence_step (h : Ahead s c (x :: l)) (start : Nat) (done : List (Node Span))
    (fuel : Nat) :
    readSequence start done (fuel + 2) s c =
      readSequence start
        (.atom ⟨c.pos, c.pos + (escapedBytes x).length⟩
          (.literal (utf8Bytes x.toNat).toArray (c.options.has .ignoreCase)) :: done)
        (fuel + 1) s { c with pos := c.pos + (escapedBytes x).length } := by
  have hmore : endsSequence none s c = .ok false c := by
    have hlt : ¬ s.pattern.size ≤ c.pos := by
      have := h.first.le (escapedBytes_ne_nil x)
      have := List.length_pos_of_ne_nil (escapedBytes_ne_nil x)
      omega
    rw [endsSequence, atEnd_run, decide_eq_false hlt]
    · nofun
    · nofun
  rw [readSequence, bind_run h.skipExtended_run, bind_run h.peekSign_run, bind_run here_run,
    bind_run hmore]
  simp only [Bool.false_eq_true, ↓reduceIte]
  rw [bind_run (h.readPiece_run fuel)]
  dsimp only
  rw [bind_run read_run, bind_run (h.next.readRepeats_run _ _ _ _)]

theorem readSequence_end (h : Ahead s c []) (start : Nat) (done : List (Node Span)) (fuel : Nat) :
    readSequence start done (fuel + 1) s c = .ok (sequenceNode start c.pos done) c := by
  have hend : endsSequence none s c = .ok true c := by
    have hle : s.pattern.size ≤ c.pos := Nat.le_of_eq h.stop.symm
    rw [endsSequence, atEnd_run, decide_eq_true hle]
    · nofun
    · nofun
  rw [readSequence, bind_run h.skipExtended_run, bind_run h.peekSign_run, bind_run here_run,
    bind_run hend]
  rfl

end Ahead

/-! ## One literal -/

/-- The nodes of an escaped text that begins at an offset. -/
def pieces (fold : Bool) (pos : Nat) : List Char → List (Node Span)
  | [] => []
  | x :: l =>
    .atom ⟨pos, pos + (escapedBytes x).length⟩ (.literal (utf8Bytes x.toNat).toArray fold) ::
      pieces fold (pos + (escapedBytes x).length) l

/-- A sequence is read to its end, character by character. -/
theorem Ahead.readSequence_run (h : Ahead s c l) (start : Nat) (done : List (Node Span))
    (fuel : Nat) :
    readSequence start done (l.length + 1 + fuel) s c =
      .ok (sequenceNode start s.pattern.size
        ((pieces (c.options.has .ignoreCase) c.pos l).reverse ++ done))
        { c with pos := s.pattern.size } := by
  induction l generalizing c done with
  | nil =>
    have hend : c.pos = s.pattern.size := h.stop
    rw [List.length_nil, Nat.zero_add, Nat.add_comm, h.readSequence_end, hend, ← hend]
    rfl
  | cons x l ih =>
    have hfuel : (x :: l).length + 1 + fuel = l.length + fuel + 2 := by
      rw [List.length_cons]
      omega
    have hrest : l.length + fuel + 1 = l.length + 1 + fuel := by omega
    rw [hfuel, h.readSequence_step, hrest, ih h.next]
    simp only [pieces, List.reverse_cons, List.append_assoc, List.singleton_append]

/-- The atom of a text. -/
def textAtom (bytes : Bytes) (fold : Bool) : Atom :=
  if bytes.isEmpty then .empty else .literal bytes fold

/-- Pieces after a literal become a part of it. -/
theorem foldl_pieces {fold : Bool} (start pos : Nat) (bytes : Bytes) (l : List Char) :
    (pieces fold pos l).foldl pushItem [.atom ⟨start, pos⟩ (.literal bytes fold)] =
      [.atom ⟨start, pos + (l.flatMap escapedBytes).length⟩
        (.literal (bytes ++ (l.flatMap fun x => utf8Bytes x.toNat).toArray) fold)] := by
  induction l generalizing pos bytes with
  | nil => simp [pieces]
  | cons x l ih =>
    have hpush : pushItem [.atom ⟨start, pos⟩ (.literal bytes fold)]
        (.atom ⟨pos, pos + (escapedBytes x).length⟩ (.literal (utf8Bytes x.toNat).toArray fold)) =
          [.atom ⟨start, pos + (escapedBytes x).length⟩
            (.literal (bytes ++ (utf8Bytes x.toNat).toArray) fold)] := by
      simp [pushItem]
    rw [pieces, List.foldl_cons, hpush, ih]
    simp [Nat.add_assoc]

/-- The pieces of a text become one literal. -/
theorem sequenceNode_pieces (fold : Bool) (stop : Nat) (l : List Char) :
    ∃ span, sequenceNode 0 stop (pieces fold 0 l).reverse =
      .atom span (textAtom (l.flatMap fun x => utf8Bytes x.toNat).toArray fold) := by
  rw [sequenceNode, List.foldr_reverse]
  cases l with
  | nil => exact ⟨_, rfl⟩
  | cons x l =>
    have hfirst : pushItem [] (.atom ⟨0, (escapedBytes x).length⟩
        (.literal (utf8Bytes x.toNat).toArray fold)) =
          [.atom ⟨0, (escapedBytes x).length⟩ (.literal (utf8Bytes x.toNat).toArray fold)] := rfl
    have hbytes : ((x :: l).flatMap fun x => utf8Bytes x.toNat).toArray =
        (utf8Bytes x.toNat).toArray ++ (l.flatMap fun x => utf8Bytes x.toNat).toArray := by
      simp
    have hfull : ((x :: l).flatMap fun x => utf8Bytes x.toNat).toArray.isEmpty = false := by
      obtain ⟨y, tail, hy, -⟩ := spelling_encode (encode_char x)
      simp [hy]
    rw [pieces, List.foldl_cons, Nat.zero_add, hfirst, foldl_pieces, textAtom, hfull, hbytes]
    exact ⟨_, rfl⟩

theorem length_le_escapedBytes (l : List Char) : l.length ≤ (l.flatMap escapedBytes).length := by
  induction l with
  | nil => exact Nat.le_refl _
  | cons x l ih =>
    have := List.length_pos_of_ne_nil (escapedBytes_ne_nil x)
    rw [List.flatMap_cons, List.length_append, List.length_cons]
    omega

theorem Ahead.readPattern_run (h : Ahead s c l) (hstart : c.pos = 0) :
    ∃ span, readPattern s c =
      .ok (.atom span
        (textAtom (l.flatMap fun x => utf8Bytes x.toNat).toArray (c.options.has .ignoreCase)))
        { c with pos := s.pattern.size } := by
  have hlength := length_le_escapedBytes l
  have hstop := h.stop
  obtain ⟨fuel, hfuel⟩ : ∃ fuel, 4 * s.pattern.size + 7 = l.length + 1 + fuel :=
    ⟨4 * s.pattern.size + 7 - (l.length + 1), by omega⟩
  obtain ⟨span, hnode⟩ := sequenceNode_pieces (c.options.has .ignoreCase) s.pattern.size l
  have hsequence := h.readSequence_run 0 [] fuel
  rw [List.append_nil, hstart, hnode, ← hfuel] at hsequence
  have hend : Ahead s { c with pos := s.pattern.size } [] :=
    ⟨h.dialect, h.encoding, h.extended, Bytes.has_nil _ _, Nat.add_zero _⟩
  have hbranches : readBranches 0 0 0 false [] (4 * s.pattern.size + 7 + 1) s c =
      .ok (.atom span (textAtom (l.flatMap fun x => utf8Bytes x.toNat).toArray
        (c.options.has .ignoreCase))) { c with pos := s.pattern.size } := by
    rw [readBranches]
    simp only [Bool.false_eq_true, ↓reduceIte]
    rw [bind_run (here_run), hstart, bind_run hsequence, bind_run get_run,
      bind_run hend.peekSign_run]
    rfl
  refine ⟨span, ?_⟩
  rw [readPattern, bind_run read_run, bind_run hbranches, bind_run atEnd_run,
    decide_eq_true (Nat.le_refl s.pattern.size)]
  rfl

/-- An escaped text is read as the text itself. -/
theorem parse_escape (p : String) (limits : CompileLimits) {options : Options}
    (hextended : options.has .extended = false) (properties : PropertyRegistry) :
    ∃ span, parse ⟨Bytes.ofString (escape p), .native, .utf8, limits⟩ options properties =
      (.ok ⟨.atom span (textAtom (Bytes.ofString p) (options.has .ignoreCase)), 0, .empty, false⟩,
        properties) := by
  let setting : Setting := ⟨Bytes.ofString (escape p), .native, .utf8, limits⟩
  let start := Cursor.start options properties
  have hbytes : setting.pattern.toList = p.toList.flatMap escapedBytes := bytes_escape p
  have hsize : (p.toList.flatMap escapedBytes).length = setting.pattern.size := by
    rw [← hbytes, Array.length_toList]
  have hahead : Ahead setting.reading start p.toList := by
    refine ⟨rfl, rfl, hextended, ?_, ?_⟩
    · have hhas := Bytes.has_toArray setting.pattern.toList
      rw [Array.toArray_toList, hbytes] at hhas
      exact hhas
    · rw [hsize]
      exact Nat.zero_add _
  have htext : (p.toList.flatMap fun x => utf8Bytes x.toNat).toArray = Bytes.ofString p := by
    rw [← bytes_ofString, Array.toArray_toList]
  obtain ⟨span, hread⟩ := hahead.readPattern_run rfl
  rw [htext] at hread
  refine ⟨span, ?_⟩
  unfold parse
  rw [hread]
  dsimp only
  unfold textAtom
  cases (Bytes.ofString p).isEmpty <;> rfl

end Pattern
end RegexMachine
