import RegexMachine.Anchor
import RegexMachine.Encoding.Folding
import RegexMachine.Options
import RegexMachine.Program.Instr
import RegexMachine.Span

/-!
The text a search runs over. All steps go by whole characters of its encoding, and a step back
always lands on the first byte of a character.
-/
namespace RegexMachine

structure Subject where
  bytes : Bytes
  encoding : Encoding
  /-- The start is no beginning of a line. -/
  notBol : Bool
  /-- The end is no end of a line. -/
  notEol : Bool
deriving DecidableEq, Repr

namespace Subject

def ofBytes (b : Bytes) (e : Encoding) (o : SearchOptions) : Subject :=
  ⟨b, e, o.has .notBol, o.has .notEol⟩

/-- The part of a subject before `stop`. -/
def upTo (s : Subject) (stop : Nat) : Subject := { s with bytes := s.bytes.slice 0 stop }

def size (s : Subject) : Nat := s.bytes.size

def atEnd (s : Subject) (i : Nat) : Bool := s.size ≤ i

@[simp] theorem atEnd_iff {s : Subject} {i : Nat} : s.atEnd i = true ↔ s.size ≤ i := by
  simp [atEnd]

theorem charLenAt_pos {s : Subject} {i : Nat} (h : ¬ s.size ≤ i) :
    0 < s.encoding.charLenAt s.bytes i :=
  s.encoding.charLenAt_pos (Nat.lt_of_not_le h)

/-- Code and length of the character at `i`. -/
def decode? (s : Subject) (i : Nat) : Option (Nat × Nat) :=
  if s.atEnd i then none else some (s.encoding.decodeAt s.bytes i)

/-- Offset of the character before `i`. -/
def prev? (s : Subject) (i : Nat) : Option Nat := s.encoding.prev? s.bytes i

/-- Offset after the character at `i`. -/
def next (s : Subject) (i : Nat) : Nat :=
  if s.atEnd i then i + 1 else i + s.encoding.charLenAt s.bytes i

theorem prev?_lt {s : Subject} {i p : Nat} (h : s.prev? i = some p) : p < i :=
  Encoding.prev?_lt h

theorem lt_next (s : Subject) (i : Nat) : i < s.next i := by
  unfold next
  split
  · omega
  · rename_i h
    have := charLenAt_pos (mt atEnd_iff.2 h)
    omega

/-- First byte of the character around `i`. -/
def leftAdjust (s : Subject) (i : Nat) : Nat :=
  if s.atEnd i then s.size else s.encoding.leftAdjust s.bytes i

/-- First place at or after `i` where a character begins. -/
def rightAdjust (s : Subject) (i : Nat) : Nat :=
  let p := s.leftAdjust i
  if p < i then s.next p else p

def isNewline (s : Subject) (i : Nat) : Bool := s.encoding.isNewline s.bytes i

/-- The text of a span, if it is a part of the subject. -/
def part? (s : Subject) (span : Span) : Option Bytes :=
  if span.start ≤ span.stop && span.stop ≤ s.size then some (s.bytes.slice span.start span.stop)
  else none

/-! Texts and characters at a place; the answer is the number of bytes matched. -/

def byteLength? (s : Subject) (i : Nat) (b : UInt8) : Option Nat :=
  if s.bytes[i]? == some b then some 1 else none

def textLength? (s : Subject) (i : Nat) (lit : Bytes) : Option Nat :=
  if s.bytes.startsAt i lit then some lit.size else none

/-- Whether a list of bytes and the rest of `folded` from `k` on agree as far as both go. -/
def agreesFrom (folded : Bytes) : Nat → List UInt8 → Bool
  | _, [] => true
  | k, x :: xs =>
    match folded[k]? with
    | none => true
    | some y => x == y && agreesFrom folded (k + 1) xs

/-- Folds characters from `i` on until they make up `folded`, of which `done` bytes are there;
the answer is the place after them. -/
def foldedEnd? (s : Subject) (folded : Bytes) (i done : Nat) : Option Nat :=
  if folded.size ≤ done then if done = folded.size then some i else none
  else if _h : i < s.size then
    let (f, n) := s.encoding.foldChar s.bytes i
    if agreesFrom folded done f then foldedEnd? s folded (i + max 1 n) (done + f.length) else none
  else none
termination_by s.size - i
decreasing_by omega

/-- Length of the text at `i` that has the fold `folded`. -/
def foldedLength? (s : Subject) (i : Nat) (folded : Bytes) : Option Nat :=
  (s.foldedEnd? folded i 0).map (· - i)

/-- Length of a copy at `i` of an earlier text. -/
def copyLength? (s : Subject) (i : Nat) (span : Span) (fold : Bool) : Option Nat :=
  (s.part? span).bind fun t =>
    if fold then s.foldedLength? i (s.encoding.foldBytes t) else s.textLength? i t

def classLength? (s : Subject) (i : Nat) (k : CharClass) : Option Nat :=
  (s.decode? i).bind fun (c, n) => if k.contains c then some n else none

/-- Whether a code has a type, codes from 128 on having none where only ASCII counts. -/
def codeHas (s : Subject) (t : CharType) (ascii : Bool) (c : Nat) : Bool :=
  (!ascii || c < 0x80) && s.encoding.hasType c t

def typeLength? (s : Subject) (i : Nat) (t : CharType) (negated ascii : Bool) : Option Nat :=
  (s.decode? i).bind fun (c, n) => if s.codeHas t ascii c != negated then some n else none

/-- Length of any character, a newline only with `multiline`. -/
def anyLength? (s : Subject) (i : Nat) (multiline : Bool) : Option Nat :=
  if s.atEnd i || (!multiline && s.isNewline i) then none
  else some (s.encoding.charLenAt s.bytes i)

theorem anyLength?_pos {s : Subject} {i n : Nat} {multiline : Bool}
    (h : s.anyLength? i multiline = some n) : i < s.size ∧ 0 < n := by
  unfold anyLength? at h
  split at h
  · simp at h
  · rename_i hi
    have hi : ¬ s.size ≤ i := by simp_all
    have := charLenAt_pos hi
    grind

/-! Anchors. -/

def isWord (s : Subject) (ascii : Bool) (i : Nat) : Bool :=
  (s.decode? i).any fun (c, _) => s.codeHas .word ascii c

/-- Whether the character before `i` is a word character. -/
def afterWord (s : Subject) (ascii : Bool) (i : Nat) : Bool := (s.prev? i).any (s.isWord ascii)

def isStart (s : Subject) (i : Nat) : Bool := i == 0 && !s.notBol

def isEnd (s : Subject) (i : Nat) : Bool := i == s.size && !s.notEol

/-- The start, or a place after a newline that does not end the subject. -/
def isLineStart (s : Subject) (i : Nat) : Bool :=
  if i = 0 then !s.notBol else !s.atEnd i && (s.prev? i).any s.isNewline

def isLineEnd (s : Subject) (i : Nat) : Bool := if i = s.size then !s.notEol else s.isNewline i

/-- The end, or the place before a newline that ends the subject. -/
def isLastLineEnd (s : Subject) (i : Nat) : Bool :=
  if i = s.size then !s.notEol else s.isNewline i && s.next i == s.size

/-- Whether an anchor holds at `i` in a search that began at `origin`. -/
def holds (s : Subject) (origin i : Nat) : Anchor → Bool
  | .beginBuffer => s.isStart i
  | .endBuffer => s.isEnd i
  | .semiEndBuffer => s.isLastLineEnd i
  | .beginLine => s.isLineStart i
  | .endLine => s.isLineEnd i
  | .beginPosition => i == origin
  | .wordBoundary ascii => s.afterWord ascii i != s.isWord ascii i
  | .notWordBoundary ascii => s.afterWord ascii i == s.isWord ascii i
  | .wordBegin ascii => !s.afterWord ascii i && s.isWord ascii i
  | .wordEnd ascii => s.afterWord ascii i && !s.isWord ascii i

end Subject
end RegexMachine
