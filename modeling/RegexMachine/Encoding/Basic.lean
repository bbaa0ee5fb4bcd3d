import RegexMachine.Text.Bytes
import RegexMachine.Unicode.CaseFold
import RegexMachine.Encoding.CharType

/-!
Character encodings. An encoding says how bytes group into characters; every step lands inside the
byte string and advances by at least one byte, whatever the bytes are. Offsets count bytes.
-/
namespace RegexMachine

inductive Encoding where
  | utf8 | ascii | latin1
deriving DecidableEq, Repr, Inhabited

/-- A code point that an encoding has no bytes for. -/
structure InvalidCodePoint where
  code : Nat
deriving DecidableEq, Repr

def InvalidCodePoint.message (e : InvalidCodePoint) : String :=
  "invalid code point value 0x" ++ Text.hexDigits e.code

namespace Encoding

def name : Encoding → String
  | utf8 => "UTF-8" | ascii => "ASCII" | latin1 => "ISO-8859-1"

/-- Largest code point a pattern may use. -/
def maxCode : Encoding → Nat
  | utf8 => 0x10FFFF | ascii => 0x7F | latin1 => 0xFF

def minCharLen (_ : Encoding) : Nat := 1

def maxCharLen : Encoding → Nat
  | utf8 => 4 | ascii => 1 | latin1 => 1

def isSingleByte (e : Encoding) : Bool := e.maxCharLen == 1

/-- Whether stepping back byte by byte always finds the first byte of a character. -/
def isBackwardScanSafe (_ : Encoding) : Bool := true

/-- Length of the character that a byte begins. -/
def charLen (e : Encoding) (head : UInt8) : Nat :=
  match e with
  | utf8 =>
    if head ≤ 0x7F then 1
    else if 0xC2 ≤ head && head ≤ 0xDF then 2
    else if 0xE0 ≤ head && head ≤ 0xEF then 3
    else if 0xF0 ≤ head && head ≤ 0xF4 then 4
    else 1
  | _ => 1

def isContinuation (b : UInt8) : Bool := b &&& 0xC0 == 0x80

/-- Adds `n` continuation bytes from offset `i` on to a code. -/
def continued (b : Bytes) (i code : Nat) : Nat → Option Nat
  | 0 => some code
  | n + 1 =>
    let x := b.byteAt i
    if isContinuation x then continued b (i + 1) (64 * code + (x &&& 0x3F).toNat) n else none

/-- Code of the character at `i` where the text ends at `stop`. A sequence that is cut short or
malformed has the code of its first byte. -/
def decode (e : Encoding) (b : Bytes) (i stop : Nat) : Nat :=
  let head := b.byteAt i
  let len := min (e.charLen head) (stop - i)
  if len ≤ 1 then head.toNat
  else (continued b (i + 1) (head.toNat &&& (0x7F >>> len)) (len - 1)).getD head.toNat

/-- Length of the character at `i`, which lies inside the text. -/
def charLenAt (e : Encoding) (b : Bytes) (i : Nat) : Nat :=
  min (e.charLen (b.byteAt i)) (b.size - i)

theorem charLen_pos (e : Encoding) (head : UInt8) : 0 < e.charLen head := by
  unfold charLen
  split
  · repeat' split
    all_goals omega
  · omega

theorem charLenAt_pos (e : Encoding) {b : Bytes} {i : Nat} (h : i < b.size) :
    0 < e.charLenAt b i := by
  have := e.charLen_pos (b.byteAt i)
  unfold charLenAt
  omega

/-- Code and length of the character at `i`. -/
def decodeAt (e : Encoding) (b : Bytes) (i : Nat) : Nat × Nat :=
  let len := e.charLenAt b i
  (e.decode b i (i + len), len)

/-- Bytes of a code point in UTF-8. -/
def utf8Bytes (c : Nat) : List UInt8 :=
  let tail (unit : Nat) : UInt8 := UInt8.ofNat (0x80 + c / unit % 0x40)
  if c < 0x80 then [UInt8.ofNat c]
  else if c < 0x800 then [UInt8.ofNat (0xC0 + c / 0x40), tail 1]
  else if c < 0x10000 then [UInt8.ofNat (0xE0 + c / 0x1000), tail 0x40, tail 1]
  else [UInt8.ofNat (0xF0 + c / 0x40000), tail 0x1000, tail 0x40, tail 1]

def encode (e : Encoding) (c : Nat) : Except InvalidCodePoint (List UInt8) :=
  match e with
  | utf8 =>
    if c ≤ 0x10FFFF ∧ ¬ (0xD800 ≤ c ∧ c ≤ 0xDFFF) then .ok (utf8Bytes c) else .error ⟨c⟩
  | _ => if c ≤ 0xFF then .ok [UInt8.ofNat c] else .error ⟨c⟩

/-- Last offset in `floor ..= i` whose byte is no continuation byte, or `floor`. -/
def backToHead (b : Bytes) (floor : Nat) : Nat → Nat
  | 0 => 0
  | i + 1 =>
    if floor < i + 1 && isContinuation (b.byteAt (i + 1)) then backToHead b floor i else i + 1

/-- Moves `i` left to the first byte of its character. A continuation byte that belongs to no
character is a character itself. -/
def leftAdjust (e : Encoding) (b : Bytes) (i : Nat) : Nat :=
  match e with
  | utf8 =>
    if b.size ≤ i then i
    else
      let p := backToHead b (i - 3) i
      if isContinuation (b.byteAt p) || p + e.charLen (b.byteAt p) ≤ i then i else p
  | _ => i

theorem backToHead_le (b : Bytes) (floor i : Nat) : backToHead b floor i ≤ i := by
  induction i with
  | zero => exact Nat.le_refl 0
  | succ i ih =>
    unfold backToHead
    split <;> omega

theorem leftAdjust_le (e : Encoding) (b : Bytes) (i : Nat) : e.leftAdjust b i ≤ i := by
  have := backToHead_le b (i - 3) i
  unfold leftAdjust
  split
  · split
    · exact Nat.le_refl i
    · dsimp only
      split <;> omega
  · exact Nat.le_refl i

/-- Offset of the character before `i`. -/
def prev? (e : Encoding) (b : Bytes) (i : Nat) : Option Nat :=
  if i = 0 then none else some (e.leftAdjust b (i - 1))

theorem prev?_lt {e : Encoding} {b : Bytes} {i p : Nat} (h : e.prev? b i = some p) : p < i := by
  have := e.leftAdjust_le b (i - 1)
  grind [prev?]

def isNewline (_ : Encoding) (b : Bytes) (i : Nat) : Bool := b[i]? == some 10

/-- Number of characters of a literal. -/
def countFrom (e : Encoding) (b : Bytes) (i n : Nat) : Nat :=
  if _h : i < b.size then countFrom e b (i + max 1 (e.charLen (b.byteAt i))) (n + 1) else n
termination_by b.size - i
decreasing_by omega

def charCount (e : Encoding) (b : Bytes) : Nat := e.countFrom b 0 0

/-- Offset of the last character of a literal, 0 for an empty one. -/
def lastFrom (e : Encoding) (b : Bytes) (i last : Nat) : Nat :=
  if _h : i < b.size then lastFrom e b (i + max 1 (e.charLen (b.byteAt i))) i else last
termination_by b.size - i
decreasing_by omega

def lastChar (e : Encoding) (b : Bytes) : Nat := e.lastFrom b 0 0

/-- Whether a code point has a type here; codes the encoding lacks have none. -/
def hasType (e : Encoding) (c : Nat) (t : CharType) : Bool :=
  match e with
  | utf8 => t.holds c
  | ascii => c < 0x80 && t.holds c
  | latin1 => c ≤ 0xFF && t.holds c

/-- Ranges of a type among the codes of the encoding. -/
def typeRanges (e : Encoding) (t : CharType) : List CodeRange := t.table.upTo e.maxCode

/-- Finds a type by property name. Beyond the named types only UTF-8 has properties. -/
def resolve (e : Encoding) (r : PropertyRegistry) (name : String) :
    Option CharType × PropertyRegistry :=
  match CharType.ofKey? (PropertyRegistry.key name) with
  | some t => (some t, r)
  | none =>
    match e with
    | utf8 =>
      let (p, r) := r.resolve name
      (p.map CharType.property, r)
    | _ => (none, r)

end Encoding
end RegexMachine
