import RegexMachine.Text.Bytes

/-!
Reading bytes as UTF-8 text. Malformed input is split into maximal parts that begin like a character
but cannot be completed; each such part stands for one replacement character.
-/
namespace RegexMachine.Text.Utf8

/-- Bytes that may follow a lead byte: how many are needed, and the range of the first of them. -/
structure Lead where
  more : Nat
  lo : UInt8
  hi : UInt8

def lead? (b : UInt8) : Option Lead :=
  if b < 0x80 then some ⟨0, 0x80, 0xBF⟩
  else if b < 0xC2 then none
  else if b < 0xE0 then some ⟨1, 0x80, 0xBF⟩
  else if b == 0xE0 then some ⟨2, 0xA0, 0xBF⟩
  else if b == 0xED then some ⟨2, 0x80, 0x9F⟩
  else if b < 0xF0 then some ⟨2, 0x80, 0xBF⟩
  else if b == 0xF0 then some ⟨3, 0x90, 0xBF⟩
  else if b < 0xF4 then some ⟨3, 0x80, 0xBF⟩
  else if b == 0xF4 then some ⟨3, 0x80, 0x8F⟩
  else none

/-- Bits of a code that its lead byte holds. -/
def leadBits (b : UInt8) : Nat → Nat
  | 0 => b.toNat
  | 1 => (b &&& 0x1F).toNat
  | 2 => (b &&& 0x0F).toNat
  | _ => (b &&& 0x07).toNat

/-- State between bytes: the code so far, the bytes still missing and the range of the next one. -/
structure Partial where
  code : Nat
  more : Nat
  lo : UInt8
  hi : UInt8

/-- What has been read: the characters, last first and `none` for a malformed part, and the one
that is not complete yet. -/
structure Reading where
  done : List (Option Char)
  pending : Option Partial

namespace Reading

def start : Reading := ⟨[], none⟩

/-- Takes a byte that begins a character. -/
def fresh (done : List (Option Char)) (b : UInt8) : Reading :=
  match lead? b with
  | none => ⟨none :: done, none⟩
  | some ⟨0, _, _⟩ => ⟨some (Char.ofNat b.toNat) :: done, none⟩
  | some ⟨n + 1, lo, hi⟩ => ⟨done, some ⟨leadBits b (n + 1), n + 1, lo, hi⟩⟩

def take (r : Reading) (b : UInt8) : Reading :=
  match r.pending with
  | none => fresh r.done b
  | some p =>
    if p.lo ≤ b && b ≤ p.hi then
      let code := 64 * p.code + (b &&& 0x3F).toNat
      if p.more ≤ 1 then ⟨some (Char.ofNat code) :: r.done, none⟩
      else ⟨r.done, some ⟨code, p.more - 1, 0x80, 0xBF⟩⟩
    else fresh (none :: r.done) b

def chars (r : Reading) : List (Option Char) :=
  (if r.pending.isSome then none :: r.done else r.done).reverse

end Reading

/-- Characters of a byte string, `none` standing for one malformed part. -/
def chars (b : Bytes) : List (Option Char) := (b.foldl Reading.take Reading.start).chars

/-- Text of a byte string, malformed parts replaced. -/
def lossy (b : Bytes) : String :=
  String.ofList ((chars b).map fun c => c.getD (Char.ofNat 0xFFFD))

/-- Text of a byte string that is well formed. -/
def decode? (b : Bytes) : Option String := ((chars b).mapM id).map String.ofList

end RegexMachine.Text.Utf8
