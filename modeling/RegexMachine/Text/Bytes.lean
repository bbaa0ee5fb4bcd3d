/-!
Byte strings: patterns, subjects and literals. Nothing here knows about characters.
-/
namespace RegexMachine

abbrev Bytes := Array UInt8

namespace Bytes

def ofString (s : String) : Bytes := s.toUTF8.data

/-- Byte at an offset, 0 past the end. -/
def byteAt (b : Bytes) (i : Nat) : UInt8 := b.getD i 0

/-- Whether `n` bytes of `lit` from `k` on stand in `b` from `i` on. -/
def agree (b lit : Bytes) (i k : Nat) : Nat → Bool
  | 0 => true
  | n + 1 =>
    match b[i]?, lit[k]? with
    | some x, some y => x == y && agree b lit (i + 1) (k + 1) n
    | _, _ => false

/-- Whether `lit` stands in `b` at offset `i`. -/
def startsAt (b : Bytes) (i : Nat) (lit : Bytes) : Bool := agree b lit i 0 lit.size

/-- First of the `n` offsets from `i` on that passes a test. -/
def scan (p : Nat → Bool) (i : Nat) : Nat → Option Nat
  | 0 => none
  | n + 1 => if p i then some i else scan p (i + 1) n

/-- First offset at or after `i` whose byte passes a test. -/
def findByte (b : Bytes) (p : UInt8 → Bool) (i : Nat) : Option Nat :=
  scan (fun k => p (b.byteAt k)) i (b.size - i)

/-- First offset at or after `i` where `lit` stands. -/
def findText (b lit : Bytes) (i : Nat) : Option Nat :=
  scan (fun k => b.startsAt k lit) i (b.size + 1 - i)

/-- Part of a byte string from `lo` up to `hi`. -/
def slice (b : Bytes) (lo hi : Nat) : Bytes := b.extract lo hi

end Bytes

namespace Text

/-- Digits of a number in base 16, lower case. -/
def hexDigits (n : Nat) : String := String.ofList (Nat.toDigits 16 n)

/-- Two hexadecimal digits. -/
def hexByte (b : UInt8) : String :=
  let h := hexDigits b.toNat
  if b < 16 then "0" ++ h else h

def hexString (b : Bytes) : String := String.join (b.toList.map hexByte)

/-- A byte as it is written in listings: printable bytes as they are, with a backslash before
quotes and backslashes, and the rest as escapes. -/
def escapedByte (b : UInt8) : String :=
  if b == 9 then "\\t"
  else if b == 10 then "\\n"
  else if b == 13 then "\\r"
  else if b == 34 || b == 39 || b == 92 then String.ofList ['\\', Char.ofNat b.toNat]
  else if 0x20 ≤ b && b ≤ 0x7E then String.singleton (Char.ofNat b.toNat)
  else "\\x" ++ hexByte b

def escaped (b : Bytes) : String := String.join (b.toList.map escapedByte)

/-- A byte string between quotes. -/
def literal (b : Bytes) : String := "\"" ++ escaped b ++ "\""

/-- Pads a text with blanks on the left. -/
def padLeft (width : Nat) (s : String) : String := "".pushn ' ' (width - s.length) ++ s

/-- Pads a text with blanks on the right. -/
def padRight (width : Nat) (s : String) : String := s.pushn ' ' (width - s.length)

/-- A text without the white space at its end. -/
def trimRight (s : String) : String :=
  String.ofList (s.toList.reverse.dropWhile Char.isWhitespace).reverse

/-- The lines of a text; a line break at the end opens no further line. -/
def lines (s : String) : List String :=
  let parts := s.splitToList (· == '\n')
  if parts.getLast? == some "" then parts.dropLast else parts

end Text
end RegexMachine
