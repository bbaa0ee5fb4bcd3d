import RegexMachine.Encoding.Basic

/-!
Case folding of byte strings. Characters are folded one at a time; a fold may be longer or shorter
than the character.
-/
namespace RegexMachine.Encoding
open Unicode

def lowerByte (b : UInt8) : UInt8 := if 0x41 ≤ b && b ≤ 0x5A then b + 0x20 else b

/-- Bytes of code points in order, unless one of them has none. -/
def encodeAll (e : Encoding) : List Nat → Option (List UInt8)
  | [] => some []
  | c :: cs =>
    match e.encode c, encodeAll e cs with
    | .ok bs, some rest => some (bs ++ rest)
    | _, _ => none

/-- Fold of the character at `i`, and the number of bytes it takes. -/
def foldChar (e : Encoding) (b : Bytes) (i : Nat) : List UInt8 × Nat :=
  let head := b.byteAt i
  match e with
  | ascii => ([lowerByte head], 1)
  | latin1 => ((foldCode head.toNat 0xFF).map UInt8.ofNat, 1)
  | utf8 =>
    if head < 0x80 then ([lowerByte head], 1)
    else
      let len := min (utf8.charLen head) (b.size - i)
      let folded := foldCode (utf8.decode b i (i + len)) 0x10FFFF
      -- A code without bytes, read from a malformed sequence, stays as it is.
      ((encodeAll utf8 folded).getD (b.slice i (i + len)).toList, len)

def foldFrom (e : Encoding) (b : Bytes) (i : Nat) (out : Bytes) : Bytes :=
  if _h : i < b.size then
    let (f, n) := e.foldChar b i
    foldFrom e b (i + max 1 n) (out ++ f)
  else out
termination_by b.size - i
decreasing_by omega

/-- Fold of a whole byte string. -/
def foldBytes (e : Encoding) (b : Bytes) : Bytes := e.foldFrom b 0 #[]

def asciiFolds : List Fold :=
  (List.range 26).flatMap fun k => [⟨0x41 + k, [0x61 + k]⟩, ⟨0x61 + k, [0x41 + k]⟩]

def latin1Folds : List Fold := foldsUpTo 0xFF

def utf8Folds : List Fold := foldsUpTo 0x10FFFF

/-- Every fold of the encoding. -/
def folds : Encoding → List Fold
  | utf8 => utf8Folds | ascii => asciiFolds | latin1 => latin1Folds

/-- Whether some fold changes the number of characters. -/
def hasStringFolds (e : Encoding) : Bool := e.folds.any fun f => f.result.length > 1

end RegexMachine.Encoding
