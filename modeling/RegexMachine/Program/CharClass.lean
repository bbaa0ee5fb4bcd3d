import RegexMachine.RangeTable
import RegexMachine.Text.Bytes

/-!
Sets of bytes, and sets of characters made for matching: a table of the codes below 256, and sorted
ranges for the rest.
-/
namespace RegexMachine

structure ByteSet where
  bits : Vector Bool 256
deriving DecidableEq, Repr

namespace ByteSet

def ofPred (p : Nat → Bool) : ByteSet := ⟨Vector.ofFn fun i => p i⟩

def has (s : ByteSet) (b : UInt8) : Bool := s.bits.get ⟨b.toNat, b.toNat_lt⟩

/-- Members in ascending order. -/
def toList (s : ByteSet) : List UInt8 := ((List.range 256).map UInt8.ofNat).filter s.has

def ofList (bs : List UInt8) : ByteSet := ofPred fun i => bs.contains (UInt8.ofNat i)

def empty : ByteSet := ofPred fun _ => false

def union (s t : ByteSet) : ByteSet :=
  ofPred fun i => s.has (UInt8.ofNat i) || t.has (UInt8.ofNat i)

def complement (s : ByteSet) : ByteSet := ofPred fun i => !s.has (UInt8.ofNat i)

theorem has_ofPred (p : Nat → Bool) (b : UInt8) : (ofPred p).has b = p b.toNat := by
  unfold has ofPred
  exact Vector.getElem_ofFn b.toNat_lt

theorem has_ofList {bs : List UInt8} {b : UInt8} : (ofList bs).has b = true ↔ b ∈ bs := by
  rw [ofList, has_ofPred, UInt8.ofNat_toNat, List.contains_iff_mem]

theorem has_complement (s : ByteSet) (b : UInt8) : s.complement.has b = !s.has b := by
  rw [complement, has_ofPred, UInt8.ofNat_toNat]

theorem mem_toList {s : ByteSet} {b : UInt8} : b ∈ s.toList ↔ s.has b = true := by
  rw [toList, List.mem_filter, and_iff_right_iff_imp]
  exact fun _ => List.mem_map.mpr ⟨b.toNat, List.mem_range.mpr b.toNat_lt, UInt8.ofNat_toNat⟩

end ByteSet

structure CharClass where
  /-- Members below 256. -/
  low : ByteSet
  /-- Ranges of the other members. -/
  high : RangeTable
  /-- The class stands for what the ranges leave out. -/
  negated : Bool
deriving DecidableEq, Repr

namespace CharClass

/-- Class of sorted ranges that do not overlap. -/
def ofRanges (rs : List CodeRange) (negated : Bool) : CharClass where
  low := let front := rs.filter (·.lo < 256); ByteSet.ofPred fun c => front.any (·.contains c)
  high := ((rs.filter (256 ≤ ·.hi)).map fun r => ⟨max r.lo 256, r.hi⟩).toArray
  negated := negated

def contains (k : CharClass) (c : Nat) : Bool :=
  (if c < 256 then k.low.has (UInt8.ofNat c) else k.high.contains c) != k.negated

/-- Whether a code from 256 on may match. -/
def hasHigh (k : CharClass) : Bool := k.negated || !k.high.isEmpty

/-- Codes below 256 that match. -/
def lowMembers (k : CharClass) : ByteSet := if k.negated then k.low.complement else k.low

/-- Ranges of the set, whether or not the class is negated. -/
def ranges (k : CharClass) : List CodeRange :=
  CodeSet.joinAll (k.low.toList.map fun b => ⟨b.toNat, b.toNat⟩) ++ k.high.toList

def codeText (c : Nat) : String :=
  let ch := Char.ofNat c
  if 0x21 ≤ c && c ≤ 0x7E && !(['[', ']', '-', '^', '\\'].contains ch) then String.singleton ch
  else "\\x\x7b" ++ Text.hexDigits c ++ "\x7d"

def rangeText (r : CodeRange) : String :=
  codeText r.lo ++ (if r.lo < r.hi then "-" ++ codeText r.hi else "")

def text (k : CharClass) : String :=
  "[" ++ (if k.negated then "^" else "") ++ String.join (k.ranges.map rangeText) ++ "]"

end CharClass
end RegexMachine
