import RegexMachine.CodeSet

/-!
Sorted range tables, searched by halving. A table is cut at the largest codes of the one-byte
encodings, so that what a narrower encoding may see of it is a front part of the table.
-/
namespace RegexMachine

abbrev RangeTable := Array CodeRange

namespace RangeTable

/-- Index of the last range of `base ..< base + size` that does not lie above `c`, provided the
table is sorted and some range there does not. -/
def locate (t : RangeTable) (c base size : Nat) : Nat :=
  if _h : size ≤ 1 then base
  else
    let half := size / 2
    let r := t.getD (base + half) ⟨0, 0⟩
    locate t c (if c ≤ r.hi && c < r.lo then base else base + half) (size - half)
termination_by size
decreasing_by omega

def contains (t : RangeTable) (c : Nat) : Bool :=
  match t[t.locate c 0 t.size]? with
  | some r => r.contains c
  | none => false

/-- Largest codes of the one-byte encodings. -/
def limits : List Nat := [0x7F, 0xFF]

/-- Cuts one range after each of the limits inside it. -/
def cut : List Nat → CodeRange → List CodeRange
  | [], r => [r]
  | l :: ls, r => if r.lo ≤ l && l < r.hi then ⟨r.lo, l⟩ :: cut ls ⟨l + 1, r.hi⟩ else cut ls r

def splitAtLimits (rs : List CodeRange) : List CodeRange := rs.flatMap (cut limits)

def ofSet (s : CodeSet) : RangeTable := (splitAtLimits s.toRanges).toArray

/-- The ranges that begin at or below `top`. -/
def upTo (t : RangeTable) (top : Nat) : List CodeRange := t.toList.takeWhile (·.lo ≤ top)

end RangeTable
end RegexMachine
