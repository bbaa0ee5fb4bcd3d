/-!
Sets of code points. A `CodeSet` is built from inclusive ranges in any order, overlapping or not;
`normalize` gives its canonical form, sorted ranges that neither overlap nor touch, and the set
operations are single sweeps over canonical forms.
-/
namespace RegexMachine

/-- Inclusive range of code points. -/
structure CodeRange where
  lo : Nat
  hi : Nat
deriving DecidableEq, Repr, Inhabited

namespace CodeRange

def contains (r : CodeRange) (c : Nat) : Bool := r.lo ≤ c && c ≤ r.hi

/-- Order by lower end, then by upper end. -/
def precedes (a b : CodeRange) : Bool := a.lo < b.lo || (a.lo == b.lo && a.hi ≤ b.hi)

end CodeRange

structure CodeSet where
  ranges : List CodeRange
deriving DecidableEq, Repr, Inhabited

namespace CodeSet

def empty : CodeSet := ⟨[]⟩

def add (s : CodeSet) (c : Nat) : CodeSet := ⟨⟨c, c⟩ :: s.ranges⟩

def addRange (s : CodeSet) (lo hi : Nat) : CodeSet := if lo ≤ hi then ⟨⟨lo, hi⟩ :: s.ranges⟩ else s

def union (s t : CodeSet) : CodeSet := ⟨t.ranges ++ s.ranges⟩

def unionAll (sets : List CodeSet) : CodeSet := sets.foldl union empty

def contains (s : CodeSet) (c : Nat) : Bool := s.ranges.any (·.contains c)

/-- Joins sorted ranges that overlap or touch; `cur` is the range still growing. -/
def join (cur : CodeRange) : List CodeRange → List CodeRange
  | [] => [cur]
  | r :: rs => if r.lo ≤ cur.hi + 1 then join ⟨cur.lo, max cur.hi r.hi⟩ rs else cur :: join r rs

/-- Canonical form of ranges that are already sorted. -/
def joinAll : List CodeRange → List CodeRange
  | [] => []
  | r :: rs => join r rs

def normalize (s : CodeSet) : CodeSet := ⟨joinAll (s.ranges.mergeSort CodeRange.precedes)⟩

def ofRanges (rs : List CodeRange) : CodeSet := (CodeSet.mk rs).normalize

/-- What sorted ranges leave free between `next` and `top`. -/
def gaps (next top : Nat) : List CodeRange → List CodeRange
  | [] => if next ≤ top then [⟨next, top⟩] else []
  | r :: rs =>
    if top < r.lo then (if next ≤ top then [⟨next, top⟩] else [])
    else if next < r.lo then ⟨next, r.lo - 1⟩ :: gaps (max next (r.hi + 1)) top rs
    else gaps (max next (r.hi + 1)) top rs

/-- Everything up to `top` that is not in the set. -/
def complement (s : CodeSet) (top : Nat) : CodeSet := ⟨gaps 0 top s.normalize.ranges⟩

/-- Common part of two canonical range lists; the range that ends first is dropped. -/
def meet : List CodeRange → List CodeRange → List CodeRange
  | [], _ => []
  | _ :: _, [] => []
  | a :: as, b :: bs =>
    let lo := max a.lo b.lo
    let hi := min a.hi b.hi
    let rest := if a.hi < b.hi then meet as (b :: bs) else meet (a :: as) bs
    if lo ≤ hi then ⟨lo, hi⟩ :: rest else rest
termination_by as bs => as.length + bs.length

def inter (s t : CodeSet) : CodeSet := ⟨meet s.normalize.ranges t.normalize.ranges⟩

/-- Drops everything above `top`. -/
def clamp (s : CodeSet) (top : Nat) : CodeSet :=
  ⟨(s.ranges.filter (·.lo ≤ top)).map fun r => ⟨r.lo, min r.hi top⟩⟩

def toRanges (s : CodeSet) : List CodeRange := s.normalize.ranges

def diff (s t : CodeSet) (top : Nat) : CodeSet := s.inter (t.complement top)

end CodeSet
end RegexMachine
