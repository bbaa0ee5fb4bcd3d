import RegexMachine.CodeSet

/-!
Written form of range lists. Entries are separated by white space; an entry is a code in
hexadecimal, `lo-hi` for a range, or `lo-hi/step` for every `step`-th code of a range.
-/
namespace RegexMachine.Unicode.RangeText

def hexDigit? (c : Char) : Option Nat :=
  if '0' ≤ c ∧ c ≤ '9' then some (c.toNat - 48)
  else if 'A' ≤ c ∧ c ≤ 'F' then some (c.toNat - 55)
  else none

/-- The numbers of an entry that is being read: those that are complete, last first, and the one
whose digits are still coming in. -/
structure Entry where
  complete : List Nat
  number : Nat

def Entry.start : Entry := ⟨[], 0⟩

/-- Ranges of an entry. Code 0 begins no entry with one number, so an empty entry has none, and
neither has one whose ends are out of order. -/
def Entry.ranges (e : Entry) : List CodeRange :=
  match e.complete with
  | [] => if e.number = 0 then [] else [⟨e.number, e.number⟩]
  | [lo] => if lo ≤ e.number then [⟨lo, e.number⟩] else []
  | hi :: lo :: _ =>
    (List.range ((hi - lo) / e.number + 1)).map fun k => ⟨lo + k * e.number, lo + k * e.number⟩

/-- Ranges of the rest of a text, after those already read (last first). -/
def read (done : List CodeRange) (e : Entry) : List Char → List CodeRange
  | [] => (e.ranges.reverse ++ done).reverse
  | c :: cs =>
    match hexDigit? c with
    | some d => read done ⟨e.complete, 16 * e.number + d⟩ cs
    | none =>
      if c = '-' ∨ c = '/' then read done ⟨e.number :: e.complete, 0⟩ cs
      else read (e.ranges.reverse ++ done) Entry.start cs

def decode (text : String) : List CodeRange := read [] Entry.start text.toList

end RegexMachine.Unicode.RangeText
