import RegexMachine.Program.Basic
import RegexMachine.Span

/-!
What a match has captured so far. The table holds current values only; earlier ones are kept by the
frames that bring them back.
-/
namespace RegexMachine

/-- Where a group was entered last, and the span it matched last. -/
structure Slot where
  start : Option Nat
  span : Option Span
deriving DecidableEq, Repr, Inhabited

def Slot.empty : Slot := ⟨none, none⟩

/-- Spans matched by groups, last first. -/
abbrev History := List (Nat × Span)

structure Captures where
  /-- Slots by group; that of group 0 is not used. -/
  slots : Array Slot
  history : History
deriving DecidableEq, Repr

namespace Captures

/-- Nothing captured by any of `n` groups. -/
def none (n : Nat) : Captures := ⟨Array.replicate (n + 1) Slot.empty, []⟩

def slot? (c : Captures) (group : Nat) : Option Slot := c.slots[group]?

def span? (c : Captures) (group : Nat) : Option Span := (c.slot? group).bind Slot.span

def isSet (c : Captures) (group : Nat) : Bool := (c.span? group).isSome

def setSlot (c : Captures) (group : Nat) (s : Slot) : Captures :=
  { c with slots := c.slots.setIfInBounds group s }

def setStart (c : Captures) (group : Nat) (start : Option Nat) : Captures :=
  { c with slots := c.slots.modify group fun s => { s with start := start } }

/-- Puts back a slot and the history. -/
def restore (c : Captures) (group : Nat) (s : Slot) (h : History) : Captures :=
  ⟨c.slots.setIfInBounds group s, h⟩

def record (c : Captures) (group : Nat) (s : Span) : Captures :=
  { c with history := (group, s) :: c.history }

/-- Starts of some groups, provided that they all exist. -/
def starts? (c : Captures) (r : IdRange) : Option (List (Option Nat)) :=
  r.toList.mapM fun g => (c.slot? g).map Slot.start

def setStarts (c : Captures) (r : IdRange) (starts : List (Option Nat)) : Captures :=
  (r.toList.zip starts).foldl (fun c e => c.setStart e.1 e.2) c

end Captures
end RegexMachine
