import RegexMachine.Machine.Captures

/-!
What a match reports: the span of the whole match and of every group.
-/
namespace RegexMachine

structure Region where
  /-- Spans by group, that of the whole match first. -/
  spans : Array (Option Span)
  /-- All spans of each group in order, where they are kept. -/
  history : Option (Array (List Span))
deriving DecidableEq, Repr

namespace Region

def size (r : Region) : Nat := r.spans.size

def span? (r : Region) (group : Nat) : Option Span := (r.spans[group]?).bind id

/-- Span of the whole match. -/
def whole (r : Region) : Span := (r.span? 0).getD ⟨0, 0⟩

/-- All spans of a group, where they are kept. -/
def history? (r : Region) (group : Nat) : Option (List Span) := r.history.bind (·[group]?)

/-- The group a name stands for in this match. -/
def groupNamed? (r : Region) (names : NameTable) (name : String) : Option Nat :=
  names.resolve? name fun g => (r.span? g).isSome

/-- Span of the group a name stands for. -/
def named? (r : Region) (names : NameTable) (name : String) : Option Span :=
  (r.groupNamed? names name).bind r.span?

/-- Sorts a history by groups; the whole match is all there is of group 0. -/
def historyOf (groups : Nat) (whole : Span) (h : History) : Array (List Span) :=
  h.foldl (fun lists (g, s) => lists.modify g (s :: ·)) (Array.replicate groups [])
    |>.setIfInBounds 0 [whole]

/-- Region of captures; the history is wanted where `keep` says so. -/
def ofCaptures (c : Captures) (whole : Span) (keep : Bool) : Region where
  spans := (c.slots.map Slot.span).setIfInBounds 0 (some whole)
  history := if keep then some (historyOf c.slots.size whole c.history) else none

end Region
end RegexMachine
