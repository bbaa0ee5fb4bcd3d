/-!
Bounds on the work of a search.
-/
namespace RegexMachine

/-- Except for the depth of calls, a limit of 0 means that there is none. -/
structure MatchLimits where
  /-- Most alternatives resumed from one start. -/
  retries : Nat
  /-- Most alternatives resumed in one search. -/
  searchRetries : Nat
  /-- Deepest nesting of calls. -/
  callDepth : Nat
  /-- Most frames on the stack. -/
  frames : Nat
  /-- Number of resumed alternatives after which the interrupt flag is read. -/
  interruptInterval : Nat
deriving DecidableEq, Repr

namespace MatchLimits

def standard : MatchLimits := ⟨10000000, 0, 1024, 0, 16384⟩

/-- The limits with another interval for the interrupt flag, of at least one alternative. -/
def withInterval (l : MatchLimits) (n : Nat) : MatchLimits :=
  { l with interruptInterval := max 1 n }

end MatchLimits

/-- The limit that ended a search before it was decided. -/
inductive LimitError where
  | retries (limit : Nat)
  | searchRetries (limit : Nat)
  | callDepth (limit : Nat)
  | frames (limit : Nat)
deriving DecidableEq, Repr

namespace LimitError

def message : LimitError → String
  | retries n => "retry-limit-in-match over (" ++ toString n ++ ")"
  | searchRetries n => "retry-limit-in-search over (" ++ toString n ++ ")"
  | callDepth n => "subexp-call-limit-in-search over (" ++ toString n ++ ")"
  | frames n => "match-stack limit over (" ++ toString n ++ ")"

def code : LimitError → Int
  | frames _ => -15
  | retries _ => -17
  | searchRetries _ => -18
  | callDepth _ => -19

end LimitError
end RegexMachine
