import Std.Data.HashSet

/-!
The memory of guards: places of the code that have failed at a position, whatever came after. A
guard that is reached again there fails at once.
-/
namespace RegexMachine

/-- Pairs of a guard and a position that have failed. -/
structure Memo where
  failed : Std.HashSet (Nat × Nat)

namespace Memo

/-- Largest number of pairs a memory is kept for. -/
def maxPairs : Nat := Nat.pow 2 28

/-- An empty memory for `guards` guards and the positions of a text of `size` bytes. -/
def new? (guards size : Nat) : Option Memo :=
  if guards = 0 || maxPairs < (size + 1) * guards then none else some ⟨∅⟩

def hasFailed (m : Memo) (site pos : Nat) : Bool := m.failed.contains (site, pos)

def markFailed (m : Memo) (site pos : Nat) : Memo := ⟨m.failed.insert (site, pos)⟩

end Memo
end RegexMachine
