/-!
Bounds on the work of compiling a pattern.
-/
namespace RegexMachine

structure CompileLimits where
  /-- Deepest nesting of groups and brackets. -/
  parseDepth : Nat
  /-- Most capture groups. -/
  maxCaptures : Nat
  /-- Largest bound of a repeat. -/
  repeatMax : Nat
  /-- Nesting of unbounded repeats from which loops get guards; 0 for no guards. -/
  explosionDepth : Nat
deriving DecidableEq, Repr

def CompileLimits.standard : CompileLimits := ⟨4096, 32767, 100000, 2⟩

end RegexMachine
