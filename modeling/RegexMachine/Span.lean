/-!
Spans of a text.
-/
namespace RegexMachine

/-- The bytes `start ..< stop` of a text. -/
structure Span where
  start : Nat
  stop : Nat
deriving DecidableEq, Repr, Inhabited

namespace Span

/-- Number of bytes; a span that stops before it starts has none. -/
def length (s : Span) : Nat := s.stop - s.start

def isEmpty (s : Span) : Bool := s.length == 0

end Span
end RegexMachine
