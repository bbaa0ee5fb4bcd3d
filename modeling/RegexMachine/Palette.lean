/-!
Escape sequences for listings and traces on a terminal.
-/
namespace RegexMachine

/-- Sequences that begin a color and end it, empty where there are no colors. -/
structure Palette where
  /-- Operations and events. -/
  blue : String
  /-- Texts and accepted spans. -/
  green : String
  /-- Addresses and positions. -/
  dim : String
  reset : String
deriving DecidableEq, Repr

namespace Palette

def colored : Palette := ⟨"\x1b[34m", "\x1b[32m", "\x1b[2m", "\x1b[0m"⟩

def plain : Palette := ⟨"", "", "", ""⟩

def inBlue (p : Palette) (s : String) : String := p.blue ++ s ++ p.reset

def inGreen (p : Palette) (s : String) : String := p.green ++ s ++ p.reset

def inDim (p : Palette) (s : String) : String := p.dim ++ s ++ p.reset

end Palette
end RegexMachine
