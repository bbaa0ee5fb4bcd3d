import RegexMachine.Machine.State
import RegexMachine.Program.Listing

/-!
Traces: the events of a search, one line each, in the columns of a listing.
-/
namespace RegexMachine
open Text

inductive Verbosity where
  /-- Instructions, resumed alternatives and outcomes. -/
  | brief
  /-- Alternatives left, closed regions and calls too. -/
  | verbose
  /-- Each instruction also shows the subject at its position. -/
  | full
deriving DecidableEq, Repr

namespace Trace

/-- Layout of a trace. -/
structure Style where
  verbosity : Verbosity
  palette : Palette
  subject : Bytes
  /-- Width of addresses. -/
  addrs : Nat
  /-- Width of positions. -/
  positions : Nat

def Style.of (v : Verbosity) (c : Palette) (p : Program) (subject : Bytes) : Style :=
  ⟨v, c, subject, Program.addrWidth p.size, Program.addrWidth (subject.size + 1)⟩

/-- Largest number of bytes of the subject that a line shows. -/
def excerptSize : Nat := 12

def excerpt (s : Style) (pos : Nat) : String :=
  "\"" ++ escaped (s.subject.slice pos (pos + excerptSize)) ++
    (if pos + excerptSize < s.subject.size then "…" else "") ++ "\""

def instructionLine (s : Style) (ip : Addr) (i : Instr) (pos : Nat) : String :=
  let c := s.palette
  trimRight (c.inDim (padLeft s.positions (toString pos)) ++ "  " ++
    padLeft s.addrs (toString ip) ++ "  " ++ c.inBlue (padRight 16 i.name) ++ " " ++ i.operands ++
    (if s.verbosity == .full then "  " ++ c.inGreen (excerpt s pos) else ""))

/-- A line that stands below that of an instruction. -/
def subline (s : Style) (text : String) : String :=
  "".pushn ' ' (s.positions + 2 + s.addrs + 2) ++ text

/-- A line that a brief trace leaves out. -/
def detail (s : Style) (text : String) : List String :=
  if s.verbosity == .brief then [] else [subline s text]

def eventLines (s : Style) : Machine.Event → List String
  | .start pos => [s.palette.inBlue "start" ++ " " ++ toString pos]
  | .instruction ip i pos => [instructionLine s ip i pos]
  | .fork ip pos => detail s ("+ alt " ++ addrText ip ++ " at " ++ toString pos)
  | .backtrack ip pos =>
    [subline s (s.palette.inBlue "<" ++ " backtrack to " ++ addrText ip ++ " at " ++ toString pos)]
  | .commit mark => detail s ("! commit " ++ toString mark)
  | .call target depth => detail s ("> call " ++ addrText target ++ " depth " ++ toString depth)
  | .ret back => detail s ("< return to " ++ addrText back)
  | .accept start stop =>
    [s.palette.inGreen "accept" ++ " " ++ toString start ++ ".." ++ toString stop]
  | .exhausted start => ["no match at " ++ toString start]

/-- A blank line before each attempt but the first. -/
def gap (first : Bool) : Machine.Event → List String
  | .start _ => if first then [] else [""]
  | _ => []

/-- Lines of a trace. -/
def lines (s : Style) (events : Array Machine.Event) : List String :=
  let out : Array String :=
    events.foldl (fun out ev => out ++ gap out.isEmpty ev ++ eventLines s ev) #[]
  out.toList

end Trace
end RegexMachine
