import RegexMachine.Palette
import RegexMachine.Program.Verify

/-!
Listings of programs.
-/
namespace RegexMachine
open Text

def addrText (a : Addr) : String := "@" ++ toString a

def numbersText (ns : List Nat) : String := " ".intercalate (ns.map toString)

namespace Instr

def anchorOperands : Anchor → String
  | .wordBoundary ascii => if ascii then "ascii" else ""
  | .notWordBoundary ascii => if ascii then "ascii" else ""
  | .wordBegin ascii => if ascii then "ascii" else ""
  | .wordEnd ascii => if ascii then "ascii" else ""
  | _ => ""

def stepText (min : Nat) : Option Nat → String
  | none => toString min ++ ".."
  | some max => if max == min then toString min else toString min ++ ".." ++ toString max

/-- Operands of an instruction, empty if it has none. -/
def operands : Instr → String
  | byte b => literal #[b]
  | text bytes => literal bytes
  | foldedText bytes => literal bytes
  | charClass k => k.text
  | charType t negated ascii =>
    (if negated then "^" else "") ++ t.name ++ (if ascii then " ascii" else "")
  | anyChars multiline => if multiline then "ml" else ""
  | anyCharsBefore multiline next => literal #[next] ++ (if multiline then " ml" else "")
  | anchor a => anchorOperands a
  | backref gs fold => numbersText gs ++ (if fold then " ic" else "")
  | ifSet gs otherwise => numbersText gs ++ " else " ++ addrText otherwise
  | groupStart g _ => toString g
  | groupEnd g _ => toString g
  | groupEndRecursive g => toString g
  | jump t => addrText t
  | fork t => addrText t
  | repeatEnter l => toString l
  | repeatNext l => toString l
  | roundStart c => toString c
  | roundEnd c captures => toString c ++ (if captures then " captures" else "")
  | lookStart m => toString m
  | lookEnd m => toString m
  | atomicStart m => toString m
  | atomicEnd m => toString m
  | unwind m => toString m
  | checkPos m => toString m
  | stepBack min max => stepText min max
  | call t sub => addrText t ++ " subexp " ++ toString sub
  | guard s none => toString s
  | guard s (some c) => toString s ++ " within " ++ toString c
  | absent body => addrText body
  | accept => ""
  | anyChar _ => ""
  | keep => ""
  | fail => ""
  | drop => ""
  | ret => ""
  | absentEnd => ""

end Instr

namespace Program

/-- A part of a listing with its title, nothing if it has no lines. -/
def part (c : Palette) (title : String) (lines : List String) : List String :=
  if lines.isEmpty then [] else c.inBlue ("[" ++ title ++ "]") :: lines

def codeLine (c : Palette) (width : Nat) (i : Instr) (a : Addr) : String :=
  trimRight (c.inDim (padLeft width (toString a)) ++ "  " ++ c.inBlue (padRight 16 i.name) ++ " " ++
    i.operands)

/-- Digits of the largest of `count` addresses. -/
def addrWidth (count : Nat) : Nat := (toString (max 1 (count - 1))).length

def codeLines (c : Palette) (code : Array Instr) : List String :=
  code.toList.zipIdx.map fun (i, a) => codeLine c (addrWidth code.size) i a

def loopLine (c : Palette) (l : CountedLoop) (id : Nat) : String :=
  toString id ++ "  \x7b" ++ toString l.min ++ "," ++ (l.max.map toString).getD "" ++ "\x7d " ++
    (if l.greedy then "greedy" else "lazy") ++ " body " ++ c.inDim (addrText l.body) ++ " exit " ++
    c.inDim (addrText l.exit)

def rangeText (r : IdRange) : String := toString r.first ++ ".." ++ toString r.stop

def subroutineLine (c : Palette) (s : Subroutine) (id : Nat) : String :=
  toString id ++ "  group " ++ toString s.group ++ " entry " ++ c.inDim (addrText s.entry) ++
    " captures " ++ rangeText s.captures ++ " repeats " ++ rangeText s.loops

def nameLine (c : Palette) (name : String) (groups : List Nat) : String :=
  c.inGreen name ++ "  " ++ numbersText groups

def anchorHintName : StartAnchor → String
  | .beginBuffer => "begin-buf"
  | .beginPosition => "begin-position"
  | .beginLine => "begin-line"

def hintLines (c : Palette) (h : Hints) : List String :=
  h.anchor.toList.map (fun a => "anchor " ++ anchorHintName a) ++
    (h.leading.map fun b => "prefix " ++ c.inGreen (literal b)).toList ++
    (h.firstBytes.map fun s => "first-bytes " ++ c.inGreen (literal s.toList.toArray)).toList ++
    (if h.minLength = 0 then [] else ["min-len " ++ toString h.minLength])

/-- Lines of the listing of a program. -/
def listing (c : Palette) (p : Program) : List String :=
  let t := p.tables
  c.inBlue "[code]" :: codeLines c p.code ++
    part c "repeats" (t.loops.toList.zipIdx.map fun (l, i) => loopLine c l i) ++
    part c "subexps" (t.subroutines.toList.zipIdx.map fun (s, i) => subroutineLine c s i) ++
    part c "names" (t.names.entries.map fun (n, gs) => nameLine c n gs) ++
    part c "hints" (hintLines c t.hints)

end Program
end RegexMachine
