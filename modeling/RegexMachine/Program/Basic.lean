import RegexMachine.Encoding.Basic
import RegexMachine.Options
import RegexMachine.Program.Instr
import RegexMachine.Program.NameTable

/-!
Programs: the code of a pattern with its tables, and hints on where a match can begin.
-/
namespace RegexMachine

/-- Bounds and places of a counted loop. -/
structure CountedLoop where
  min : Nat
  max : Option Nat
  greedy : Bool
  /-- First instruction of the body. -/
  body : Addr
  /-- First instruction after the loop. -/
  exit : Addr
deriving DecidableEq, Repr

/-- The numbers `first ..< stop`. -/
structure IdRange where
  first : Nat
  stop : Nat
deriving DecidableEq, Repr

def IdRange.toList (r : IdRange) : List Nat := List.range' r.first (r.stop - r.first)

/-- A group compiled for calls, or the whole pattern as group 0. -/
structure Subroutine where
  group : Nat
  entry : Addr
  /-- Groups inside. -/
  captures : IdRange
  /-- Counted loops inside. -/
  loops : IdRange
deriving DecidableEq, Repr

/-- Facts about a program. -/
inductive Feature where
  | hasBackref | hasCall | hasLookbehind | hasAbsent | hasKeep | hasGuards
  /-- A reference to a group without a span matches the empty text. -/
  | unsetMatchesEmpty
  | captureHistory
deriving DecidableEq, Repr

instance : Flag Feature where
  all := [.hasBackref, .hasCall, .hasLookbehind, .hasAbsent, .hasKeep, .hasGuards,
    .unsetMatchesEmpty, .captureHistory]
  bit f := f.ctorIdx
  label
    | .hasBackref => "HAS_BACKREF"
    | .hasCall => "HAS_CALL"
    | .hasLookbehind => "HAS_LOOKBEHIND"
    | .hasAbsent => "HAS_ABSENT"
    | .hasKeep => "HAS_KEEP"
    | .hasGuards => "STATE_CHECK"
    | .unsetMatchesEmpty => "BACKREF_UNSET_MATCHES_EMPTY"
    | .captureHistory => "CAPTURE_HISTORY"

/-- Anchors that every match begins with. -/
inductive StartAnchor where
  | beginBuffer | beginPosition | beginLine
deriving DecidableEq, Repr

instance : Flag StartAnchor where
  all := [.beginBuffer, .beginPosition, .beginLine]
  bit a := a.ctorIdx
  label
    | .beginBuffer => "BEGIN_BUF"
    | .beginPosition => "BEGIN_POSITION"
    | .beginLine => "BEGIN_LINE"

/-- What is known of every match before it is tried. -/
structure Hints where
  anchor : FlagSet StartAnchor
  /-- Bytes it begins with. -/
  leading : Option Bytes
  /-- Bytes one of which it begins with. -/
  firstBytes : Option ByteSet
  /-- Least number of bytes. -/
  minLength : Nat
deriving DecidableEq, Repr

def Hints.unknown : Hints := ⟨FlagSet.empty, none, none, 0⟩

/-- Tables and counts that belong to a code. -/
structure Tables where
  loops : Array CountedLoop
  subroutines : Array Subroutine
  names : NameTable
  /-- Number of groups besides the whole match. -/
  captures : Nat
  marks : Nat
  roundChecks : Nat
  guards : Nat
  options : Options
  features : FlagSet Feature
  hints : Hints
deriving DecidableEq, Repr

structure Program where
  code : Array Instr
  tables : Tables
  encoding : Encoding
deriving DecidableEq, Repr

namespace Program

def size (p : Program) : Nat := p.code.size

def has (p : Program) (f : Feature) : Bool := p.tables.features.has f

end Program
end RegexMachine
