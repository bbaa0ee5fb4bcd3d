import RegexMachine.Anchor
import RegexMachine.Encoding.CharType
import RegexMachine.Program.CharClass

/-!
Instructions of the matching machine. An address is an index into the code.
-/
namespace RegexMachine

abbrev Addr := Nat

inductive Instr where
  /-- The match ends here. -/
  | accept
  | byte (b : UInt8)
  | text (bytes : Bytes)
  /-- A text whose letters match whatever their case; the operand is folded. -/
  | foldedText (bytes : Bytes)
  | charClass (k : CharClass)
  | charType (type : CharType) (negated ascii : Bool)
  | anyChar (multiline : Bool)
  /-- Any number of characters, most first. -/
  | anyChars (multiline : Bool)
  /-- Any number of characters, with a way back only to places before the byte `next`. -/
  | anyCharsBefore (multiline : Bool) (next : UInt8)
  | anchor (a : Anchor)
  /-- The text of the last of `groups` that has a span. -/
  | backref (groups : List Nat) (fold : Bool)
  /-- Goes on if one of `groups` has a span, and to `otherwise` if not. -/
  | ifSet (groups : List Nat) (otherwise : Addr)
  /-- Begins a group; `undo` says that backtracking restores what was there. -/
  | groupStart (group : Nat) (undo : Bool)
  | groupEnd (group : Nat) (undo : Bool)
  /-- Ends a group that calls can enter again. -/
  | groupEndRecursive (group : Nat)
  | keep
  | fail
  | jump (target : Addr)
  /-- Leaves an alternative and goes on. -/
  | fork (alternative : Addr)
  /-- Drops the alternative left last. -/
  | drop
  /-- Enters a counted loop. -/
  | repeatEnter (loop : Nat)
  /-- Ends a round of a counted loop. -/
  | repeatNext (loop : Nat)
  | roundStart (check : Nat)
  /-- Skips the next instruction if the round consumed nothing, and changed no group where that
  matters. -/
  | roundEnd (check : Nat) (captures : Bool)
  /-- Saves the position under a mark. -/
  | lookStart (mark : Nat)
  /-- Goes back to the position saved under a mark and drops the alternatives left since. -/
  | lookEnd (mark : Nat)
  | atomicStart (mark : Nat)
  /-- Drops the alternatives left since the mark. -/
  | atomicEnd (mark : Nat)
  /-- Undoes everything since the mark. -/
  | unwind (mark : Nat)
  /-- Steps back by `min` to `max` characters, fewest first. -/
  | stepBack (min : Nat) (max : Option Nat)
  /-- Fails unless the position is the one saved under the mark. -/
  | checkPos (mark : Nat)
  | call (target : Addr) (sub : Nat)
  | ret
  /-- Fails if it has failed at this position before; inside the round of `within`, only once that
  round has consumed something. -/
  | guard (site : Nat) (within : Option Nat)
  /-- The longest text that does not contain what the code at `body` matches. -/
  | absent (body : Addr)
  | absentEnd
deriving DecidableEq, Repr

namespace Instr

def anchorName : Anchor → String
  | .wordBoundary _ => "word-bound"
  | .notWordBoundary _ => "not-word-bound"
  | .wordBegin _ => "word-begin"
  | .wordEnd _ => "word-end"
  | .beginBuffer => "begin-buf"
  | .endBuffer => "end-buf"
  | .semiEndBuffer => "semi-end-buf"
  | .beginLine => "begin-line"
  | .endLine => "end-line"
  | .beginPosition => "begin-position"

/-- Name of an instruction in listings. -/
def name : Instr → String
  | accept => "end"
  | byte _ => "byte"
  | text _ => "str"
  | foldedText _ => "str-ic"
  | charClass _ => "cclass"
  | charType _ _ _ => "ctype"
  | anyChar multiline => if multiline then "any-ml" else "any"
  | anyChars _ => "any*"
  | anyCharsBefore _ _ => "any*-peek"
  | anchor a => anchorName a
  | backref _ _ => "backref"
  | ifSet _ _ => "cond-ref"
  | groupStart _ undo => if undo then "mem-start-push" else "mem-start"
  | groupEnd _ undo => if undo then "mem-end-push" else "mem-end"
  | groupEndRecursive _ => "mem-end-rec"
  | keep => "keep"
  | fail => "fail"
  | jump _ => "jump"
  | fork _ => "push"
  | drop => "pop"
  | repeatEnter _ => "repeat"
  | repeatNext _ => "repeat-inc"
  | roundStart _ => "null-check-start"
  | roundEnd _ _ => "null-check-end"
  | lookStart _ => "push-pos"
  | lookEnd _ => "pop-pos"
  | atomicStart _ => "atomic-start"
  | atomicEnd _ => "atomic-end"
  | unwind _ => "pop-to-mark"
  | stepBack _ _ => "step-back"
  | checkPos _ => "pos-check"
  | call _ _ => "call"
  | ret => "return"
  | guard _ _ => "state-check"
  | absent _ => "absent"
  | absentEnd => "absent-end"

/-- The address an instruction can continue at, besides the next one. -/
def target? : Instr → Option Addr
  | ifSet _ otherwise => some otherwise
  | jump t => some t
  | fork alternative => some alternative
  | call t _ => some t
  | absent body => some body
  | _ => none

/-- Whether an instruction never goes on to the next one. -/
def isTerminal : Instr → Bool
  | accept => true
  | fail => true
  | jump _ => true
  | ret => true
  | absentEnd => true
  | _ => false

end Instr
end RegexMachine
