import RegexMachine.Pattern.Cursor
import RegexMachine.Program.Verify

/-!
Why a pattern does not become a program.
-/
namespace RegexMachine

/-- What a program has a limited number of. -/
inductive Resource where
  | countedLoops | regions | loops | subroutines | guards
deriving DecidableEq, Repr

def Resource.name : Resource → String
  | countedLoops => "counted repeats"
  | regions => "lookaround regions"
  | loops => "loops"
  | subroutines => "subroutines"
  | guards => "guard sites"

/-- Why no code was made for a tree. Only the first reason is a property of the pattern. -/
inductive CodeError where
  | tooMany (what : Resource)
  | missingSubroutine (group : Nat)
  | invalid (e : ProgramError)
deriving DecidableEq, Repr

def CodeError.message : CodeError → String
  | tooMany what => "too many " ++ what.name ++ " in one pattern"
  | missingSubroutine g => "group " ++ toString g ++ " is called but was never defined"
  | invalid e => "invalid program: " ++ e.message

inductive CompileError where
  /-- The pattern could not be read. -/
  | pattern (f : Pattern.Failure)
  /-- No code could be made for it. -/
  | code (e : CodeError)
deriving DecidableEq, Repr

/-- The flaw of a rejected pattern. -/
def CompileError.patternError? : CompileError → Option PatternError
  | pattern (.rejected e) => some e
  | _ => none

end RegexMachine
