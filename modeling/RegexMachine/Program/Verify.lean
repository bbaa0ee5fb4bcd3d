import RegexMachine.Program.Basic

/-!
Verification of programs: every address lies inside the code, every number inside its table, and
the code does not run off its end.
-/
namespace RegexMachine

inductive ProgramError where
  | empty
  | fallsOffEnd (last : Addr)
  | addressOutOfRange (place target : Addr)
  | groupOutOfRange (place : Addr) (group : Nat)
  | unknownLoop (place : Addr) (loop : Nat)
  | loopLayout (loop : Nat)
  | unknownMark (place : Addr) (mark : Nat)
  | unknownRoundCheck (place : Addr) (check : Nat)
  | unknownGuard (place : Addr) (site : Nat)
  | unknownSubroutine (place : Addr) (sub : Nat)
  | stepBackBounds (place : Addr) (min max : Nat)
deriving DecidableEq, Repr

namespace ProgramError

def addrText (a : Addr) : String := "@" ++ toString a

def message : ProgramError → String
  | empty => "program has no instructions"
  | fallsOffEnd a => "last instruction " ++ addrText a ++ " falls off the end of the program"
  | addressOutOfRange a t => addrText a ++ ": jump target " ++ addrText t ++ " outside program"
  | groupOutOfRange a g => addrText a ++ ": group " ++ toString g ++ " exceeds capture count"
  | unknownLoop a i => addrText a ++ ": repeat id " ++ toString i ++ " not in repeat table"
  | loopLayout i => "repeat " ++ toString i ++ ": body or exit outside program"
  | unknownMark a i => addrText a ++ ": mark id " ++ toString i ++ " not allocated"
  | unknownRoundCheck a i => addrText a ++ ": null-check id " ++ toString i ++ " not allocated"
  | unknownGuard a i => addrText a ++ ": state-check id " ++ toString i ++ " not allocated"
  | unknownSubroutine a i => addrText a ++ ": subexpression " ++ toString i ++ " not in call table"
  | stepBackBounds a lo hi =>
    addrText a ++ ": step-back bounds " ++ toString lo ++ ".." ++ toString hi ++ " inverted"

end ProgramError

namespace Instr

/-- The first of some groups that does not exist. -/
def badGroup? (captures : Nat) (groups : List Nat) : Option Nat :=
  groups.find? fun g => g == 0 || captures < g

/-- What is wrong with the numbers of an instruction. -/
def operandError? (t : Tables) (place : Addr) (i : Instr) : Option ProgramError :=
  let group (gs : List Nat) := (badGroup? t.captures gs).map (ProgramError.groupOutOfRange place)
  let mark (m : Nat) := if m < t.marks then none else some (.unknownMark place m)
  let check (c : Nat) := if c < t.roundChecks then none else some (.unknownRoundCheck place c)
  let loop (l : Nat) := if l < t.loops.size then none else some (.unknownLoop place l)
  match i with
  | groupStart g _ => group [g]
  | groupEnd g _ => group [g]
  | groupEndRecursive g => group [g]
  | backref gs _ => group gs
  | ifSet gs _ => group gs
  | repeatEnter l => loop l
  | repeatNext l => loop l
  | lookStart m => mark m
  | lookEnd m => mark m
  | atomicStart m => mark m
  | atomicEnd m => mark m
  | unwind m => mark m
  | checkPos m => mark m
  | roundStart c => check c
  | roundEnd c _ => check c
  | guard s within =>
    if s < t.guards then within.bind check else some (.unknownGuard place s)
  | call _ sub => if sub < t.subroutines.size then none else some (.unknownSubroutine place sub)
  | stepBack lo (some hi) => if hi < lo then some (.stepBackBounds place lo hi) else none
  | _ => none

/-- What is wrong with the target of an instruction. -/
def targetError? (size : Nat) (place : Addr) (i : Instr) : Option ProgramError :=
  i.target?.bind fun t => if t < size then none else some (.addressOutOfRange place t)

def error? (t : Tables) (size : Nat) (place : Addr) (i : Instr) : Option ProgramError :=
  (i.targetError? size place).or (i.operandError? t place)

end Instr

namespace Program

/-- The first error of the `n` instructions from `place` on. -/
def codeError? (code : Array Instr) (t : Tables) (place : Addr) : Nat → Option ProgramError
  | 0 => none
  | n + 1 =>
    match (code[place]?).bind (·.error? t code.size place) with
    | some e => some e
    | none => codeError? code t (place + 1) n

/-- The first loop whose places lie outside the code. -/
def loopError? (size : Nat) (loops : Array CountedLoop) : Option ProgramError :=
  (loops.findIdx? fun l => size ≤ l.body || size ≤ l.exit).map ProgramError.loopLayout

def verify (code : Array Instr) (t : Tables) : Option ProgramError :=
  match code.back? with
  | none => some .empty
  | some last =>
    if !last.isTerminal then some (.fallsOffEnd (code.size - 1))
    else (codeError? code t 0 code.size).or (loopError? code.size t.loops)

/-- A program, provided that its code and tables fit together. -/
def assemble (code : Array Instr) (t : Tables) (e : Encoding) : Except ProgramError Program :=
  match verify code t with
  | some error => .error error
  | none => .ok ⟨code, t, e⟩

end Program
end RegexMachine
