import RegexMachine.Machine.Frame
import RegexMachine.Machine.Memo
import RegexMachine.Machine.Region
import RegexMachine.Machine.Subject
import RegexMachine.MatchLimits

/-!
The state of the machine, and why it stops.
-/
namespace RegexMachine

/-- An interrupt flag, read after so many instructions of a search have begun. -/
abbrev Signal := Nat → Bool

namespace Machine

/-- What stays fixed during a search. -/
structure Setting where
  program : Program
  subject : Subject
  limits : MatchLimits
  options : SearchOptions
  /-- Where the search began. -/
  origin : Nat
  signal : Signal
  /-- Events are recorded. -/
  tracing : Bool

inductive Event where
  | start (pos : Nat)
  | instruction (ip : Addr) (i : Instr) (pos : Nat)
  /-- An alternative was left. -/
  | fork (ip : Addr) (pos : Nat)
  /-- An alternative was resumed. -/
  | backtrack (ip : Addr) (pos : Nat)
  | commit (mark : Nat)
  | call (target : Addr) (depth : Nat)
  | ret (back : Addr)
  | accept (start stop : Nat)
  /-- No alternative was left. -/
  | exhausted (start : Nat)
deriving DecidableEq, Repr

/-- What backtracking brings back, besides the place in the code and in the subject. -/
structure Registers where
  captures : Captures
  /-- Rounds of the counted loops. -/
  counts : Array Nat
  /-- Start to be reported in place of that of the attempt. -/
  keep : Option Nat
  /-- Number of open calls. -/
  depth : Nat
deriving DecidableEq, Repr

/-- Work done so far. -/
structure Tally where
  /-- Alternatives resumed in this attempt. -/
  retries : Nat
  /-- Alternatives resumed in this search. -/
  searchRetries : Nat
  /-- Alternatives resumed since the interrupt flag was read. -/
  ticks : Nat
  /-- Instructions begun in this search. -/
  begun : Nat
deriving DecidableEq, Repr

structure State where
  ip : Addr
  pos : Nat
  /-- Where the attempt began. -/
  start : Nat
  stack : FrameStack
  regs : Registers
  tally : Tally
  memo : Option Memo
  /-- Length and region of the longest match so far. -/
  best : Option (Nat × Region)
  events : Array Event

/-- Registers with nothing in them, for some groups and counted loops. -/
def Registers.clear (groups loops : Nat) : Registers :=
  ⟨Captures.none groups, Array.replicate loops 0, none, 0⟩

def Tally.zero : Tally := ⟨0, 0, 0, 0⟩

def State.initial : State := ⟨0, 0, 0, .empty, .clear 0 0, .zero, none, none, #[]⟩

/-- What an instruction did not find on the stack. -/
inductive Missing where
  | look | atomic | round | alternative | call | matchingCall
deriving DecidableEq, Repr

def Missing.name : Missing → String
  | look => "lookaround"
  | atomic => "atomic"
  | round => "null check"
  | alternative => "alternative"
  | call => "call"
  | matchingCall => "matching call"

/-- What code can do wrong that was not made from a pattern. -/
inductive Fault where
  | missing (what : Missing) (ip : Addr)
  | notOpened (group : Nat) (ip : Addr)
  | outside (size index : Nat)
  | rangeReversed (first stop : Nat)
  | rangeOutside (stop size : Nat)
  | underflow
deriving DecidableEq, Repr

def Fault.message : Fault → String
  | missing what ip =>
    "broken VM invariant: no " ++ what.name ++ " frame on the stack at @" ++ toString ip
  | notOpened g ip =>
    "broken VM invariant: group " ++ toString g ++ " closed at @" ++ toString ip ++
      " without being opened"
  | outside size i =>
    "index out of bounds: the len is " ++ toString size ++ " but the index is " ++ toString i
  | rangeReversed first stop =>
    "slice index starts at " ++ toString first ++ " but ends at " ++ toString stop
  | rangeOutside stop size =>
    "range end index " ++ toString stop ++ " out of range for slice of length " ++ toString size
  | underflow => "attempt to subtract with overflow"

/-- Why the machine stops. -/
inductive Halt where
  | accepted
  /-- No alternative is left. -/
  | exhausted
  | interrupted
  | limit (e : LimitError)
  | fault (f : Fault)
  /-- The clock has run out. -/
  | late
deriving DecidableEq, Repr

/-- Steps of the machine. -/
abbrev Run := EStateM Halt State

def halt {α : Type} (h : Halt) : Run α := throw h

def fault {α : Type} (f : Fault) : Run α := halt (.fault f)

/-- What is found, or else a fault. -/
def require {α : Type} (what : Missing) (found : Option α) : Run α := do
  match found with
  | some a => return a
  | none => fault (.missing what (← get).ip)

namespace State

/-- Records an event where events are recorded. -/
@[inline] def emit (s : State) (e : Setting) (ev : Event) : State :=
  if e.tracing then { s with events := s.events.push ev } else s

/-- Start that is reported if the match ends here. -/
def matchStart (s : State) : Nat := min (s.regs.keep.getD s.start) s.pos

/-- Region that is reported if the match ends here. -/
def region (s : State) (e : Setting) : Region :=
  Region.ofCaptures s.regs.captures ⟨s.matchStart, s.pos⟩ (e.program.has .captureHistory)

/-- A clean state at the start of an attempt; what belongs to the search stays. -/
def enter (s : State) (e : Setting) (entry : Addr) (pos : Nat) : State :=
  { s with
    ip := entry, pos := pos, start := pos, stack := .empty
    regs := .clear e.program.tables.captures e.program.tables.loops.size
    tally := { s.tally with retries := 0 } }

end State

@[inline] def emit (e : Setting) (ev : Event) : Run Unit := modify (·.emit e ev)

@[inline] def modifyRegs (f : Registers → Registers) : Run Unit :=
  modify fun s => { s with regs := f s.regs }

@[inline] def modifyCaptures (f : Captures → Captures) : Run Unit :=
  modifyRegs fun r => { r with captures := f r.captures }

/-- Goes on to the next instruction. -/
@[inline] def next : Run Unit := modify fun s => { s with ip := s.ip + 1 }

@[inline] def goTo (a : Addr) : Run Unit := modify fun s => { s with ip := a }

def push (e : Setting) (f : Frame) : Run Unit := do
  let limit := e.limits.frames
  if limit != 0 && limit ≤ (← get).stack.size then halt (.limit (.frames limit))
  modify fun s => { s with stack := s.stack.push f }

/-- Leaves an alternative at the position. -/
def fork (e : Setting) (ip : Addr) : Run Unit := do
  let pos := (← get).pos
  emit e (.fork ip pos)
  push e (.alternative ip pos)

end Machine
end RegexMachine
