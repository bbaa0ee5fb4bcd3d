import RegexMachine.Machine.Absent
import RegexMachine.Machine.Groups
import RegexMachine.Machine.Looks
import RegexMachine.Machine.Loops

/-!
One step of the machine, and runs of many. A step either leaves a state to go on from or says why
the machine stops.
-/
namespace RegexMachine.Machine

/-- The match ends here, unless an empty one or a longer one is looked for. -/
def accept (e : Setting) : Run Unit := do
  let s ← get
  let start := s.matchStart
  if e.options.has .findNotEmpty && start == s.pos then backtrack e
  else if e.options.has .findLongest then
    if s.pos < s.start then fault .underflow
    let length := s.pos - s.start
    if s.best.all (·.1 < length) then
      emit e (.accept start s.pos)
      modify fun s => { s with best := some (length, s.region e) }
    backtrack e
  else
    emit e (.accept start s.pos)
    halt .accepted

/-- Takes the alternative left last off the stack. -/
def dropTop : Run Unit := do
  let (_, stack) ← require .alternative (← get).stack.pop?
  modify fun s => { s with ip := s.ip + 1, stack := stack }

def exec (runner : Runner) (e : Setting) (i : Instr) : Run Unit := do
  let pos := (← get).pos
  let t := e.subject
  match i with
  | .accept => accept e
  | .byte b => consume e (t.byteLength? pos b)
  | .text bytes => consume e (t.textLength? pos bytes)
  | .foldedText bytes => consume e (t.foldedLength? pos bytes)
  | .charClass k => consume e (t.classLength? pos k)
  | .charType type negated ascii => consume e (t.typeLength? pos type negated ascii)
  | .anyChar multiline => consume e (t.anyLength? pos multiline)
  | .anyChars multiline => takeAny e multiline none
  | .anyCharsBefore multiline b => takeAny e multiline (some b)
  | .anchor a => check e (t.holds e.origin pos a)
  | .backref groups fold => matchCopy e groups fold
  | .ifSet groups otherwise => branchIfSet groups otherwise
  | .groupStart g undo => openGroup e g undo
  | .groupEnd g undo => closeGroup e g undo
  | .groupEndRecursive g => closeGroup e g true
  | .keep => keepOut e
  | .fail => backtrack e
  | .jump target => goTo target
  | .fork alternative => fork e alternative *> next
  | .drop => dropTop
  | .repeatEnter loop => enterLoop e loop
  | .repeatNext loop => endRound e loop
  | .roundStart c => push e (.round c pos) *> next
  | .roundEnd c captures => checkRound c captures
  | .lookStart mark => push e (.look mark pos) *> next
  | .lookEnd mark => endLook e mark
  | .atomicStart mark => push e (.atomic mark) *> next
  | .atomicEnd mark => endAtomic e mark
  | .unwind mark => unwind e mark
  | .stepBack min max => stepBack e min max
  | .checkPos mark => checkPos e mark
  | .call target sub => enterCall e target sub
  | .ret => leaveCall e
  | .guard site within => passGuard e site within
  | .absent body => takeAbsent runner e body
  | .absentEnd => halt .accepted

/-- Fetches an instruction and executes it. -/
def step (runner : Runner) (e : Setting) : Run Unit := do
  let s ← get
  match e.program.code[s.ip]? with
  | none => fault (.outside e.program.size s.ip)
  | some i =>
    modify fun s => { s with tally := { s.tally with begun := s.tally.begun + 1 } }
    emit e (.instruction s.ip i s.pos)
    exec runner e i

/-- Runs the machine until it stops, and for so many steps at most. Runs inside a step have the
steps that are left. -/
def run : Nat → Setting → State → Halt × State
  | 0, _, s => (.late, s)
  | n + 1, e, s =>
    match step (fun e entry pos s => run n e (s.enter e entry pos)) e s with
    | .ok _ s => run n e s
    | .error h s => (h, s)

/-- Steps that a run may usually take: more than any computer can do. -/
def defaultClock : Nat := Nat.pow 2 62

/-- Tries to match from a position in so many steps at most. -/
def attempt (clock : Nat) (e : Setting) (pos : Nat) (s : State) : Halt × State :=
  match run clock e ((s.enter e 0 pos).emit e (.start pos)) with
  | (.exhausted, s) => (.exhausted, s.emit e (.exhausted pos))
  | r => r

end RegexMachine.Machine
