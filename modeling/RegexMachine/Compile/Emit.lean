import RegexMachine.Compile.Error
import RegexMachine.Compile.Plan

/-!
Writing code. Code is made in chunks, and a chunk is made for the address where it will stand, so
that its jumps are final. Numbers of loops, marks, checks and guards are handed out on the way.
-/
namespace RegexMachine.Compile

abbrev Chunk := Array Instr

/-- What stays fixed while code is written. -/
structure Layout where
  encoding : Encoding
  calls : CallGraph
  /-- Number of the subroutine of each group. -/
  subroutines : Array (Option Nat)
  /-- Groups that backtracking must restore. -/
  undone : Array Bool
  /-- A round of a loop that changed a group counts as progress. -/
  capturesMatter : Bool
  /-- Nesting of loops from which they get guards, 0 for no guards. -/
  guardDepth : Nat

/-- Numbers handed out so far. -/
structure Issued where
  loops : Array CountedLoop
  marks : Nat
  checks : Nat
  guards : Nat
  features : FlagSet Feature

abbrev Gen := ReaderT Layout (EStateM CodeError Issued)

/-- Where a chunk will stand. -/
structure Place where
  base : Addr
  /-- Number of loop bodies around it. -/
  loopDepth : Nat
  /-- Check of the innermost round around it. -/
  within : Option Nat

def Place.start (base : Addr) : Place := ⟨base, 0, none⟩

def Place.shift (p : Place) (n : Nat) : Place := { p with base := p.base + n }

def Place.inLoop (p : Place) : Place := { p with loopDepth := p.loopDepth + 1 }

/-- Code that can be written at any place. -/
abbrev Writer := Place → Gen Chunk

/-- Largest number that a table other than that of guards can have. -/
def maxId : Nat := 0xFFFF

def tooMany {α : Type} (what : Resource) : Gen α := throw (.tooMany what)

def freshMark : Gen Nat := do
  let id := (← get).marks
  if maxId ≤ id then tooMany .regions
  modify fun s => { s with marks := id + 1 }
  return id

def freshCheck : Gen Nat := do
  let id := (← get).checks
  if maxId ≤ id then tooMany .loops
  modify fun s => { s with checks := id + 1 }
  return id

def freshGuard : Gen Nat := do
  let id := (← get).guards
  if 0xFFFFFFFF ≤ id then tooMany .guards
  modify fun s => { s with guards := id + 1 }
  return id

/-- Number of the loop that is entered next, or of the end of the table. -/
def loopId : Gen Nat := do
  let id := (← get).loops.size
  if maxId < id then tooMany .countedLoops
  return id

def addLoop (l : CountedLoop) : Gen Unit := modify fun s => { s with loops := s.loops.push l }

def setLoop (id : Nat) (l : CountedLoop) : Gen Unit :=
  modify fun s => { s with loops := s.loops.setIfInBounds id l }

def addFeature (f : Feature) : Gen Unit :=
  modify fun s => { s with features := s.features.insert f }

/-- A call of a group's subroutine; its target is filled in when all code is there. -/
def callCode (group : Nat) : Gen Chunk := do
  match ((← read).subroutines[group]?).join with
  | some sub => return #[.call 0 sub]
  | none => throw (.missingSubroutine group)

/-- Whether a loop gets a guard, on a chain of `depth` nested loops besides those around it. -/
def isGuarded (depth : Nat) (p : Place) : Gen Bool := do
  let d := (← read).guardDepth
  return 0 < d && d ≤ depth + p.loopDepth

/-- The guard of a loop, if it gets one. -/
def guardCode (depth : Nat) (p : Place) : Gen Chunk := do
  if ← isGuarded depth p then
    let id ← freshGuard
    addFeature .hasGuards
    return #[.guard id p.within]
  return #[]

/-- Writes the body of a loop. A body that can match the empty text is checked for progress. The
instruction that leads back must come right after it. -/
def loopBody (info : Info) (body : Writer) : Writer := fun p => do
  let p := p.inLoop
  if 0 < info.minChars then body p
  else
    let id ← freshCheck
    let captures := (← read).capturesMatter && info.traits.has .hasCapture
    let code ← body { p.shift 1 with within := some id }
    return #[.roundStart id] ++ code ++ #[.roundEnd id captures]

/-- Appends `n` copies; `done` is the code so far. -/
def copies (body : Writer) (p : Place) (done : Chunk) : Nat → Gen Chunk
  | 0 => return done
  | n + 1 => do copies body p (done ++ (← body (p.shift done.size))) n

/-- Number of instructions that offer to skip an optional copy. -/
def offerSize (greedy : Bool) : Nat := if greedy then 1 else 2

/-- The instructions at `base` that offer to skip to `exit`. -/
def offer (greedy : Bool) (base exit : Addr) : Chunk :=
  if greedy then #[.fork exit] else #[.fork (base + 2), .jump exit]

/-- Writes `n` optional copies up to their exit, `p` being the place of the first; `done` are the
copies so far. -/
def optionalBodies (greedy : Bool) (body : Writer) (p : Place) (done : Array Chunk) :
    Nat → Gen (Array Chunk)
  | 0 => return done
  | n + 1 => do
    let head := offerSize greedy
    let code ← body (p.shift head)
    optionalBodies greedy body (p.shift (head + code.size)) (done.push code) n

/-- Puts an offer to leave in front of every copy. -/
def joinOptional (greedy : Bool) (base exit : Addr) (bodies : Array Chunk) : Chunk :=
  bodies.foldl (fun code b => code ++ offer greedy (base + code.size) exit ++ b) #[]

def chunksSize (head : Nat) (bodies : Array Chunk) : Nat :=
  bodies.foldl (fun n b => n + head + b.size) 0

/-- At most `n` copies, each inside the one before. -/
def optionalCode (greedy : Bool) (body : Writer) (n : Nat) : Writer := fun p => do
  let bodies ← optionalBodies greedy body p #[] n
  return joinOptional greedy p.base (p.base + chunksSize (offerSize greedy) bodies) bodies

/-- Any number of rounds, offering to leave before each. -/
def starCode (greedy : Bool) (depth : Nat) (info : Info) (body : Writer) : Writer := fun p => do
  let guard ← guardCode depth p
  let head := guard.size + offerSize greedy
  let code ← loopBody info body (p.shift head)
  let exit := p.base + head + code.size + 1
  return guard ++ offer greedy (p.base + guard.size) exit ++ code ++ #[.jump p.base]

/-- At least one round, and most first. -/
def greedyPlusCode (depth : Nat) (info : Info) (body : Writer) : Writer := fun p => do
  let guard ← guardCode depth p
  let entry := p.base + guard.size + 2
  let code ← loopBody info body (p.shift (guard.size + 2))
  let exit := entry + code.size + 1
  return #[.jump entry] ++ guard ++ #[.fork exit] ++ code ++ #[.jump (p.base + 1)]

/-- At least one round, and fewest first. -/
def lazyPlusCode (depth : Nat) (info : Info) (body : Writer) : Writer := fun p => do
  let guard ← guardCode depth p
  let code ← loopBody info body (p.shift guard.size)
  return guard ++ code ++ #[.fork p.base]

def plusCode (greedy : Bool) (depth : Nat) (info : Info) (body : Writer) : Writer :=
  if greedy then greedyPlusCode depth info body else lazyPlusCode depth info body

/-- A loop that counts its rounds. -/
def countedCode (b : Bounds) (greedy : Bool) (info : Info) (body : Writer) : Writer := fun p => do
  let id ← loopId
  let loop (exit : Addr) : CountedLoop := ⟨b.min, b.max, greedy, p.base + 1, exit⟩
  addLoop (loop 0)
  let code ← loopBody info body (p.shift 1)
  setLoop id (loop (p.base + code.size + 2))
  return #[.repeatEnter id] ++ code ++ #[.repeatNext id]

/-- The required copies, then optional ones or a loop. -/
def unrolledCode (b : Bounds) (greedy : Bool) (depth : Nat) (info : Info) (body : Writer) :
    Writer := fun p => do
  match b.max with
  | none =>
    let front ← copies body p #[] (b.min - 1)
    return front ++ (← plusCode greedy depth info body (p.shift front.size))
  | some max =>
    let front ← copies body p #[] b.min
    return front ++ (← optionalCode greedy body (max - b.min) (p.shift front.size))

def repeatCode (b : Bounds) (greedy : Bool) (depth : Nat) (plan : RepeatPlan) (info : Info)
    (body : Writer) : Writer :=
  match plan with
  | .skip => fun _ => return #[]
  | .optional => optionalCode greedy body 1
  | .star => starCode greedy depth info body
  | .plus => plusCode greedy depth info body
  | .unroll => unrolledCode b greedy depth info body
  | .counted => countedCode b greedy info body

/-- A body in a region that no alternatives leave. -/
def atomicCode (body : Writer) : Writer := fun p => do
  let mark ← freshMark
  let code ← body (p.shift 1)
  return #[.atomicStart mark] ++ code ++ #[.atomicEnd mark]

/-- A lookaround. A negated one leaves an alternative first, and fails for good if its body
matches. -/
def lookCode (k : Look) (info : Info) (body : Writer) : Writer := fun p => do
  let mark ← freshMark
  if k.behind then addFeature .hasLookbehind
  let step : Chunk := if k.behind then #[.stepBack info.minChars info.maxChars] else #[]
  let check : Chunk := if k.behind then #[.checkPos mark] else #[]
  if k.negated then
    let code ← body (p.shift (2 + step.size))
    let inner := #[.lookStart mark] ++ step ++ code ++ check
    return #[.fork (p.base + inner.size + 4)] ++ inner ++ #[.unwind mark, .drop, .fail]
  else
    let code ← body (p.shift (1 + step.size))
    return #[.lookStart mark] ++ step ++ code ++ check ++ #[.lookEnd mark]

def absentCode (body : Writer) : Writer := fun p => do
  addFeature .hasAbsent
  let code ← body (p.shift 2)
  return #[.absent (p.base + 2), .jump (p.base + code.size + 3)] ++ code ++ #[.absentEnd]

/-- A choice by whether a group has a span. -/
def conditionalCode (groups : List Nat) (yes no : Writer) : Writer := fun p => do
  let yesCode ← yes (p.shift 1)
  let size := yesCode.size + 2
  let noCode ← no (p.shift size)
  return #[.ifSet groups (p.base + size)] ++ yesCode ++ #[.jump (p.base + size + noCode.size)] ++
    noCode

/-- A capture group; one that is called is a call itself. -/
def captureCode (group : Nat) (body : Writer) : Writer := fun p => do
  let l ← read
  if l.calls.isCalled group then callCode group
  else
    let undo := l.undone.getD group true
    let code ← body (p.shift 1)
    return #[.groupStart group undo] ++ code ++ #[.groupEnd group undo]

/-- Joins branches, given in order: each but the last leaves an alternative for the next one and
jumps to the end. -/
def joinBranches (base stop : Addr) (branches : Array Chunk) : Chunk :=
  (branches.foldl
    (fun (acc : Chunk × Nat) b =>
      let (code, left) := acc
      if left ≤ 1 then (code ++ b, 0)
      else (code ++ #[.fork (base + code.size + b.size + 2)] ++ b ++ #[.jump stop], left - 1))
    (#[], branches.size)).1

end RegexMachine.Compile
