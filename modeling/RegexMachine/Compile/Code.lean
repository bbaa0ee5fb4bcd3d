import RegexMachine.Compile.Emit

/-!
The code of pattern trees.
-/
namespace RegexMachine.Compile

def literalCode (e : Encoding) (bytes : Bytes) (fold : Bool) : Chunk :=
  if bytes.isEmpty then #[]
  else if fold then #[.foldedText (e.foldBytes bytes)]
  else if bytes.size = 1 then #[.byte (bytes.byteAt 0)]
  else #[.text bytes]

def atomCode (e : Encoding) : Atom → Gen Chunk
  | .empty => return #[]
  | .literal bytes fold => return literalCode e bytes fold
  | .charClass ranges negated => return #[.charClass (CharClass.ofRanges ranges negated)]
  | .charType t negated ascii => return #[.charType t negated ascii]
  | .anyChar multiline => return #[.anyChar multiline]
  | .anchor a => return #[.anchor a]
  | .keep => do
    addFeature .hasKeep
    return #[.keep]
  | .backref _ groups fold => return #[.backref groups fold]
  | .call _ group => callCode group

/-- First byte of a literal whose case matters. -/
def peekByte? : List (Node Measured) → Option UInt8
  | .atom _ (.literal bytes false) :: _ => bytes[0]?
  | _ => none

/-- The single instruction for any number of characters, where a repeat is just that. -/
def anyCharsCode? (mode : RepeatMode) (plan : RepeatPlan) (peek : Option UInt8) :
    Node Measured → Option Instr
  | .atom _ (.anyChar multiline) =>
    if mode == .lazy || plan != .star then none
    else
      match peek with
      | some b => some (.anyCharsBefore multiline b)
      | none => some (.anyChars multiline)
  | _ => none

/-- Writes the loop of a repeat whose own depth and body's information are given; `instr` is an
instruction that does the whole repeat unless it gets a guard. -/
def loopWriter (b : Bounds) (mode : RepeatMode) (plan : RepeatPlan) (instr : Option Instr)
    (depth : Nat) (info : Info) (body : Writer) : Writer := fun p => do
  let guarded ← isGuarded depth p
  match instr with
  | some i => if guarded then repeatCode b true depth plan info body p else return #[i]
  | none => repeatCode b (mode != .lazy) depth plan info body p

def repeatWriter (b : Bounds) (mode : RepeatMode) (plan : RepeatPlan) (instr : Option Instr)
    (depth : Nat) (info : Info) (body : Writer) : Writer :=
  let loop := loopWriter b mode plan instr depth info body
  if mode == .possessive then atomicCode loop else loop

mutual

/-- Code of a node; `peek` is the first byte of the literal after it, if there is one. -/
def nodeCode (peek : Option UInt8) (p : Place) : Node Measured → Gen Chunk
  | .atom _ a => do atomCode (← read).encoding a
  | .repeated note b mode body =>
    let plan := repeatPlan b body
    repeatWriter b mode plan (anyCharsCode? mode plan peek body) note.info.depth body.info
      (fun q => nodeCode none q body) p
  | .group _ (.capture g _) body => captureCode g (fun q => nodeCode none q body) p
  | .group _ .plain body => nodeCode none p body
  | .group _ .atomic body => atomicCode (fun q => nodeCode none q body) p
  | .group _ .absent body => absentCode (fun q => nodeCode none q body) p
  | .conditional _ _ gs yes no =>
    conditionalCode gs (fun q => nodeCode none q yes) (fun q => optionCode q no) p
  | .look _ k body => lookCode k body.info (fun q => nodeCode none q body) p
  | .sequence _ items => sequenceCode p #[] items
  | .alternation _ branches => do
    let chunks ← branchChunks p #[] branches
    let size := chunks.foldl (fun n c => n + c.size) 0 + 2 * (chunks.size - 1)
    return joinBranches p.base (p.base + size) chunks

def optionCode (p : Place) : Option (Node Measured) → Gen Chunk
  | none => return #[]
  | some n => nodeCode none p n

/-- Appends the code of items in order. -/
def sequenceCode (p : Place) (done : Chunk) : List (Node Measured) → Gen Chunk
  | [] => return done
  | n :: ns => do
    let code ← nodeCode (peekByte? ns) (p.shift done.size) n
    sequenceCode p (done ++ code) ns

/-- Code of branches, `p` being the place of the first one with what leads to it. -/
def branchChunks (p : Place) (done : Array Chunk) : List (Node Measured) → Gen (Array Chunk)
  | [] => return done
  | n :: ns => do
    let head := if ns.isEmpty then 0 else 1
    let code ← nodeCode none (p.shift head) n
    branchChunks (p.shift (head + code.size + 1)) (done.push code) ns

end

/-- The body of a group that is called. Groups that can be entered again keep their spans for
each. -/
def groupBody (root : Node Measured) (g : CallGraph) (group : Nat) (p : Place) : Gen Chunk := do
  if group = 0 then nodeCode none p root
  else
    match root.subtrees.findSome? (fun n => n.captured?.filter (·.1 == group)) with
    | none => throw (.missingSubroutine group)
    | some (_, body) =>
      let code ← nodeCode none (p.shift 1) body
      let last := if g.isRecursive group then Instr.groupEndRecursive group
        else .groupEnd group true
      return #[.groupStart group true] ++ code ++ #[last]

/-- The tree that belongs to a called group: its first definition. -/
def groupNode (root : Node Measured) (group : Nat) : Node Measured :=
  if group = 0 then root
  else (root.subtrees.find? fun n => n.captured?.any (·.1 == group)).getD root

/-- Appends the subroutine of a group to code that begins at address 0. -/
def addSubroutine (root : Node Measured) (g : CallGraph) (code : Chunk) (group : Nat) :
    Gen (Chunk × Subroutine) := do
  let firstLoop := (← get).loops.size
  let body ← groupBody root g group (Place.start code.size)
  let first := firstLoop
  let stop := (← get).loops.size
  if maxId < max first stop then tooMany .countedLoops
  let sub : Subroutine :=
    ⟨group, code.size, groupRange (groupNode root group) group, ⟨first, stop⟩⟩
  return (code ++ body ++ #[.ret], sub)

def addSubroutines (root : Node Measured) (g : CallGraph) (code : Chunk)
    (subs : Array Subroutine) : List Nat → Gen (Chunk × Array Subroutine)
  | [] => return (code, subs)
  | group :: rest => do
    let (code, sub) ← addSubroutine root g code group
    addSubroutines root g code (subs.push sub) rest

/-- Fills in the target of a call. -/
def link (subs : Array Subroutine) : Instr → Instr
  | .call t sub => .call ((subs[sub]?).elim t (·.entry)) sub
  | i => i

/-- The main code and the subroutines. A pattern that calls itself is a subroutine too. -/
def programCode (root : Node Measured) (g : CallGraph) (called : List Nat) :
    Gen (Chunk × Array Subroutine) := do
  let main ← if g.isCalled 0 then callCode 0 else nodeCode none (Place.start 0) root
  let (code, subs) ← addSubroutines root g (main.push .accept) #[] called
  return (code.map (link subs), subs)

end RegexMachine.Compile
