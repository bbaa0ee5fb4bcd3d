import RegexMachine.Pattern.Atoms
import RegexMachine.Pattern.Group

/-!
Reading a whole pattern: alternations of sequences of repeated atoms and groups.
-/
namespace RegexMachine.Pattern

/-- What one place in a sequence gives. -/
inductive Piece where
  | node (n : Node Span)
  | nothing
  /-- New options up to the end of the enclosing group, across its branches. -/
  | rest (options : Options)

/-- Puts a node in front of the items read so far, last first. Neighbouring literals become one, and
empty nodes are left out. -/
def pushItem (done : List (Node Span)) (n : Node Span) : List (Node Span) :=
  match n, done with
  | .atom t (.literal more fold), .atom s (.literal bytes fold') :: rest =>
    if fold == fold' then .atom ⟨s.start, t.stop⟩ (.literal (bytes ++ more) fold) :: rest
    else n :: done
  | .atom _ .empty, _ => done
  | _, _ => n :: done

/-- The tree of the items of a sequence, given last first. -/
def sequenceNode (start stop : Nat) (items : List (Node Span)) : Node Span :=
  match items.foldr (fun n done => pushItem done n) [] with
  | [] => .atom ⟨start, start⟩ .empty
  | [n] => n
  | done => .sequence ⟨start, stop⟩ done.reverse

def setGroupCount (n : Nat) : Parse Unit := modify fun s => { s with groupCount := n }

/-- Whether a sequence ends before the operator at the cursor. -/
def endsSequence (sign : Option (Sign × Nat)) : Parse Bool := do
  match sign with
  | some (.bar, _) => return true
  | some (.closing, len) =>
    if (← get).depth == 0 then
      let pos ← here
      if !(← behaves .looseClose) then reject .strayClose pos (pos + len)
      return false
    return true
  | _ => atEnd

mutual

/-- Reads branches up to the end of the pattern or of the enclosing group. `base` groups come
before them, `highest` is the largest number given so far, and `done` are the branches so far, last
first. -/
def readBranches (start base highest : Nat) (reset : Bool) (done : List (Node Span)) :
    Nat → Parse (Node Span)
  | 0 => stall
  | fuel + 1 => do
    if reset then setGroupCount base
    let first ← here
    let branch ← readSequence first [] fuel
    let highest := max highest (← get).groupCount
    match ← peekSign with
    | some (.bar, len) =>
      skip len
      readBranches start base highest reset (branch :: done) fuel
    | _ =>
      if reset then setGroupCount highest
      if done.isEmpty then return branch
      return .alternation ⟨start, ← here⟩ (branch :: done).reverse

/-- Reads the items of a sequence; `done` are the items so far, last first. -/
def readSequence (start : Nat) (done : List (Node Span)) : Nat → Parse (Node Span)
  | 0 => stall
  | fuel + 1 => do
    skipExtended
    let sign ← peekSign
    let first ← here
    if ← endsSequence sign then return sequenceNode start first done
    match ← readPiece sign fuel with
    | .nothing => readSequence start done fuel
    | .rest options =>
      modify fun s => { s with options := options }
      let pos ← here
      let count := (← get).groupCount
      let n ← readBranches pos count count false [] fuel
      return sequenceNode start (← here) (n :: done)
    | .node n =>
      let n ← readRepeats n first false ((← read).pattern.size + 1)
      readSequence start (n :: done) fuel

/-- Reads an atom or a group. -/
def readPiece (sign : Option (Sign × Nat)) : Nat → Parse Piece
  | 0 => stall
  | fuel + 1 => do
    match sign with
    | some (.opening, len) =>
      let start ← here
      match ← readOpening start len with
      | .comment => return .nothing
      | .rest options => return .rest options
      | .whole n => return .node n
      | .body frame reset options =>
        descend start
        let outer := (← get).options
        modify fun s => { s with options := options }
        let pos ← here
        let count := (← get).groupCount
        let body ← readBranches pos count count reset [] fuel
        closeGroup start
        modify fun s => { s with options := outer }
        ascend
        return .node (← closeFrame frame body start)
    | _ => return .node (← readAtom sign)

end

/-- Reads a pattern to its end. -/
def readPattern : Parse (Node Span) := do
  let n ← readBranches 0 0 0 false [] (4 * (← read).pattern.size + 8)
  if ← atEnd then return n
  stall

end RegexMachine.Pattern
