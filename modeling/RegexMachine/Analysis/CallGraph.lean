import RegexMachine.Analysis.Measure

/-!
The call graph of a pattern. A group that can call itself must be able to finish, and it must
consume something before it comes back to itself.
-/
namespace RegexMachine

/-- Facts about groups, with the whole pattern first. -/
structure CallGraph where
  called : Array Bool
  recursive : Array Bool
deriving DecidableEq, Repr

namespace CallGraph

def isCalled (g : CallGraph) (group : Nat) : Bool := g.called.getD group false

def isRecursive (g : CallGraph) (group : Nat) : Bool := g.recursive.getD group false

def hasCalls (g : CallGraph) : Bool := g.called.any id

/-- What a call of a group runs. -/
structure Body where
  group : Nat
  node : Node Measured
  span : Span

/-- Bodies found so far, last first, and the groups that have one. -/
structure Found where
  bodies : List Body
  known : Array Bool

/-- Adds the body of a capture group, unless the group has one already. -/
def Found.add (f : Found) : Node Measured → Found
  | .group note (.capture g _) body =>
    if f.known.getD g true then f
    else ⟨⟨g, body, note.span⟩ :: f.bodies, f.known.setIfInBounds g true⟩
  | _ => f

/-- Bodies of the whole pattern and of its groups, in pattern order; of several definitions of a
group the first one counts. -/
def bodies (root : Node Measured) (size : Nat) : List Body :=
  let whole : Found := ⟨[⟨0, root, root.span⟩], (Array.replicate size false).setIfInBounds 0 true⟩
  (root.subtrees.foldl Found.add whole).bodies.reverse

/-- Callees of every group, by its number. -/
abbrev Edges := Array (List Nat)

def edges (bodies : List Body) (size : Nat) (f : Node Measured → List Nat) : Edges :=
  bodies.foldl (fun es b => es.setIfInBounds b.group (f b.node)) (Array.replicate size [])

/-- Whether `goal` is among the groups to visit or can be reached from them, in at most as many
visits as given. -/
def search (es : Edges) (goal : Nat) (todo : List Nat) (seen : Array Bool) : Nat → Bool
  | 0 => false
  | n + 1 =>
    match todo with
    | [] => false
    | g :: rest =>
      if g == goal then true
      else if seen.getD g true then search es goal rest seen n
      else search es goal (es.getD g [] ++ rest) (seen.setIfInBounds g true) n

/-- Whether a group can be reached from itself. Every group is entered once, so the number of edges
bounds the visits. -/
def reachesItself (es : Edges) (g : Nat) : Bool :=
  match es.getD g [] with
  | [] => false
  | first =>
    let visits := 2 * es.foldl (fun n cs => n + cs.length) 0 + 1
    search es g first (Array.replicate es.size false) visits

mutual

/-- Whether some way through a node calls only groups known to finish. -/
def canFinish (done : Array Bool) : Node Measured → Bool
  | .atom _ (.call _ g) => done.getD g false
  | .atom _ _ => true
  | .repeated _ b _ body => b.min == 0 || canFinish done body
  | .group _ _ body => canFinish done body
  | .conditional _ _ _ yes no => canFinish done yes || canFinishOption done no
  | .look _ k body => k.negated || canFinish done body
  | .sequence _ items => canFinishAll done items
  | .alternation _ branches => canFinishSome done branches

/-- A missing branch finishes. -/
def canFinishOption (done : Array Bool) : Option (Node Measured) → Bool
  | none => true
  | some n => canFinish done n

def canFinishAll (done : Array Bool) : List (Node Measured) → Bool
  | [] => true
  | n :: ns => canFinish done n && canFinishAll done ns

def canFinishSome (done : Array Bool) : List (Node Measured) → Bool
  | [] => false
  | n :: ns => canFinish done n || canFinishSome done ns

end

/-- Adds the groups that can finish given those that are known to. -/
def finishRound (bodies : List Body) (done : Array Bool) : Array Bool :=
  bodies.foldl
    (fun done b =>
      if !done.getD b.group true && canFinish done b.node then done.setIfInBounds b.group true
      else done)
    done

/-- Groups that can finish, found in at most as many rounds as given. -/
def finishing (bodies : List Body) (done : Array Bool) : Nat → Array Bool
  | 0 => done
  | n + 1 =>
    let next := finishRound bodies done
    if next == done then done else finishing bodies next n

mutual

/-- Groups that a node can call before it has consumed anything, last first. -/
def earlyCalls (acc : List Nat) : Node Measured → List Nat
  | .atom _ (.call _ g) => g :: acc
  | .atom _ _ => acc
  | .repeated _ b _ body => if b.max == some 0 then acc else earlyCalls acc body
  | .group _ _ body => earlyCalls acc body
  | .conditional _ _ _ yes no => earlyCallsOption (earlyCalls acc yes) no
  | .look _ _ body => earlyCalls acc body
  | .sequence _ items => earlyCallsUntil acc items
  | .alternation _ branches => earlyCallsAll acc branches

def earlyCallsOption (acc : List Nat) : Option (Node Measured) → List Nat
  | none => acc
  | some n => earlyCalls acc n

/-- In a sequence, calls come early up to the first item that consumes something. -/
def earlyCallsUntil (acc : List Nat) : List (Node Measured) → List Nat
  | [] => acc
  | n :: ns =>
    let acc := earlyCalls acc n
    if 0 < n.info.minChars then acc else earlyCallsUntil acc ns

def earlyCallsAll (acc : List Nat) : List (Node Measured) → List Nat
  | [] => acc
  | n :: ns => earlyCallsAll (earlyCalls acc n) ns

end

/-- Blames the first body of the kind given. -/
def rejectBody (bodies : List Body) (bad : Body → Bool) : Except PatternError Unit :=
  match bodies.find? bad with
  | some b => .error ⟨.endlessRecursion, b.span⟩
  | none => .ok ()

/-- Every recursive group must be able to finish. -/
def checkEscapes (bodies : List Body) (es : Edges) (g : CallGraph) : Except PatternError Unit :=
  let start := es.map List.isEmpty
  let done := finishing bodies start (bodies.length + 1)
  rejectBody bodies fun b => g.isRecursive b.group && !done.getD b.group false

/-- No group may come back to itself without consuming anything. -/
def checkProgress (bodies : List Body) (size : Nat) : Except PatternError Unit :=
  let es := edges bodies size (earlyCalls [])
  rejectBody bodies fun b => reachesItself es b.group

def ofTree (root : Node Measured) (captures : Nat) : Except PatternError CallGraph := do
  let size := captures + 1
  let none := Array.replicate size false
  let callees := root.callees
  if callees.isEmpty then return ⟨none, none⟩
  let bodies := bodies root size
  let es := edges bodies size Node.callees
  let g : CallGraph :=
    ⟨callees.foldl (fun a c => a.setIfInBounds c true) none,
     bodies.foldl (fun a b => a.setIfInBounds b.group (reachesItself es b.group)) none⟩
  checkEscapes bodies es g
  checkProgress bodies size
  return g

end CallGraph
end RegexMachine
