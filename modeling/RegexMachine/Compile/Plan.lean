import RegexMachine.Analysis.CallGraph
import RegexMachine.Program.Basic

/-!
Choices made before code is written: the shape of every repeat, whether loops may have guards, and
which groups need not be restored when the machine backtracks.
-/
namespace RegexMachine

/-- Shape of a repeat. -/
inductive RepeatPlan where
  | skip | optional | star | plus
  /-- The required copies, then optional copies or a loop. -/
  | unroll
  | counted
deriving DecidableEq, Repr

/-- Largest total size of unrolled copies. -/
def unrollLimit : Nat := 50

mutual

/-- Number of nodes, added to `acc`. -/
def countNodes (acc : Nat) : Node Measured → Nat
  | .atom _ _ => acc + 1
  | .repeated _ _ _ body => countNodes (acc + 1) body
  | .group _ _ body => countNodes (acc + 1) body
  | .conditional _ _ _ yes no => countNodesOption (countNodes (acc + 1) yes) no
  | .look _ _ body => countNodes (acc + 1) body
  | .sequence _ items => countNodesAll (acc + 1) items
  | .alternation _ branches => countNodesAll (acc + 1) branches

def countNodesOption (acc : Nat) : Option (Node Measured) → Nat
  | none => acc
  | some n => countNodes acc n

def countNodesAll (acc : Nat) : List (Node Measured) → Nat
  | [] => acc
  | n :: ns => countNodesAll (countNodes acc n) ns

end

/-- Rough size of the code of a tree. -/
def weight (n : Node Measured) : Nat := countNodes 0 n

def repeatPlan (b : Bounds) (body : Node Measured) : RepeatPlan :=
  match b.min, b.max with
  | _, some 0 => .skip
  | 0, some 1 => .optional
  | 0, none => .star
  | 1, none => .plus
  | min, max => if max.getD min * weight body ≤ unrollLimit then .unroll else .counted

/-- Whether a node keeps guards out of the whole program. -/
def forbidsGuards : Node Measured → Bool
  | .repeated _ b mode body => mode == .possessive || repeatPlan b body == .counted
  | _ => false

/-- Whether guards are sound: what follows at a place of the code must depend on nothing but the
position. -/
def guardsAllowed (root : Node Measured) : Bool :=
  let t := root.info.traits
  !t.has .hasBackref && !t.has .hasCall && !t.has .hasControl && !root.subtrees.any forbidsGuards

/-- Whether each part of a node is run exactly once, in order, where the node is. -/
def keepsPath : Node Measured → Bool
  | .sequence _ _ => true
  | .group _ (.capture _ _) _ => true
  | .group _ .plain _ => true
  | .group _ .atomic _ => true
  | .look _ k _ => !k.behind && !k.negated
  | _ => false

mutual

/-- Marks the groups of a tree that lie off the one path through the pattern. -/
def markUndone (g : CallGraph) (onPath : Bool) (undone : Array Bool) : Node Measured → Array Bool
  | .atom _ _ => undone
  | .repeated _ _ _ body => markUndone g false undone body
  | .group _ (.capture group _) body =>
    let called := g.isCalled group
    let undone := if onPath && !called then undone else undone.setIfInBounds group true
    markUndone g (onPath && !called) undone body
  | n@(.group _ _ body) => markUndone g (onPath && keepsPath n) undone body
  | .conditional _ _ _ yes no => markUndoneOption g (markUndone g false undone yes) no
  | n@(.look _ _ body) => markUndone g (onPath && keepsPath n) undone body
  | .sequence _ items => markUndoneAll g onPath undone items
  | .alternation _ branches => markUndoneAll g false undone branches

def markUndoneOption (g : CallGraph) (undone : Array Bool) : Option (Node Measured) → Array Bool
  | none => undone
  | some n => markUndone g false undone n

def markUndoneAll (g : CallGraph) (onPath : Bool) (undone : Array Bool) :
    List (Node Measured) → Array Bool
  | [] => undone
  | n :: ns => markUndoneAll g onPath (markUndone g onPath undone n) ns

end

/-- For every group, whether backtracking must restore it. A group that lies on every path through
the pattern, outside loops, branches and subroutines, is always set anew before it is used. -/
def undoneGroups (root : Node Measured) (g : CallGraph) (captures : Nat) (history : Bool) :
    Array Bool :=
  markUndone g (!g.isCalled 0) (Array.replicate (captures + 1) history) root

/-- The groups in a tree from the smallest to the largest, `group` among them. -/
def groupRange (n : Node Measured) (group : Nat) : IdRange :=
  let inside := n.subtrees.toList.filterMap fun m => m.captured?.map (·.1)
  ⟨inside.foldl min group, inside.foldl max group + 1⟩

end RegexMachine
