import RegexMachine.Analysis.CallGraph
import RegexMachine.Analysis.LookBehind
import RegexMachine.Log
import RegexMachine.Pattern.Outline
import RegexMachine.Pattern.Tree

/-!
Analysis of a pattern tree: its lengths, its lookbehinds and its calls.
-/
namespace RegexMachine

/-- A tree that can be compiled. -/
structure Analyzed where
  tree : PatternTree Measured
  calls : CallGraph

namespace Analyzed

/-- Facts of the call graph about a group. -/
def marked (g : CallGraph) (group : Nat) (n : Measured) : Measured :=
  let traits := (n.info.traits.set .called (g.isCalled group)).set .recursive (g.isRecursive group)
  ⟨n.span, { n.info with traits := traits }⟩

mutual

/-- Adds the facts of the call graph to the capture groups of a tree. -/
def mark (g : CallGraph) : Node Measured → Node Measured
  | .atom n a => .atom n a
  | .repeated n b m body => .repeated n b m (mark g body)
  | .group n (.capture group name) body =>
    .group (marked g group n) (.capture group name) (mark g body)
  | .group n k body => .group n k (mark g body)
  | .conditional n t gs yes no => .conditional n t gs (mark g yes) (markOption g no)
  | .look n k body => .look n k (mark g body)
  | .sequence n items => .sequence n (markAll g items [])
  | .alternation n branches => .alternation n (markAll g branches [])

def markOption (g : CallGraph) : Option (Node Measured) → Option (Node Measured)
  | none => none
  | some n => some (mark g n)

/-- Nodes done so far come last first. -/
def markAll (g : CallGraph) : List (Node Measured) → List (Node Measured) → List (Node Measured)
  | [], done => done.reverse
  | n :: ns, done => markAll g ns (mark g n :: done)

end

/-- Measures a tree whose lookbehinds are as the dialect wants them. -/
def measure (d : Dialect) (e : Encoding) (t : PatternTree Span) :
    Except PatternError (Node Measured) := do
  let (root, scale) := t.root.measured (Scale.start e t.captures)
  root.checkLooks d
  if root.subtrees.any (·.splitsBehind d) then return ((root.splitLooks d).measured scale).1
  return root

def ofTree (d : Dialect) (e : Encoding) (t : PatternTree Span) : Except PatternError Analyzed := do
  let root ← measure d e t
  let calls ← CallGraph.ofTree root t.captures
  return ⟨⟨mark calls root, t.captures, t.names, t.callsWhole⟩, calls⟩

def logRecord (a : Analyzed) : LogRecord where
  level := .debug
  text := "analyzed pattern: min " ++ toString a.tree.root.info.minChars ++ " chars, depth " ++
    toString a.tree.root.info.depth ++ ", calls " ++ toString a.calls.hasCalls

/-- Lengths and facts of a node in an outline. -/
def infoText (n : Measured) : String :=
  let i := n.info
  "  [" ++ toString i.minChars ++ ".." ++ Pattern.Outline.limitText i.maxChars ++ " bytes>=" ++
    toString i.minBytes ++ String.join (i.traits.names.map (" " ++ ·)) ++ "]"

end Analyzed
end RegexMachine
