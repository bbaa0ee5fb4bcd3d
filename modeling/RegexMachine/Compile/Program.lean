import RegexMachine.Analysis.Tree
import RegexMachine.Compile.Code
import RegexMachine.Compile.Hints
import RegexMachine.Text.Bytes

/-!
From a pattern to its program.
-/
namespace RegexMachine
namespace Compile

def isConditional : Node Measured → Bool
  | .conditional _ _ _ _ _ => true
  | _ => false

/-- Groups that are called, the whole pattern first. -/
def calledGroups (g : CallGraph) : List Nat := (List.range g.called.size).filter g.isCalled

/-- The number of each called group among the called ones. -/
def subroutineIds (size : Nat) (called : List Nat) : Array (Option Nat) :=
  called.zipIdx.foldl (fun ids (g, i) => ids.setIfInBounds g (some i)) (Array.replicate size none)

def layoutOf (a : Analyzed) (called : List Nat) (o : Options) (e : Encoding)
    (explosionDepth : Nat) : Layout :=
  let root := a.tree.root
  let guarded := !o.has .findLongest && guardsAllowed root
  { encoding := e
    calls := a.calls
    subroutines := subroutineIds (a.tree.captures + 1) called
    undone := undoneGroups root a.calls a.tree.captures (o.has .captureHistory)
    capturesMatter := root.info.traits.has .hasBackref || root.subtrees.any isConditional
    guardDepth := if guarded then explosionDepth else 0 }

/-- Facts about a program that do not depend on its code. -/
def baseFeatures (a : Analyzed) (d : Dialect) (o : Options) : FlagSet Feature :=
  (((FlagSet.empty.set .hasBackref (a.tree.root.info.traits.has .hasBackref)).set
    .hasCall a.calls.hasCalls).set
    .unsetMatchesEmpty (d.behaves .unsetMatchesEmpty)).set
    .captureHistory (o.has .captureHistory)

def tablesOf (a : Analyzed) (subs : Array Subroutine) (s : Issued) (o : Options) (e : Encoding) :
    Tables where
  loops := s.loops
  subroutines := subs
  names := a.tree.names
  captures := a.tree.captures
  marks := s.marks
  roundChecks := s.checks
  guards := s.guards
  options := o
  features := s.features
  hints := Hints.ofTree e a.tree.root

def logRecord (code : Chunk) (t : Tables) : LogRecord where
  level := .debug
  text := "generated " ++ toString code.size ++ " instructions, " ++ toString t.loops.size ++
    " repeats, " ++ toString t.subroutines.size ++ " subroutines, " ++ toString t.guards ++
    " guard sites"

/-- Code and tables of an analyzed pattern. -/
def generate (a : Analyzed) (d : Dialect) (o : Options) (e : Encoding) (explosionDepth : Nat) :
    Except CodeError (Chunk × Tables) :=
  let called := calledGroups a.calls
  if maxId + 1 < called.length then .error (.tooMany .subroutines)
  else
    let layout := layoutOf a called o e explosionDepth
    match programCode a.tree.root a.calls called layout ⟨#[], 0, 0, 0, baseFeatures a d o⟩ with
    | .error error _ => .error error
    | .ok (code, subs) s => .ok (code, tablesOf a subs s o e)

end Compile

/-- The outcome of compiling a pattern, with what was logged and which properties are known now. -/
structure Compilation where
  result : Except CompileError Program
  log : List LogRecord
  properties : PropertyRegistry

namespace Compilation

def ofAnalyzed (s : Pattern.Setting) (o : Options) (a : Analyzed) :
    Except CompileError Program × List LogRecord :=
  match Compile.generate a s.dialect o s.encoding s.limits.explosionDepth with
  | .error e => (.error (.code e), [a.logRecord])
  | .ok (code, tables) =>
    let log := [a.logRecord, Compile.logRecord code tables]
    match Program.assemble code tables s.encoding with
    | .error e => (.error (.code (.invalid e)), log)
    | .ok p =>
      (.ok p, log ++ [⟨.debug, "compiled " ++ toString s.pattern.size ++ " pattern bytes into " ++
        toString p.size ++ " instructions"⟩])

def ofTree (s : Pattern.Setting) (o : Options) (t : PatternTree Span) :
    Except CompileError Program × List LogRecord :=
  match Analyzed.ofTree s.dialect s.encoding t with
  | .error e => (.error (.pattern (.rejected e)), [])
  | .ok a => ofAnalyzed s o a

/-- Compiles a pattern under a caller's options. -/
def ofPattern (s : Pattern.Setting) (options : Options) (properties : PropertyRegistry) :
    Compilation :=
  match s.dialect.effectiveOptions options with
  | .error e => ⟨.error (.pattern (.rejected e)), [], properties⟩
  | .ok o =>
    let (tree, properties) := Pattern.parse s o properties
    match tree with
    | .error f => ⟨.error (.pattern f), [], properties⟩
    | .ok t =>
      let (result, log) := ofTree s o t
      ⟨result, log, properties⟩

end Compilation
end RegexMachine
