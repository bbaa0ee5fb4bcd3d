import RegexMachine.Analysis.Measure
import RegexMachine.Dialect

/-!
Lookbehind. A lookbehind steps back and matches its body forward, so the number of characters to
step back must be bounded. Where a dialect wants a fixed number, a choice between branches of fixed
lengths becomes one lookbehind for each branch.
-/
namespace RegexMachine.Node

def isAbsent : Node Measured → Bool
  | .group _ .absent _ => true
  | _ => false

/-- Whether a body has parts whose length cannot be told. -/
def unboundedBehind (body : Node Measured) : Bool :=
  body.info.traits.has .hasCall || body.subtrees.any isAbsent || body.info.maxChars.isNone

/-- Whether one lookbehind does for the body. -/
def keptBehind (d : Dialect) (body : Node Measured) : Bool :=
  d.behaves .variableLookbehind || body.info.isFixed

/-- Branches of a body that can be split. -/
def behindBranches? (d : Dialect) : Node Measured → Option (List (Node Measured))
  | .alternation _ branches =>
    if d.behaves .splitLookbehind && branches.all (·.info.isFixed) then some branches else none
  | _ => none

def checkBehind (d : Dialect) (span : Span) (body : Node Measured) : Except PatternError Unit :=
  if unboundedBehind body then .error ⟨.invalidLookBehind, span⟩
  else if keptBehind d body || (behindBranches? d body).isSome then .ok ()
  else .error ⟨.invalidLookBehind, span⟩

mutual

/-- Checks every lookbehind, inner ones first. -/
def checkLooks (d : Dialect) : Node Measured → Except PatternError Unit
  | atom _ _ => .ok ()
  | repeated _ _ _ body => checkLooks d body
  | group _ _ body => checkLooks d body
  | conditional _ _ _ yes no => do
    checkLooks d yes
    checkLooksOption d no
  | look n k body => do
    checkLooks d body
    if k.behind then checkBehind d n.span body
  | sequence _ items => checkLooksAll d items
  | alternation _ branches => checkLooksAll d branches

def checkLooksOption (d : Dialect) : Option (Node Measured) → Except PatternError Unit
  | none => .ok ()
  | some n => checkLooks d n

def checkLooksAll (d : Dialect) : List (Node Measured) → Except PatternError Unit
  | [] => .ok ()
  | n :: ns => do
    checkLooks d n
    checkLooksAll d ns

end

/-- Whether a node is a lookbehind to split. -/
def splitsBehind (d : Dialect) : Node Measured → Bool
  | .look _ k body => k.behind && !keptBehind d body
  | _ => false

/-- Lookbehinds for the branches of a body: the negated ones must all hold, of the others one. -/
def splitLook (span : Span) (k : Look) (branches : List (Node Span)) : Node Span :=
  let looks := branches.map (Node.look span k)
  if k.negated then .sequence span looks else .alternation span looks

/-- Branches of a body, or the body alone. -/
def branchesOf : Node Span → List (Node Span)
  | .alternation _ branches => branches
  | n => [n]

mutual

/-- Splits the lookbehinds of a tree that has been checked. -/
def splitLooks (d : Dialect) : Node Measured → Node Span
  | atom n a => atom n.span a
  | repeated n b m body => repeated n.span b m (splitLooks d body)
  | group n k body => group n.span k (splitLooks d body)
  | conditional n t gs yes no =>
    conditional n.span t gs (splitLooks d yes) (splitLooksOption d no)
  | look n k body =>
    if k.behind && !keptBehind d body then splitLook n.span k (branchesOf (splitLooks d body))
    else look n.span k (splitLooks d body)
  | sequence n items => sequence n.span (splitLooksAll d items [])
  | alternation n branches => alternation n.span (splitLooksAll d branches [])

def splitLooksOption (d : Dialect) : Option (Node Measured) → Option (Node Span)
  | none => none
  | some n => some (splitLooks d n)

/-- Nodes done so far come last first. -/
def splitLooksAll (d : Dialect) : List (Node Measured) → List (Node Span) → List (Node Span)
  | [], done => done.reverse
  | n :: ns, done => splitLooksAll d ns (splitLooks d n :: done)

end
end RegexMachine.Node
