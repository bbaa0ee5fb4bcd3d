import RegexMachine.Anchor
import RegexMachine.Encoding.CharType
import RegexMachine.Pattern.Error
import RegexMachine.Text.Bytes

/-!
Pattern trees. Options in effect at each point of the pattern are part of the nodes, so that a tree
means the same wherever it stands. Every node carries a note: the span it was read from, and after
measuring also its lengths.
-/
namespace RegexMachine

/-- How a reference names its group. A relative number has been made absolute. -/
inductive Target where
  | name (s : String)
  | number (n : Nat)
  | relative (n : Nat)
deriving DecidableEq, Repr

def Target.text : Target → String
  | name s => s
  | number n => toString n
  | relative n => toString n

/-- What has no parts. -/
inductive Atom where
  | empty
  | literal (bytes : Bytes) (fold : Bool)
  /-- Sorted ranges that neither overlap nor touch; folds are already added. -/
  | charClass (ranges : List CodeRange) (negated : Bool)
  | charType (type : CharType) (negated ascii : Bool)
  | anyChar (multiline : Bool)
  | anchor (a : Anchor)
  /-- The match is reported from here on. -/
  | keep
  /-- The last of `groups` that has a span. -/
  | backref (target : Target) (groups : List Nat) (fold : Bool)
  | call (target : Target) (group : Nat)
deriving DecidableEq, Repr

inductive RepeatMode where
  | greedy | lazy | possessive
deriving DecidableEq, Repr

structure Bounds where
  min : Nat
  max : Option Nat
deriving DecidableEq, Repr

inductive Grouping where
  | capture (group : Nat) (name : Option String)
  | plain
  | atomic
  /-- The longest text that does not contain the body. -/
  | absent
deriving DecidableEq, Repr

structure Look where
  behind : Bool
  negated : Bool
deriving DecidableEq, Repr

inductive Node (α : Type) where
  | atom (note : α) (a : Atom)
  | repeated (note : α) (bounds : Bounds) (mode : RepeatMode) (body : Node α)
  | group (note : α) (kind : Grouping) (body : Node α)
  /-- Chooses by whether one of `groups` has a span. -/
  | conditional (note : α) (target : Target) (groups : List Nat) (yes : Node α)
      (no : Option (Node α))
  | look (note : α) (kind : Look) (body : Node α)
  | sequence (note : α) (items : List (Node α))
  | alternation (note : α) (branches : List (Node α))

namespace Node
variable {α β : Type}

def note : Node α → α
  | atom n _ => n
  | repeated n _ _ _ => n
  | group n _ _ => n
  | conditional n _ _ _ _ => n
  | look n _ _ => n
  | sequence n _ => n
  | alternation n _ => n

/-- Parts of a node, in pattern order. -/
def children : Node α → List (Node α)
  | atom _ _ => []
  | repeated _ _ _ body => [body]
  | group _ _ body => [body]
  | conditional _ _ _ yes no => yes :: no.toList
  | look _ _ body => [body]
  | sequence _ items => items
  | alternation _ branches => branches

mutual

/-- Appends a node and all its descendants, parents first. -/
def visit (acc : Array (Node α)) : Node α → Array (Node α)
  | n@(atom _ _) => acc.push n
  | n@(repeated _ _ _ body) => visit (acc.push n) body
  | n@(group _ _ body) => visit (acc.push n) body
  | n@(conditional _ _ _ yes no) => visitOption (visit (acc.push n) yes) no
  | n@(look _ _ body) => visit (acc.push n) body
  | n@(sequence _ items) => visitAll (acc.push n) items
  | n@(alternation _ branches) => visitAll (acc.push n) branches

def visitOption (acc : Array (Node α)) : Option (Node α) → Array (Node α)
  | none => acc
  | some n => visit acc n

def visitAll (acc : Array (Node α)) : List (Node α) → Array (Node α)
  | [] => acc
  | n :: ns => visitAll (visit acc n) ns

end

/-- A node and all its descendants, parents first. -/
def subtrees (n : Node α) : Array (Node α) := visit #[] n

mutual

/-- The same tree with other notes. -/
def map (f : α → β) : Node α → Node β
  | atom n a => atom (f n) a
  | repeated n b m body => repeated (f n) b m (map f body)
  | group n k body => group (f n) k (map f body)
  | conditional n t gs yes no => conditional (f n) t gs (map f yes) (mapOption f no)
  | look n k body => look (f n) k (map f body)
  | sequence n items => sequence (f n) (mapAll f items [])
  | alternation n branches => alternation (f n) (mapAll f branches [])

def mapOption (f : α → β) : Option (Node α) → Option (Node β)
  | none => none
  | some n => some (map f n)

/-- Nodes done so far come last first. -/
def mapAll (f : α → β) : List (Node α) → List (Node β) → List (Node β)
  | [], done => done.reverse
  | n :: ns, done => mapAll f ns (map f n :: done)

end

/-- Target of a call. -/
def callee? : Node α → Option Nat
  | atom _ (.call _ g) => some g
  | _ => none

/-- Targets of the calls in a tree. -/
def callees (n : Node α) : List Nat := n.subtrees.toList.filterMap callee?

/-- Group number and body of a capture group. -/
def captured? : Node α → Option (Nat × Node α)
  | group _ (.capture g _) body => some (g, body)
  | _ => none

end Node
end RegexMachine
