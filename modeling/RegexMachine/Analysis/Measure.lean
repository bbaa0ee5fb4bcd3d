import RegexMachine.Encoding.Folding
import RegexMachine.FlagSet
import RegexMachine.Pattern.Node

/-!
Lengths of pattern trees: how many characters and bytes a node consumes at least and at most. A call
is as long as the group it calls, so the lengths of groups are found by repeated measuring.
-/
namespace RegexMachine

/-- Facts about a node. -/
inductive Trait where
  /-- The least and the greatest number of characters are equal. -/
  | fixedLength
  | hasBackref | hasCapture | hasCall
  /-- A capture group with a name. -/
  | named
  /-- A capture group that can enter itself through calls. -/
  | recursive
  /-- A capture group that some call means. -/
  | called
  /-- Has a part that drops alternatives or has bodies of its own. -/
  | hasControl
deriving DecidableEq, Repr

instance : Flag Trait where
  all := [.fixedLength, .hasBackref, .hasCapture, .hasCall, .named, .recursive, .called,
    .hasControl]
  bit t := t.ctorIdx
  label
    | .fixedLength => "FIXED_LEN"
    | .hasBackref => "HAS_BACKREF"
    | .hasCapture => "HAS_CAPTURE"
    | .hasCall => "HAS_CALL"
    | .named => "NAMED"
    | .recursive => "RECURSIVE"
    | .called => "CALLED"
    | .hasControl => "HAS_CONTROL"

abbrev Traits := FlagSet Trait

/-- Lengths and facts of a node. -/
structure Info where
  minChars : Nat
  /-- `none` is unbounded. -/
  maxChars : Option Nat
  minBytes : Nat
  traits : Traits
  /-- Deepest nesting of unbounded repeats. -/
  depth : Nat
deriving DecidableEq, Repr

/-- Note of a node that has been measured. -/
structure Measured where
  span : Span
  info : Info
deriving DecidableEq, Repr

namespace Info

def isFixed (i : Info) : Bool := i.traits.has .fixedLength

/-- Lengths stay below 2 ^ 32. -/
def cap : Nat := 0xFFFFFFFF

def addCapped (a b : Nat) : Nat := min cap (a + b)

def mulCapped (a b : Nat) : Nat := min cap (a * b)

/-- A length beyond the cap counts as unbounded. -/
def capped? (n : Nat) : Option Nat := if n ≤ cap then some n else none

def addMax (a b : Option Nat) : Option Nat :=
  match a, b with
  | some m, some n => capped? (m + n)
  | _, _ => none

def mulMax (a b : Option Nat) : Option Nat :=
  match a, b with
  | _, some 0 => some 0
  | some 0, _ => some 0
  | some m, some n => capped? (m * n)
  | _, _ => none

/-- The greater of two maxima. -/
def wider (a b : Option Nat) : Option Nat :=
  match a, b with
  | some m, some n => some (max m n)
  | _, _ => none

/-- Facts about a part that hold of the whole too. -/
def inherited (t : Traits) : Traits :=
  t.inter (FlagSet.ofList [.hasBackref, .hasCapture, .hasCall, .hasControl])

/-- Information with the mark for a fixed length. -/
def make (minChars : Nat) (maxChars : Option Nat) (minBytes : Nat) (traits : Traits)
    (depth : Nat) : Info :=
  ⟨minChars, maxChars, minBytes, traits.set .fixedLength (maxChars == some minChars), depth⟩

/-- A node that consumes nothing. -/
def zero (traits : Traits) (depth : Nat) : Info := make 0 (some 0) 0 traits depth

end Info

/-- What lengths depend on besides the tree. -/
structure Scale where
  encoding : Encoding
  /-- Some fold changes the number of characters. -/
  stringFolds : Bool
  /-- Least lengths known of the groups, with the whole pattern first. -/
  groupMin : Array Nat

namespace Scale

def start (e : Encoding) (captures : Nat) : Scale :=
  ⟨e, e.hasStringFolds, Array.replicate (captures + 1) 0⟩

/-- A character may fold to three, so a folded literal may match a third of its characters. -/
def literalInfo (s : Scale) (bytes : Bytes) (fold : Bool) : Info :=
  let chars := s.encoding.charCount bytes
  if fold && s.stringFolds then
    let folded := s.encoding.charCount (s.encoding.foldBytes bytes)
    let least := (folded + 2) / 3
    Info.make least (some (max folded chars)) least FlagSet.empty 0
  else Info.make chars (some chars) (if fold then chars else bytes.size) FlagSet.empty 0

def atomInfo (s : Scale) : Atom → Info
  | .empty => Info.zero FlagSet.empty 0
  | .literal bytes fold => s.literalInfo bytes fold
  | .charClass _ _ => Info.make 1 (some 1) s.encoding.minCharLen FlagSet.empty 0
  | .charType _ _ _ => Info.make 1 (some 1) s.encoding.minCharLen FlagSet.empty 0
  | .anyChar _ => Info.make 1 (some 1) s.encoding.minCharLen FlagSet.empty 0
  | .anchor _ => Info.zero FlagSet.empty 0
  | .keep => Info.zero FlagSet.empty 0
  | .backref _ _ _ => Info.make 0 none 0 (FlagSet.ofList [.hasBackref]) 0
  | .call _ g => Info.make (s.groupMin.getD g 0) none 0 (FlagSet.ofList [.hasCall]) 0

end Scale

namespace Info

def ofRepeat (b : Bounds) (body : Info) : Info :=
  make (mulCapped body.minChars b.min) (mulMax body.maxChars b.max)
    (mulCapped body.minBytes b.min) (inherited body.traits)
    (body.depth + if b.max.isNone then 1 else 0)

def ofGroup (k : Grouping) (body : Info) : Info :=
  let t := inherited body.traits
  match k with
  | .capture _ name =>
    make body.minChars body.maxChars body.minBytes
      ((t.insert .hasCapture).set .named name.isSome) body.depth
  | .plain => make body.minChars body.maxChars body.minBytes t body.depth
  | .atomic => make body.minChars body.maxChars body.minBytes (t.insert .hasControl) body.depth
  | .absent => make 0 none 0 (t.insert .hasControl) body.depth

def ofConditional (yes no : Info) (traits : Traits) : Info :=
  make (min yes.minChars no.minChars) (wider yes.maxChars no.maxChars)
    (min yes.minBytes no.minBytes) (traits.insert .hasControl) (max yes.depth no.depth)

def ofLook (body : Info) : Info := zero ((inherited body.traits).insert .hasControl) body.depth

/-- Facts that the parts of a node hand on, and their depth. -/
def ofParts (parts : List Info) : Traits × Nat :=
  parts.foldl (fun acc i => (acc.1.union (inherited i.traits), max acc.2 i.depth))
    (FlagSet.empty, 0)

def ofSequence (parts : List Info) : Info :=
  let (traits, depth) := ofParts parts
  make (parts.foldl (fun n i => addCapped n i.minChars) 0)
    (parts.foldl (fun m i => addMax m i.maxChars) (some 0))
    (parts.foldl (fun n i => addCapped n i.minBytes) 0) traits depth

/-- Least of some numbers, 0 if there are none. -/
def least : List Nat → Nat
  | [] => 0
  | n :: ns => ns.foldl min n

def ofAlternation (parts : List Info) : Info :=
  let (traits, depth) := ofParts parts
  make (least (parts.map (·.minChars)))
    (parts.foldl (fun m i => wider m i.maxChars) (some 0))
    (least (parts.map (·.minBytes))) traits depth

end Info

namespace Node

def info (n : Node Measured) : Info := n.note.info

def span (n : Node Measured) : Span := n.note.span

mutual

/-- Measures a tree from its leaves up. -/
def measure (s : Scale) : Node Span → Node Measured
  | atom p a => atom ⟨p, s.atomInfo a⟩ a
  | repeated p b m body =>
    let body := measure s body
    repeated ⟨p, Info.ofRepeat b body.info⟩ b m body
  | group p k body =>
    let body := measure s body
    group ⟨p, Info.ofGroup k body.info⟩ k body
  | conditional p t gs yes no =>
    let yes := measure s yes
    let no := measureOption s no
    let other := (no.map info).getD (Info.zero FlagSet.empty 0)
    let traits := (Info.ofParts [yes.info, other]).1
    conditional ⟨p, Info.ofConditional yes.info other traits⟩ t gs yes no
  | look p k body =>
    let body := measure s body
    look ⟨p, Info.ofLook body.info⟩ k body
  | sequence p items =>
    let items := measureAll s items []
    sequence ⟨p, Info.ofSequence (items.map info)⟩ items
  | alternation p branches =>
    let branches := measureAll s branches []
    alternation ⟨p, Info.ofAlternation (branches.map info)⟩ branches

def measureOption (s : Scale) : Option (Node Span) → Option (Node Measured)
  | none => none
  | some n => some (measure s n)

/-- Nodes done so far come last first. -/
def measureAll (s : Scale) : List (Node Span) → List (Node Measured) → List (Node Measured)
  | [], done => done.reverse
  | n :: ns, done => measureAll s ns (measure s n :: done)

end

/-- Enters the least length of a group that is defined here. -/
def enterMinimum (mins : Array Nat) : Node Measured → Array Nat
  | .group note (.capture g _) _ => mins.setIfInBounds g note.info.minChars
  | _ => mins

/-- Least lengths of the whole tree and of its groups; of several definitions of a group the last
one counts. -/
def groupMinima (n : Node Measured) (size : Nat) : Array Nat :=
  n.subtrees.foldl enterMinimum ((Array.replicate size 0).setIfInBounds 0 n.info.minChars)

/-- Measures until the least lengths of the groups no longer change, at most `n + 1` times. Returns
the last lengths too. -/
def measureRounds (s : Scale) (root : Node Span) : Nat → Node Measured × Scale
  | 0 => (root.measure s, s)
  | n + 1 =>
    let t := root.measure s
    let next := t.groupMinima s.groupMin.size
    if next == s.groupMin then (t, s) else measureRounds { s with groupMin := next } root n

/-- Measures a tree whose calls are as long as the groups they mean. Where recursion lets the
lengths grow without end, as many rounds as there are groups suffice to see it. -/
def measured (s : Scale) (root : Node Span) : Node Measured × Scale :=
  measureRounds s root (s.groupMin.size + 1)

end Node
end RegexMachine
