/-!
Names of groups. Several groups may have one name; names stand in the order in which they were
first given.
-/
namespace RegexMachine

structure NameTable where
  entries : List (String × List Nat)
deriving DecidableEq, Repr

namespace NameTable

def empty : NameTable := ⟨[]⟩

/-- Records one more group under a name. -/
def insertInto (name : String) (group : Nat) :
    List (String × List Nat) → List (String × List Nat)
  | [] => [(name, [group])]
  | (n, gs) :: rest =>
    if n == name then (n, if gs.contains group then gs else gs ++ [group]) :: rest
    else (n, gs) :: insertInto name group rest

def insert (t : NameTable) (name : String) (group : Nat) : NameTable :=
  ⟨insertInto name group t.entries⟩

/-- Groups with a name. -/
def groups? (t : NameTable) (name : String) : Option (List Nat) := t.entries.lookup name

/-- The group a name stands for: the last one that has a span, or else the last one. -/
def resolve? (t : NameTable) (name : String) (isSet : Nat → Bool) : Option Nat :=
  (t.groups? name).bind fun gs => (gs.reverse.find? isSet).or gs.getLast?

def nameOf? (t : NameTable) (group : Nat) : Option String :=
  (t.entries.find? (·.2.contains group)).map (·.1)

/-- Drops numbers that equal the one before. -/
def distinct : List Nat → List Nat
  | [] => []
  | [a] => [a]
  | a :: b :: rest => if a == b then distinct (b :: rest) else a :: distinct (b :: rest)

/-- Gives groups new numbers; groups without one are dropped, and names without groups too. -/
def renumber (t : NameTable) (f : Nat → Option Nat) : NameTable :=
  let moved := t.entries.map fun (n, gs) => (n, distinct ((gs.filterMap f).mergeSort (· ≤ ·)))
  ⟨moved.filter fun e => !e.2.isEmpty⟩

def length (t : NameTable) : Nat := t.entries.length

def isEmpty (t : NameTable) : Bool := t.entries.isEmpty

end NameTable
end RegexMachine
