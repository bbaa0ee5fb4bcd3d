import RegexMachine.Pattern.Cursor
import RegexMachine.Program.NameTable

/-!
Final numbers of groups. Where only named groups capture, plain groups lose their numbers and the
others move up; then every reference, call and condition is bound to the groups it means.
-/
namespace RegexMachine.Pattern

structure Numbering where
  /-- Final number of the group that was opened with number `i + 1`. -/
  numbers : Array (Option Nat)
  /-- Largest number given. -/
  count : Nat
  names : NameTable

namespace Numbering

def empty : Numbering := ⟨#[], 0, NameTable.empty⟩

/-- Gives the next group its number, or none where it does not capture. -/
def add (onlyNamed : Bool) (n : Numbering) (d : GroupDef) : Numbering :=
  if onlyNamed && d.plain then ⟨n.numbers.push none, n.count, n.names⟩
  else
    let names :=
      match d.name with
      | none => n.names
      | some name => n.names.insert name (n.count + 1)
    ⟨n.numbers.push (some (n.count + 1)), n.count + 1, names⟩

def ofDefs (onlyNamed : Bool) (defs : Array GroupDef) : Numbering :=
  defs.foldl (add onlyNamed) empty

/-- Final number of a group. -/
def number? (n : Numbering) (raw : Nat) : Option Nat :=
  if raw = 0 then none else (n.numbers[raw - 1]?).join

/-- Groups that a target means. -/
def targets? (n : Numbering) : Target → Option (List Nat)
  | .name s => n.names.groups? s
  | .number raw => (n.number? raw).map ([·])
  | .relative raw => (n.number? raw).map ([·])

/-- What is wrong with a reference that means nothing. -/
def unboundReference : Target → Flaw
  | .name s => .undefinedName s
  | _ => .invalidReference

def unboundCall : Target → Flaw
  | .name s => .undefinedName s
  | t => .undefinedGroup t.text

def bindReference (n : Numbering) (span : Span) (t : Target) : Except PatternError (List Nat) :=
  match n.targets? t with
  | some gs => .ok gs
  | none => .error ⟨unboundReference t, span⟩

/-- A call means one group, or the whole pattern. -/
def bindCall (n : Numbering) (span : Span) (t : Target) : Except PatternError Nat :=
  if t = .number 0 then .ok 0
  else
    match n.targets? t with
    | some [g] => .ok g
    | some _ => .error ⟨.ambiguousCall t.text, span⟩
    | none => .error ⟨unboundCall t, span⟩

def bindAtom (n : Numbering) (span : Span) : Atom → Except PatternError Atom
  | .backref t _ fold => return .backref t (← n.bindReference span t) fold
  | .call t _ => return .call t (← n.bindCall span t)
  | a => .ok a

/-- A capture group without a number becomes a plain group. -/
def bindGrouping (n : Numbering) : Grouping → Grouping
  | .capture raw name =>
    match n.number? raw with
    | some g => .capture g name
    | none => .plain
  | k => k

mutual

/-- Numbers the groups of a tree and binds what means them, parents first. -/
def bind (n : Numbering) : Node Span → Except PatternError (Node Span)
  | .atom s a => return .atom s (← n.bindAtom s a)
  | .repeated s b m body => return .repeated s b m (← bind n body)
  | .group s k body => return .group s (n.bindGrouping k) (← bind n body)
  | .conditional s t _ yes no => do
    let gs ← n.bindReference s t
    let yes ← bind n yes
    return .conditional s t gs yes (← bindOption n no)
  | .look s k body => return .look s k (← bind n body)
  | .sequence s items => return .sequence s (← bindAll n items [])
  | .alternation s branches => return .alternation s (← bindAll n branches [])

def bindOption (n : Numbering) : Option (Node Span) → Except PatternError (Option (Node Span))
  | none => .ok none
  | some m => return some (← bind n m)

/-- Nodes done so far come last first. -/
def bindAll (n : Numbering) :
    List (Node Span) → List (Node Span) → Except PatternError (List (Node Span))
  | [], done => .ok done.reverse
  | m :: ms, done => do
    let m ← bind n m
    bindAll n ms (m :: done)

end
end Numbering
end RegexMachine.Pattern
