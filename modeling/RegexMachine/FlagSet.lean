/-!
Finite sets of named flags. A flag type lists its members in the order of their bits; a set of
flags is the number with those bits.
-/
namespace RegexMachine

class Flag (α : Type) where
  /-- All flags, in the order of their bits. -/
  all : List α
  bit : α → Nat
  /-- Published name. -/
  label : α → String

structure FlagSet (α : Type) where
  bits : Nat
deriving DecidableEq, Repr, Inhabited

namespace FlagSet
variable {α : Type} [Flag α]

def empty : FlagSet α := ⟨0⟩

def has (s : FlagSet α) (f : α) : Bool := s.bits.testBit (Flag.bit f)

def insert (s : FlagSet α) (f : α) : FlagSet α := ⟨s.bits ||| 1 <<< Flag.bit f⟩

def union (s t : FlagSet α) : FlagSet α := ⟨s.bits ||| t.bits⟩

def inter (s t : FlagSet α) : FlagSet α := ⟨s.bits &&& t.bits⟩

def erase (s : FlagSet α) (f : α) : FlagSet α :=
  if s.has f then ⟨s.bits ^^^ 1 <<< Flag.bit f⟩ else s

def set (s : FlagSet α) (f : α) (on : Bool) : FlagSet α := if on then s.insert f else s.erase f

def ofList (fs : List α) : FlagSet α := fs.foldl insert empty

def toList (s : FlagSet α) : List α := Flag.all.filter s.has

def isEmpty (s : FlagSet α) : Bool := s.bits == 0

/-- Published names of the members, in the order of their bits. -/
def names (s : FlagSet α) : List String := s.toList.map Flag.label

/-- The flag with a published name. -/
def named? (name : String) : Option α := Flag.all.find? fun f => Flag.label f == name

end FlagSet
end RegexMachine
