import RegexMachine.RangeTable
import RegexMachine.Unicode.Property

/-!
Character types: the named classes of the bracket syntax, and properties found by name. Every type
has a sorted range table over all of Unicode.
-/
namespace RegexMachine

/-- A property found by name: the name as it was first written, and its members. -/
structure Property where
  name : String
  table : RangeTable
deriving DecidableEq, Repr, Inhabited

inductive CharType where
  | newline | alpha | blank | cntrl | digit | graph | lower | print | punct | space | upper | xdigit
  | word | alnum | ascii | any
  | property (p : Property)
deriving DecidableEq, Repr, Inhabited

namespace CharType
open Unicode

def spaceSet : CodeSet :=
  (CodeSet.union ⟨[⟨0x09, 0x0D⟩, ⟨0x85, 0x85⟩]⟩ (categories separators)).normalize

/-- Everything that leaves a mark on paper, private characters included. -/
def graphSet : CodeSet :=
  (spaceSet.union (categories [.control, .unassigned, .surrogate])).complement 0x10FFFF

def newlineTable : RangeTable := RangeTable.ofSet ⟨[⟨0x0A, 0x0A⟩]⟩
def alphaTable : RangeTable := RangeTable.ofSet (categories (letters ++ marks))
def blankTable : RangeTable :=
  RangeTable.ofSet (CodeSet.union ⟨[⟨0x09, 0x09⟩]⟩ (categories [.spaceSeparator]))
def cntrlTable : RangeTable :=
  RangeTable.ofSet (categories [.control, .format, .unassigned, .privateUse])
def digitTable : RangeTable := RangeTable.ofSet (categories [.decimalNumber])
def graphTable : RangeTable := RangeTable.ofSet graphSet
def lowerTable : RangeTable := RangeTable.ofSet (categories [.lowercaseLetter])
def printTable : RangeTable := RangeTable.ofSet (graphSet.union (categories [.spaceSeparator]))
def punctTable : RangeTable :=
  RangeTable.ofSet (CodeSet.union
    ⟨[⟨0x24, 0x24⟩, ⟨0x2B, 0x2B⟩, ⟨0x3C, 0x3E⟩, ⟨0x5E, 0x5E⟩, ⟨0x60, 0x60⟩, ⟨0x7C, 0x7C⟩,
      ⟨0x7E, 0x7E⟩]⟩
    (categories punctuation))
def spaceTable : RangeTable := RangeTable.ofSet spaceSet
def upperTable : RangeTable := RangeTable.ofSet (categories [.uppercaseLetter])
def xdigitTable : RangeTable := RangeTable.ofSet ⟨[⟨0x30, 0x39⟩, ⟨0x41, 0x46⟩, ⟨0x61, 0x66⟩]⟩
def wordTable : RangeTable :=
  RangeTable.ofSet (categories (letters ++ marks ++ [.decimalNumber, .connectorPunctuation]))
def alnumTable : RangeTable := RangeTable.ofSet (categories (letters ++ marks ++ [.decimalNumber]))
def asciiTable : RangeTable := RangeTable.ofSet ⟨[⟨0x00, 0x7F⟩]⟩
def anyTable : RangeTable := RangeTable.ofSet ⟨[⟨0x00, 0x10FFFF⟩]⟩

def table : CharType → RangeTable
  | newline => newlineTable | alpha => alphaTable | blank => blankTable | cntrl => cntrlTable
  | digit => digitTable | graph => graphTable | lower => lowerTable | print => printTable
  | punct => punctTable | space => spaceTable | upper => upperTable | xdigit => xdigitTable
  | word => wordTable | alnum => alnumTable | ascii => asciiTable | any => anyTable
  | property p => p.table

/-- Whether a code point has the type. -/
def holds (t : CharType) (c : Nat) : Bool :=
  match t with
  | any => c ≤ 0x10FFFF
  | newline => c == 0x0A
  | t => t.table.contains c

def name : CharType → String
  | newline => "newline" | alpha => "alpha" | blank => "blank" | cntrl => "cntrl"
  | digit => "digit" | graph => "graph" | lower => "lower" | print => "print"
  | punct => "punct" | space => "space" | upper => "upper" | xdigit => "xdigit"
  | word => "word" | alnum => "alnum" | ascii => "ascii" | any => "any"
  | property p => p.name

/-- Types that may stand between `[:` and `:]`. -/
def bracketTypes : List CharType :=
  [alnum, alpha, ascii, blank, cntrl, digit, graph, lower, print, punct, space, upper, xdigit, word]

def ofBracket? (s : String) : Option CharType := bracketTypes.find? (·.name == s)

/-- Types that every encoding resolves as properties. -/
def ofKey? (key : String) : Option CharType :=
  (any :: newline :: bracketTypes).find? (·.name == key)

end CharType

/-- Properties found so far, with the key each was found under. -/
structure PropertyRegistry where
  known : List (String × Property)
deriving DecidableEq, Repr, Inhabited

namespace PropertyRegistry

def empty : PropertyRegistry := ⟨[]⟩

/-- Lower case of the characters whose lower case is ASCII: capital letters and the Kelvin sign. -/
def lowerChar (c : Char) : Char := if c.toNat == 0x212A then 'k' else c.toLower

/-- The part of a name that lookup compares. -/
def key (name : String) : String :=
  String.ofList ((name.toList.filter (!Unicode.isSeparator ·)).map lowerChar)

/-- Characters a property name may hold. -/
def isNameChar (c : Char) : Bool :=
  c.isAlphanum || Unicode.isSeparator c || c == '=' || c == ':' || c == '.'

/-- Finds a property by name. A name like one that was found before stands for the same property,
under the earlier spelling. -/
def resolve (r : PropertyRegistry) (name : String) : Option Property × PropertyRegistry :=
  let k := key name
  match r.known.find? (·.1 == k) with
  | some (_, p) => (some p, r)
  | none =>
    if name.toList.all isNameChar then
      match Unicode.propertySet? name.toList with
      | some s =>
        let p : Property := ⟨name, RangeTable.ofSet s⟩
        (some p, ⟨(k, p) :: r.known⟩)
      | none => (none, r)
    else (none, r)

end PropertyRegistry
end RegexMachine
