import RegexMachine.Unicode.Age
import RegexMachine.Unicode.Binary
import RegexMachine.Unicode.Boundary
import RegexMachine.Unicode.Script

/-!
Looking up a set of code points by the name of a property: a yes-or-no property, a general category,
a script, or `property=value` for a property that has values. Names match whatever their case,
blanks, hyphens and underscores, and with or without a leading `is`.
-/
namespace RegexMachine.Unicode

def isSeparator (c : Char) : Bool := c == ' ' || c == '_' || c == '-'

/-- Lower case of an ASCII name, without separators. -/
def squeeze (name : List Char) : String :=
  String.ofList ((name.filter (!isSeparator ·)).map Char.toLower)

/-- A name as the tables spell it. `isc` stays whole: its rest would name another property. -/
def looseName (name : List Char) : String :=
  match name with
  | a :: b :: rest =>
    if a.toLower == 'i' && b.toLower == 's' then
      let s := squeeze rest
      if s == "c" then "isc" else s
    else squeeze name
  | _ => squeeze name

def category? (name : String) : Option CodeSet :=
  if name == "any" then some ⟨[⟨0, 0x10FFFF⟩]⟩
  else if name == "ascii" then some ⟨[⟨0, 0x7F⟩]⟩
  else if name == "assigned" then
    some ((categories [.unassigned, .surrogate]).complement 0x10FFFF)
  else (categoryNames.find? (·.1.contains name)).map fun e => categories e.2

def binary? (name : String) : Option CodeSet :=
  (BinaryProperty.named? name).map BinaryProperty.members

def script? (name : String) : Option CodeSet := (Script.named? name).map Script.members

/-- Set with a value of a property that has values. -/
def valued? (property value : String) : Option CodeSet :=
  if property == "gc" || property == "generalcategory" then category? value
  else if property == "sc" || property == "script" then script? value
  else if property == "scx" || property == "scriptextensions" then
    (Script.named? value).map Script.extensions
  else if property == "age" then age? value
  else if property == "gcb" || property == "graphemeclusterbreak" then
    Boundary.members? Boundary.graphemeClasses value
  else if property == "wb" || property == "wordbreak" then
    Boundary.members? Boundary.wordClasses value
  else if property == "sb" || property == "sentencebreak" then
    Boundary.members? Boundary.sentenceClasses value
  else none

/-- Splits a name at the first occurrence of a character. -/
def splitAt? (c : Char) (name : List Char) : Option (List Char × List Char) :=
  if name.contains c then some (name.takeWhile (· != c), (name.dropWhile (· != c)).drop 1) else none

/-- Set of code points with a property, by a name of ASCII characters. -/
def propertySet? (name : List Char) : Option CodeSet :=
  match splitAt? ':' name <|> splitAt? '=' name with
  | some (property, value) => valued? (looseName property) (looseName value)
  | none =>
    let n := looseName name
    -- These three also abbreviate properties that are not sets; the category is meant.
    let narrow := if n == "cf" || n == "sc" || n == "lc" then none else binary? n
    narrow <|> category? n <|> script? n

end RegexMachine.Unicode
