import RegexMachine.Pattern.Grammar
import RegexMachine.Pattern.Numbering

/-!
From the bytes of a pattern to its tree.
-/
namespace RegexMachine

/-- A pattern that has been read, with its groups numbered and its references bound. -/
structure PatternTree (α : Type) where
  root : Node α
  captures : Nat
  names : NameTable
  /-- The pattern calls itself as a whole. -/
  callsWhole : Bool

/-- Options in effect at the start of a pattern: those of the dialect and of the caller. -/
def Dialect.effectiveOptions (d : Dialect) (o : Options) : Except PatternError Options :=
  if o.has .silentGroups && o.has .capturingGroups then .error ⟨.conflictingOptions, ⟨0, 0⟩⟩
  else
    let all := d.options.union o
    if o.has .negateSingleLine then .ok ((all.erase .singleLine).erase .negateSingleLine)
    else .ok all

namespace Pattern

/-- Whether plain groups lose their numbers. -/
def onlyNamed (d : Dialect) (c : Cursor) : Bool :=
  c.hasNamed && d.behaves .onlyNamedCapture && !c.options.has .capturingGroups

/-- Numbers the groups and binds the references of a tree. -/
def resolve (d : Dialect) (c : Cursor) (root : Node Span) :
    Except PatternError (PatternTree Span) := do
  let only := onlyNamed d c
  if only then
    if let some span := c.firstNumbered then throw ⟨.numberedReference, span⟩
  let n := Numbering.ofDefs only c.groups
  return ⟨← n.bind root, n.count, n.names, c.callsWhole⟩

/-- Reads a pattern under the options given. Properties found on the way are remembered, also when
the pattern is rejected. -/
def parse (s : Setting) (options : Options) (properties : PropertyRegistry) :
    Except Failure (PatternTree Span) × PropertyRegistry :=
  match readPattern s.reading (Cursor.start options properties) with
  | .error e c => (.error e, c.properties)
  | .ok root c => ((resolve s.dialect c root).mapError .rejected, c.properties)

end Pattern
end RegexMachine
