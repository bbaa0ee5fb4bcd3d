/-!
Anchors: conditions on a position of the subject that consume nothing.
-/
namespace RegexMachine

inductive Anchor where
  | beginBuffer | endBuffer
  /-- The end, or the place before a line break that ends the subject. -/
  | semiEndBuffer
  | beginLine | endLine
  /-- The place where the search began. -/
  | beginPosition
  | wordBoundary (ascii : Bool)
  | notWordBoundary (ascii : Bool)
  | wordBegin (ascii : Bool)
  | wordEnd (ascii : Bool)
deriving DecidableEq, Repr

end RegexMachine
