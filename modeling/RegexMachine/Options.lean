import RegexMachine.FlagSet

/-!
Options of a pattern and of a search.
-/
namespace RegexMachine

/-- Options fixed when a pattern is compiled. -/
inductive CompileFlag where
  /-- Letters match whatever their case. -/
  | ignoreCase
  /-- White space and comments in the pattern are skipped. -/
  | extended
  /-- The dot also matches a newline. -/
  | dotAll
  /-- The line anchors hold only at the ends of the subject. -/
  | singleLine
  | findLongest | findNotEmpty
  /-- Cancels `singleLine` where it comes from the dialect. -/
  | negateSingleLine
  /-- Plain groups do not capture. -/
  | silentGroups
  /-- Plain groups capture even beside named ones. -/
  | capturingGroups
  /-- Every completed span of every group is kept. -/
  | captureHistory
  | asciiWord | asciiDigit | asciiSpace | asciiPosix
deriving DecidableEq, Repr, Inhabited

instance : Flag CompileFlag where
  all := [.ignoreCase, .extended, .dotAll, .singleLine, .findLongest, .findNotEmpty,
    .negateSingleLine, .silentGroups, .capturingGroups, .captureHistory, .asciiWord,
    .asciiDigit, .asciiSpace, .asciiPosix]
  bit f := f.ctorIdx
  label
    | .ignoreCase => "IGNORECASE"
    | .extended => "EXTEND"
    | .dotAll => "MULTILINE"
    | .singleLine => "SINGLELINE"
    | .findLongest => "FIND_LONGEST"
    | .findNotEmpty => "FIND_NOT_EMPTY"
    | .negateSingleLine => "NEGATE_SINGLE_LINE"
    | .silentGroups => "DONT_CAPTURE_GROUP"
    | .capturingGroups => "CAPTURE_GROUP"
    | .captureHistory => "CAPTURE_HISTORY"
    | .asciiWord => "WORD_IS_ASCII"
    | .asciiDigit => "DIGIT_IS_ASCII"
    | .asciiSpace => "SPACE_IS_ASCII"
    | .asciiPosix => "POSIX_IS_ASCII"

/-- Options of one search. -/
inductive SearchFlag where
  /-- The start of the subject is no beginning of a line. -/
  | notBol
  /-- The end of the subject is no end of a line. -/
  | notEol
  | findLongest | findNotEmpty
deriving DecidableEq, Repr, Inhabited

instance : Flag SearchFlag where
  all := [.notBol, .notEol, .findLongest, .findNotEmpty]
  bit f := f.ctorIdx
  label
    | .notBol => "NOTBOL"
    | .notEol => "NOTEOL"
    | .findLongest => "FIND_LONGEST"
    | .findNotEmpty => "FIND_NOT_EMPTY"

abbrev Options := FlagSet CompileFlag

abbrev SearchOptions := FlagSet SearchFlag

/-- Search options that compile options imply. -/
def Options.searchDefaults (o : Options) : SearchOptions :=
  (FlagSet.empty.set SearchFlag.findLongest (o.has .findLongest)).set .findNotEmpty
    (o.has .findNotEmpty)

end RegexMachine
