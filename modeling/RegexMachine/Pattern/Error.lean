import RegexMachine.Span

/-!
What can be wrong with a pattern. Every flaw has a fixed message and a fixed code, and is blamed on
a span of the pattern.
-/
namespace RegexMachine

inductive Flaw where
  | endAtLeftBrace | endAtLeftBracket | emptyClass | unclosedClass | endAtEscape | endAtMeta
  | endAtControl | metaNotation | controlNotation | setAtRangeEnd | setAtRangeStart
  | nothingToRepeat | invalidRepeatTarget | nestedRepeat | strayClose | unclosedGroup
  | endInGroup | undefinedGroupOption | invalidGroupOption | invalidPosixBracket
  | invalidLookBehind | invalidInterval | numberTooBig | repeatTooBig | boundsReversed
  | emptyRange | referenceTooBig | invalidReference | numberedReference | tooManyCaptures
  | emptyName
  | invalidName (name : String)
  | invalidNameChar (name : String)
  | undefinedName (name : String)
  | undefinedGroup (name : String)
  | nameTaken (name : String)
  | ambiguousCall (name : String)
  | endlessRecursion
  | invalidProperty (name : String)
  | invalidCondition | invalidAbsent | invalidCodePoint | codePointTooBig
  | unsupported (what : String)
  | tooDeep | conflictingOptions
deriving DecidableEq, Repr

namespace Flaw

def message : Flaw → String
  | endAtLeftBrace => "end pattern at left brace"
  | endAtLeftBracket => "end pattern at left bracket"
  | emptyClass => "empty char-class"
  | unclosedClass => "premature end of char-class"
  | endAtEscape => "end pattern at escape"
  | endAtMeta => "end pattern at meta"
  | endAtControl => "end pattern at control"
  | metaNotation => "invalid meta-code syntax"
  | controlNotation => "invalid control-code syntax"
  | setAtRangeEnd => "char-class value at end of range"
  | setAtRangeStart => "char-class value at start of range"
  | nothingToRepeat => "target of repeat operator is not specified"
  | invalidRepeatTarget => "target of repeat operator is invalid"
  | nestedRepeat => "nested repeat operator"
  | strayClose => "unmatched close parenthesis"
  | unclosedGroup => "end pattern with unmatched parenthesis"
  | endInGroup => "end pattern in group"
  | undefinedGroupOption => "undefined group option"
  | invalidGroupOption => "invalid group option"
  | invalidPosixBracket => "invalid POSIX bracket type"
  | invalidLookBehind => "invalid pattern in look-behind"
  | invalidInterval => "invalid repeat range \x7blower,upper\x7d"
  | numberTooBig => "too big number"
  | repeatTooBig => "too big number for repeat range"
  | boundsReversed => "upper bound is smaller than lower bound in repeat range"
  | emptyRange => "empty range in char class"
  | referenceTooBig => "too big backref number"
  | invalidReference => "invalid backref number/name"
  | numberedReference => "numbered backref/call is not allowed (use name)"
  | tooManyCaptures => "too many captures"
  | emptyName => "group name is empty"
  | invalidName name => "invalid group name <" ++ name ++ ">"
  | invalidNameChar name => "invalid char in group name <" ++ name ++ ">"
  | undefinedName name => "undefined name <" ++ name ++ "> reference"
  | undefinedGroup name => "undefined group <" ++ name ++ "> reference"
  | nameTaken name => "multiplex defined name <" ++ name ++ ">"
  | ambiguousCall name => "multiplex definition name <" ++ name ++ "> call"
  | endlessRecursion => "never ending recursion"
  | invalidProperty name => "invalid character property name \x7b" ++ name ++ "\x7d"
  | invalidCondition => "invalid if-else syntax"
  | invalidAbsent => "invalid absent group pattern"
  | invalidCodePoint => "invalid code point value"
  | codePointTooBig => "too big wide-char value"
  | unsupported what => what ++ " is not supported by this syntax"
  | tooDeep => "parse depth limit over"
  | conflictingOptions => "invalid combination of options"

/-- Fixed numeric code, grouped by what went wrong. -/
def code : Flaw → Int
  | tooDeep => -16
  | endAtLeftBrace => -100
  | endAtLeftBracket => -101
  | emptyClass => -102
  | unclosedClass => -103
  | endAtEscape => -104
  | endAtMeta => -105
  | endAtControl => -106
  | metaNotation => -108
  | controlNotation => -109
  | setAtRangeEnd => -110
  | setAtRangeStart => -111
  | nothingToRepeat => -113
  | invalidRepeatTarget => -114
  | nestedRepeat => -115
  | strayClose => -116
  | unclosedGroup => -117
  | endInGroup => -118
  | undefinedGroupOption => -119
  | invalidGroupOption => -120
  | invalidPosixBracket => -121
  | invalidLookBehind => -122
  | invalidInterval => -123
  | numberTooBig => -200
  | repeatTooBig => -201
  | boundsReversed => -202
  | emptyRange => -203
  | referenceTooBig => -207
  | invalidReference => -208
  | numberedReference => -209
  | tooManyCaptures => -210
  | emptyName => -214
  | invalidName _ => -215
  | invalidNameChar _ => -216
  | undefinedName _ => -217
  | undefinedGroup _ => -218
  | nameTaken _ => -219
  | ambiguousCall _ => -220
  | endlessRecursion => -221
  | invalidProperty _ => -223
  | invalidCondition => -224
  | invalidAbsent => -225
  | unsupported _ => -230
  | invalidCodePoint => -400
  | codePointTooBig => -401
  | conflictingOptions => -403

end Flaw

/-- A rejected pattern. -/
structure PatternError where
  flaw : Flaw
  span : Span
deriving DecidableEq, Repr

namespace PatternError

def message (e : PatternError) : String := e.flaw.message ++ " at offset " ++ toString e.span.start

def code (e : PatternError) : Int := e.flaw.code

def offset (e : PatternError) : Nat := e.span.start

end PatternError
end RegexMachine
