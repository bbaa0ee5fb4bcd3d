import RegexMachine.Options

/-!
Dialects of pattern notation. A dialect says which operators and escapes exist, how ambiguous
constructs are read, and which options every pattern starts with.
-/
namespace RegexMachine

/-- Operators and escapes a dialect may have. -/
inductive Operator where
  | dot | star | escStar | plus | escPlus | question | escQuestion | interval | escInterval |
  bar | escBar | paren | escParen
  /-- Notation `\A`, `\Z` and `\z`. -/
  | bufferAnchors
  /-- Notation `\G`. -/
  | searchAnchor
  /-- Notation `\1` and on. -/
  | decimalRef
  | bracket | wordEscape
  /-- Notation `\<` and `\>`. -/
  | wordEdges
  | wordBoundary | spaceEscape | digitEscape
  /-- Notation `^` and `$`. -/
  | lineAnchors
  /-- Notation `[:alpha:]` inside brackets. -/
  | posixBracket
  /-- Notation `?` after a repeat makes it lazy. -/
  | lazyQuestion
  /-- Notation `\t`, `\n`, `\r`, `\f`, `\a` and `\e`. -/
  | controlEscapes
  /-- Notation `\cX`. -/
  | controlChar
  | octal3 | hex2 | bracedHex | bracedOctal
  /-- Notation `\Q...\E`. -/
  | quote
  /-- Notation `(?...)`. -/
  | groupExtensions
  /-- Option letters where `s` is dot-all and `m` is multi-line. -/
  | perlOptions
  /-- Option letters where `m` is dot-all. -/
  | rubyOptions
  | possessiveRepeat | possessiveInterval
  /-- Notation `&&` and nested brackets. -/
  | setOperations
  /-- Notation `(?<name>...)` and `(?'name'...)`. -/
  | namedGroup
  /-- Notation `\k<name>`. -/
  | namedRef
  /-- Notation `\g<name>` and `\g<n>`. -/
  | calls
  | verticalTab
  /-- Notation `\uHHHH`. -/
  | hex4
  /-- Notation `\p{...}`. -/
  | propertyEscape
  /-- Notation `^` before a property name negates it. -/
  | propertyCaret
  /-- Notation `\h` is a hexadecimal digit, not horizontal space. -/
  | hexDigitEscape
  /-- Notation `(?(cond)yes|no)`. -/
  | conditional
  /-- Notation `\K`. -/
  | keep
  /-- Notation `\R`. -/
  | newlineEscape
  /-- Notation `\N`. -/
  | nonNewline
  /-- Notation `(?~...)`. -/
  | absent
  /-- Notation `(?|...)`. -/
  | branchReset
  /-- Notation `(?R)`, `(?1)` and `(?&name)`. -/
  | perlCalls
  /-- Notation `(?P<name>...)`, `(?P=name)` and `(?P>name)`. -/
  | namedByP
deriving DecidableEq, Repr, Inhabited

instance : Flag Operator where
  all := [.dot, .star, .escStar, .plus, .escPlus, .question, .escQuestion, .interval, .escInterval,
    .bar, .escBar, .paren, .escParen, .bufferAnchors, .searchAnchor, .decimalRef, .bracket,
    .wordEscape, .wordEdges, .wordBoundary, .spaceEscape, .digitEscape, .lineAnchors,
    .posixBracket, .lazyQuestion, .controlEscapes, .controlChar, .octal3, .hex2, .bracedHex,
    .bracedOctal, .quote, .groupExtensions, .perlOptions, .rubyOptions, .possessiveRepeat,
    .possessiveInterval, .setOperations, .namedGroup, .namedRef, .calls, .verticalTab, .hex4,
    .propertyEscape, .propertyCaret, .hexDigitEscape, .conditional, .keep, .newlineEscape,
    .nonNewline, .absent, .branchReset, .perlCalls, .namedByP]
  bit f := f.ctorIdx
  label
    | .dot => "DOT_ANYCHAR"
    | .star => "ASTERISK_ZERO_INF"
    | .escStar => "ESC_ASTERISK_ZERO_INF"
    | .plus => "PLUS_ONE_INF"
    | .escPlus => "ESC_PLUS_ONE_INF"
    | .question => "QMARK_ZERO_ONE"
    | .escQuestion => "ESC_QMARK_ZERO_ONE"
    | .interval => "BRACE_INTERVAL"
    | .escInterval => "ESC_BRACE_INTERVAL"
    | .bar => "VBAR_ALT"
    | .escBar => "ESC_VBAR_ALT"
    | .paren => "LPAREN_SUBEXP"
    | .escParen => "ESC_LPAREN_SUBEXP"
    | .bufferAnchors => "ESC_AZ_BUF_ANCHOR"
    | .searchAnchor => "ESC_CAPITAL_G_BEGIN_ANCHOR"
    | .decimalRef => "DECIMAL_BACKREF"
    | .bracket => "BRACKET_CC"
    | .wordEscape => "ESC_W_WORD"
    | .wordEdges => "ESC_LTGT_WORD_BEGIN_END"
    | .wordBoundary => "ESC_B_WORD_BOUND"
    | .spaceEscape => "ESC_S_WHITE_SPACE"
    | .digitEscape => "ESC_D_DIGIT"
    | .lineAnchors => "LINE_ANCHOR"
    | .posixBracket => "POSIX_BRACKET"
    | .lazyQuestion => "QMARK_NON_GREEDY"
    | .controlEscapes => "ESC_CONTROL_CHARS"
    | .controlChar => "ESC_C_CONTROL"
    | .octal3 => "ESC_OCTAL3"
    | .hex2 => "ESC_X_HEX2"
    | .bracedHex => "ESC_X_BRACE_HEX8"
    | .bracedOctal => "ESC_O_BRACE_OCTAL"
    | .quote => "ESC_CAPITAL_Q_QUOTE"
    | .groupExtensions => "QMARK_GROUP_EFFECT"
    | .perlOptions => "OPTION_PERL"
    | .rubyOptions => "OPTION_RUBY"
    | .possessiveRepeat => "PLUS_POSSESSIVE_REPEAT"
    | .possessiveInterval => "PLUS_POSSESSIVE_INTERVAL"
    | .setOperations => "CCLASS_SET_OP"
    | .namedGroup => "QMARK_LT_NAMED_GROUP"
    | .namedRef => "ESC_K_NAMED_BACKREF"
    | .calls => "ESC_G_SUBEXP_CALL"
    | .verticalTab => "ESC_V_VTAB"
    | .hex4 => "ESC_U_HEX4"
    | .propertyEscape => "ESC_P_BRACE_CHAR_PROPERTY"
    | .propertyCaret => "ESC_P_BRACE_CIRCUMFLEX_NOT"
    | .hexDigitEscape => "ESC_H_XDIGIT"
    | .conditional => "QMARK_LPAREN_IF_ELSE"
    | .keep => "ESC_CAPITAL_K_KEEP"
    | .newlineEscape => "ESC_CAPITAL_R_GENERAL_NEWLINE"
    | .nonNewline => "ESC_CAPITAL_N_O_SUPER_DOT"
    | .absent => "QMARK_TILDE_ABSENT_GROUP"
    | .branchReset => "QMARK_VBAR_BRANCH_RESET"
    | .perlCalls => "QMARK_PERL_SUBEXP_CALL"
    | .namedByP => "QMARK_CAPITAL_P_NAME"

/-- How a dialect reads what its operators leave open. -/
inductive Behavior where
  | anchorsAnywhere
  /-- Repeat operators are operators wherever they stand. -/
  | repeatsAnywhere
  /-- A repeat operator with nothing to repeat is an error, not a literal. -/
  | danglingRepeatInvalid
  /-- A closing parenthesis without an opening one is a literal. -/
  | looseClose
  /-- A brace that begins no interval is a literal. -/
  | looseInterval
  /-- An interval may leave out its lower bound. -/
  | openLowInterval
  | strictReferences
  /-- Branches of a lookbehind may differ in length; each becomes a lookbehind. -/
  | splitLookbehind
  /-- Plain groups do not capture beside named ones. -/
  | onlyNamedCapture
  /-- Several groups may have one name. -/
  | sharedNames
  /-- Notation `?` after a fixed interval is a repeat of its own. -/
  | fixedIntervalGreedy
  /-- Lookbehind bodies may vary in length. -/
  | variableLookbehind
  /-- A negated bracket does not match a newline. -/
  | negatedSkipsNewline
  | escapesInBrackets
  /-- A range that runs backwards is empty, not an error. -/
  | emptyRanges
  | doubleRanges
  /-- A reference to a group without a span matches the empty text. -/
  | unsetMatchesEmpty
  /-- A repeat may not be repeated directly. -/
  | noStackedRepeats
deriving DecidableEq, Repr, Inhabited

instance : Flag Behavior where
  all := [.anchorsAnywhere, .repeatsAnywhere, .danglingRepeatInvalid, .looseClose, .looseInterval,
    .openLowInterval, .strictReferences, .splitLookbehind, .onlyNamedCapture, .sharedNames,
    .fixedIntervalGreedy, .variableLookbehind, .negatedSkipsNewline, .escapesInBrackets,
    .emptyRanges, .doubleRanges, .unsetMatchesEmpty, .noStackedRepeats]
  bit f := f.ctorIdx
  label
    | .anchorsAnywhere => "CONTEXT_INDEP_ANCHORS"
    | .repeatsAnywhere => "CONTEXT_INDEP_REPEAT_OPS"
    | .danglingRepeatInvalid => "CONTEXT_INVALID_REPEAT_OPS"
    | .looseClose => "ALLOW_UNMATCHED_CLOSE_SUBEXP"
    | .looseInterval => "ALLOW_INVALID_INTERVAL"
    | .openLowInterval => "ALLOW_INTERVAL_LOW_ABBREV"
    | .strictReferences => "STRICT_CHECK_BACKREF"
    | .splitLookbehind => "DIFFERENT_LEN_ALT_LOOK_BEHIND"
    | .onlyNamedCapture => "CAPTURE_ONLY_NAMED_GROUP"
    | .sharedNames => "ALLOW_MULTIPLEX_DEFINITION_NAME"
    | .fixedIntervalGreedy => "FIXED_INTERVAL_IS_GREEDY_ONLY"
    | .variableLookbehind => "VARIABLE_LEN_LOOK_BEHIND"
    | .negatedSkipsNewline => "NOT_NEWLINE_IN_NEGATIVE_CC"
    | .escapesInBrackets => "BACKSLASH_ESCAPE_IN_CC"
    | .emptyRanges => "ALLOW_EMPTY_RANGE_IN_CC"
    | .doubleRanges => "ALLOW_DOUBLE_RANGE_OP_IN_CC"
    | .unsetMatchesEmpty => "BACKREF_UNSET_MATCHES_EMPTY"
    | .noStackedRepeats => "FORBID_NESTED_REPEAT"

structure Dialect where
  operators : FlagSet Operator
  behavior : FlagSet Behavior
  /-- Options every pattern of the dialect starts with. -/
  options : Options
deriving DecidableEq, Repr, Inhabited

namespace Dialect

def allows (d : Dialect) (op : Operator) : Bool := d.operators.has op

def behaves (d : Dialect) (b : Behavior) : Bool := d.behavior.has b

def commonOperators : FlagSet Operator := FlagSet.ofList [.dot, .bracket, .posixBracket,
    .decimalRef, .interval, .paren, .bar, .star, .plus, .question, .bufferAnchors, .searchAnchor,
    .wordEscape, .wordBoundary, .spaceEscape, .digitEscape, .lineAnchors]

def commonBehavior : FlagSet Behavior := FlagSet.ofList [.anchorsAnywhere, .repeatsAnywhere,
    .danglingRepeatInvalid, .looseInterval, .escapesInBrackets, .doubleRanges]

def charEscapes : FlagSet Operator := FlagSet.ofList [.lazyQuestion, .octal3, .hex2, .bracedHex,
    .bracedOctal, .controlEscapes, .controlChar]

def rubyOperators : FlagSet Operator := commonOperators.union (charEscapes.union (FlagSet.ofList
    [.groupExtensions, .rubyOptions, .namedGroup, .namedRef, .conditional, .absent,
    .newlineEscape, .nonNewline, .keep, .calls, .propertyEscape, .propertyCaret,
    .possessiveRepeat, .setOperations, .verticalTab, .hexDigitEscape, .hex4]))

def rubyBehavior : FlagSet Behavior := commonBehavior.union (FlagSet.ofList [.openLowInterval,
    .splitLookbehind, .onlyNamedCapture, .sharedNames, .fixedIntervalGreedy])

def perlOperators : FlagSet Operator := commonOperators.union (charEscapes.union (FlagSet.ofList
    [.quote, .groupExtensions, .perlOptions, .propertyEscape, .propertyCaret, .possessiveRepeat,
    .possessiveInterval, .conditional, .keep, .newlineEscape, .nonNewline, .branchReset,
    .perlCalls]))

def perlBehavior : FlagSet Behavior := commonBehavior.union (FlagSet.ofList [.noStackedRepeats])

/-- The native dialect: named groups, calls in two notations, and lookbehind of bounded length. -/
def native : Dialect where
  operators := rubyOperators.union (FlagSet.ofList [.perlCalls, .branchReset])
  behavior := rubyBehavior.union (FlagSet.ofList [.variableLookbehind])
  options := FlagSet.empty

def ruby : Dialect where
  operators := rubyOperators
  behavior := rubyBehavior
  options := FlagSet.empty

def perl : Dialect where
  operators := perlOperators
  behavior := perlBehavior
  options := FlagSet.ofList [.singleLine]

/-- The `perl` dialect with named groups, references and calls. -/
def perlNamed : Dialect where
  operators := perlOperators.union (FlagSet.ofList [.namedGroup, .namedRef, .calls, .namedByP])
  behavior := perlBehavior.union (FlagSet.ofList [.onlyNamedCapture, .sharedNames])
  options := FlagSet.ofList [.singleLine]

def java : Dialect where
  operators := commonOperators.union (charEscapes.union (FlagSet.ofList [.quote, .groupExtensions,
    .perlOptions, .possessiveRepeat, .possessiveInterval, .setOperations, .verticalTab, .hex4,
    .propertyEscape, .namedGroup, .namedRef]))
  behavior := commonBehavior.union (FlagSet.ofList [.splitLookbehind, .noStackedRepeats])
  options := FlagSet.ofList [.singleLine]

def posixExtended : Dialect where
  operators := FlagSet.ofList [.dot, .posixBracket, .lineAnchors, .plus, .question, .bar, .star,
    .paren, .interval, .bracket, .decimalRef, .controlEscapes]
  behavior := FlagSet.ofList [.anchorsAnywhere, .repeatsAnywhere, .danglingRepeatInvalid,
    .looseClose, .doubleRanges]
  options := FlagSet.ofList [.singleLine]

def posixBasic : Dialect where
  operators := FlagSet.ofList [.dot, .posixBracket, .escParen, .escInterval, .lineAnchors, .star,
    .bracket, .decimalRef, .controlEscapes]
  behavior := FlagSet.ofList [.anchorsAnywhere]
  options := FlagSet.ofList [.singleLine]

def grep : Dialect where
  operators := FlagSet.ofList [.dot, .bracket, .posixBracket, .decimalRef, .escInterval,
    .escParen, .escBar, .star, .escPlus, .escQuestion, .lineAnchors, .wordEscape, .wordBoundary,
    .wordEdges, .controlEscapes]
  behavior := FlagSet.ofList [.emptyRanges, .negatedSkipsNewline]
  options := FlagSet.empty

/-- Dialects by their published names. -/
def presets : List (String × Dialect) :=
  [("ONIGURUMA", native), ("RUBY", ruby), ("PERL", perl), ("PERL_NT", perlNamed), ("JAVA", java),
   ("POSIX_EXTENDED", posixExtended), ("POSIX_BASIC", posixBasic), ("GREP", grep),
   ("DEFAULT", native)]

def named? (name : String) : Option Dialect := (presets.find? (·.1 == name)).map (·.2)

end Dialect
end RegexMachine
