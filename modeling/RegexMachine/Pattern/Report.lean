import RegexMachine.Encoding.CharType
import RegexMachine.Pattern.Error
import RegexMachine.Text.Bytes
import RegexMachine.Text.Row
import RegexMachine.Unicode.Display

/-!
Reports on rejected patterns: the message, and the pattern with the blamed part underlined. A
pattern too long for the terminal is shown through a window around that part, with an ellipsis where
text is left out; the middle of a very long part is left out as well.
-/
namespace RegexMachine.Report
open Text

/-- Escape sequences of a report, empty where it is plain. -/
structure Style where
  strong : String
  alert : String
  frame : String
  reset : String

def Style.plain : Style := ⟨"", "", "", ""⟩

def Style.colored : Style := ⟨"\x1b[1m", "\x1b[1m\x1b[91m", "\x1b[1m\x1b[94m", "\x1b[0m"⟩

def Style.around (s : Style) : Paint → String → String
  | .bare, text => text
  | .frame, text => s.frame ++ text ++ s.reset
  | .strong, text => s.strong ++ text ++ s.reset
  | .alert, text => s.alert ++ text ++ s.reset

/-! ## Text as it is shown -/

/-- Characters that turn the direction of the text. -/
def isDirectional (c : Nat) : Bool :=
  (0x202A ≤ c && c ≤ 0x202E) || (0x2066 ≤ c && c ≤ 0x2069)

/-- What a character is shown as: control characters have pictures. -/
def shown (c : Char) : List Char :=
  if c == '\t' then "    ".toList
  else if c.toNat < 0x20 && c != '\n' then [Char.ofNat (0x2400 + c.toNat)]
  else if c.toNat == 0x7F then [Char.ofNat 0x2421]
  else if c.toNat == 0x200D then []
  else if isDirectional c.toNat then [Char.ofNat 0xFFFD]
  else [c]

def shownText (text : List Char) : List Char := text.flatMap shown

/-- Columns of characters that are shown as they are. -/
def columnsOf (text : List Char) : Nat := text.foldl (fun n c => n + Unicode.columns c.toNat) 0

/-- Columns of a character as it is shown. -/
def shownColumns (c : Char) : Nat := columnsOf (shown c)

/-- Columns of the characters before an offset. -/
def columnsBefore (offset : Nat) : List Char → Nat
  | [] => 0
  | c :: cs =>
    if offset = 0 then 0 else shownColumns c + columnsBefore (offset - c.utf8Size) cs

/-- The part of a text to underline: never empty where the text goes on. -/
def visibleSpan (s : Span) (size : Nat) : Span :=
  let start := min s.start size
  let stop := min s.stop size
  if start = stop then ⟨start, min (start + 1) size⟩ else ⟨start, stop⟩

/-- Columns of the blanks that a text begins with; none if there is nothing else. -/
def indentation (text : List Char) : Nat :=
  let isBlank (c : Char) : Bool := CharType.space.holds c.toNat
  if text.all isBlank then 0
  else (text.takeWhile isBlank).foldl (fun n c => n + if c == '\t' then 4 else 1) 0

/-! ## Windows -/

/-- Columns of a report. -/
def reportColumns : Nat := 140

/-- Columns kept free on both sides of the underlined part. -/
def margin : Nat := 6

/-- Columns of a text from `first` up to `last`. -/
structure Window where
  first : Nat
  last : Nat

/-- The window on a text of `width` columns that shows its columns `start` to `stop` in `room`
columns. A deep indentation is cut in any case; where that is not enough, the window begins where
the indentation ends, or has the underlined part in the middle, or holds that part alone. -/
def windowOn (room indent start stop width : Nat) : Window :=
  let indent := min indent start - margin
  let start := start - margin
  let stop := stop + margin
  let first := if 20 < indent then indent - 16 else 0
  if max width first - first ≤ room then ⟨first, max width first⟩
  else if stop - indent ≤ room then ⟨indent, indent + room⟩
  else if stop - start ≤ room then
    let first := start - (room - (stop - start)) / 2
    ⟨first, first + room⟩
  else ⟨start, stop⟩

/-- Drops the characters that begin before `first`; with the column where the rest begins. -/
def dropColumns (first : Nat) : Nat → List Char → Nat × List Char
  | column, [] => (column, [])
  | column, c :: cs =>
    if column < first then dropColumns first (column + Unicode.columns c.toNat) cs
    else (column, c :: cs)

/-- The longest front part that takes no more than `room` columns. -/
def takeColumns (room : Nat) : List Char → List Char
  | [] => []
  | c :: cs =>
    let n := Unicode.columns c.toNat
    if n ≤ room then c :: takeColumns (room - n) cs else []

/-- How many characters have to go for what takes `room` columns. -/
def covered (room : Nat) : List Char → Nat
  | [] => 0
  | c :: cs =>
    let n := Unicode.columns c.toNat
    if room ≤ n then 1 else 1 + covered (room - n) cs

/-! ## Rows -/

/-- Where the text begins, after the number of the line and a bar. -/
def leftColumn : Nat := 4

/-- Columns for the text. -/
def textColumns : Nat := reportColumns - leftColumn

/-- A row that begins with the bar, and the row with the line number before it. -/
def barRow : Row := Row.write [] 2 (Row.painted .frame ['|'])

def numberedRow : Row := barRow.write 0 (Row.painted .frame ['1'])

/-- The row with the part of a text that a window shows. The ellipses take the place of characters
inside the window. Also gives the column of the text that stands first in the row. -/
def textRow (w : Window) (text : List Char) : Row × Nat :=
  let width := columnsOf text
  let last := if width - w.first ≤ textColumns then width else min width w.last
  let (first, rest) := dropColumns (min w.first width) 0 text
  let inside := takeColumns (last - min w.first width) rest
  let lead := if 0 < w.first then covered 3 inside else 0
  let column := leftColumn + columnsOf (inside.take lead)
  let row := if 0 < w.first then numberedRow.write leftColumn Row.ellipsis else numberedRow
  let row := row.write column (Row.painted .bare (inside.drop lead))
  let row :=
    if last < width then
      row.write (column + (inside.length - lead) - covered 3 inside.reverse) Row.ellipsis
    else row
  (row, first)

/-- The rows that show a span of a pattern of one line. -/
def patternRows (span : Span) (pattern : String) : List Row :=
  let span := visibleSpan span pattern.utf8ByteSize
  let start := columnsBefore span.start pattern.toList
  let stop := max (start + 1) (columnsBefore span.stop pattern.toList)
  let text := shownText pattern.toList
  let w := windowOn textColumns (indentation pattern.toList) start stop (columnsOf text)
  let (source, first) := textRow w text
  let carets := Row.painted .alert (List.replicate (stop - start) '^')
  let under := barRow.write (leftColumn + start - first) carets
  if 2 * textColumns < stop - start then
    let aside := textColumns / 3
    let shorten (row : Row) : Row :=
      row.elide (leftColumn + start - first + aside) (leftColumn + stop - first - aside)
    [barRow, shorten source, shorten under]
  else [barRow, source, under]

/-- Lines of a text, without their line breaks. -/
def breakLines : List Char → List (List Char)
  | [] => [[]]
  | c :: cs =>
    if c == '\n' then [] :: breakLines cs
    else
      match breakLines cs with
      | [] => [[c]]
      | line :: more => (c :: line) :: more

/-- The rows of a message. All but the first are indented as deep as the first one's text. -/
def messageRows (message : String) : List Row :=
  let label := "error".toList
  match breakLines (shownText message.toList) with
  | [] => []
  | first :: more =>
    (Row.painted .alert label ++ Row.painted .strong (": ".toList ++ first)) ::
      more.map fun line =>
        List.replicate (label.length + 2) Row.blank ++ Row.painted .strong line

/-- Lines of the report on a flaw in a pattern. -/
def lines (e : PatternError) (pattern : String) (style : Style) : List String :=
  (messageRows e.flaw.message ++ patternRows e.span pattern).map (Row.print style.around)

end RegexMachine.Report
