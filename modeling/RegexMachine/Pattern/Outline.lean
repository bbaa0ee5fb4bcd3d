import RegexMachine.Pattern.Node
import RegexMachine.Text.Quoted
import RegexMachine.Text.Utf8

/-!
Outlines of pattern trees: a line for every node, indented by its depth.
-/
namespace RegexMachine.Pattern.Outline
open Text

/-- A code point of a set. -/
def codeText (c : Nat) : String :=
  if 0x21 ≤ c && c ≤ 0x7E then String.singleton (Char.ofNat c)
  else "\\x\x7b" ++ hexDigits c ++ "\x7d"

def rangeText (r : CodeRange) : String :=
  if r.lo == r.hi then codeText r.lo else codeText r.lo ++ "-" ++ codeText r.hi

def mark (on : Bool) (text : String) : String := if on then text else ""

def listText (gs : List Nat) : String := "[" ++ ", ".intercalate (gs.map toString) ++ "]"

def limitText (max : Option Nat) : String :=
  match max with
  | none => "inf"
  | some m => toString m

def anchorText : Anchor → String
  | .beginBuffer => "Anchor begin-buf"
  | .endBuffer => "Anchor end-buf"
  | .semiEndBuffer => "Anchor semi-end-buf"
  | .beginLine => "Anchor begin-line"
  | .endLine => "Anchor end-line"
  | .beginPosition => "Anchor begin-position"
  | .wordBoundary ascii => "Anchor word-bound" ++ mark ascii " ascii"
  | .notWordBoundary ascii => "Anchor not-word-bound" ++ mark ascii " ascii"
  | .wordBegin ascii => "Anchor word-begin" ++ mark ascii " ascii"
  | .wordEnd ascii => "Anchor word-end" ++ mark ascii " ascii"

def atomText : Atom → String
  | .empty => "Empty"
  | .literal bytes fold => "Literal " ++ quoted (Utf8.lossy bytes) ++ mark fold " ic"
  | .charClass ranges negated =>
    "Class " ++ mark negated "^" ++ "[" ++ " ".intercalate (ranges.map rangeText) ++ "]"
  | .charType t negated ascii => "CharType " ++ mark negated "^" ++ t.name ++ mark ascii " ascii"
  | .anyChar multiline => "AnyChar" ++ mark multiline " ml"
  | .anchor a => anchorText a
  | .keep => "Keep"
  | .backref t groups fold => "BackRef " ++ t.text ++ " -> " ++ listText groups ++ mark fold " ic"
  | .call t group => "Call " ++ t.text ++ " -> " ++ toString group

def modeText : RepeatMode → String
  | .greedy => "greedy"
  | .lazy => "lazy"
  | .possessive => "possessive"

def groupingText : Grouping → String
  | .capture g none => "Capture " ++ toString g
  | .capture g (some name) => "Capture " ++ toString g ++ " <" ++ name ++ ">"
  | .plain => "Group"
  | .atomic => "Atomic"
  | .absent => "Absent"

def lookText (k : Look) : String :=
  "Look " ++ (if k.negated then "negative" else "positive") ++ " " ++
    (if k.behind then "behind" else "ahead")

/-- What a node is, without its parts. -/
def nodeText {α : Type} : Node α → String
  | .atom _ a => atomText a
  | .repeated _ b mode _ =>
    "Quantifier \x7b" ++ toString b.min ++ "," ++ limitText b.max ++ "\x7d " ++ modeText mode
  | .group _ k _ => groupingText k
  | .conditional _ t groups _ _ => "Conditional " ++ t.text ++ " -> " ++ listText groups
  | .look _ k _ => lookText k
  | .sequence _ _ => "Sequence"
  | .alternation _ _ => "Alternation"

def line {α : Type} (remark : α → String) (depth : Nat) (n : Node α) : String :=
  "".pushn ' ' (2 * depth) ++ nodeText n ++ remark n.note

mutual

/-- Appends the lines of a tree; `remark` adds what is known from a node's note. -/
def write {α : Type} (remark : α → String) (depth : Nat) (acc : Array String) :
    Node α → Array String
  | n@(.atom _ _) => acc.push (line remark depth n)
  | n@(.repeated _ _ _ body) => write remark (depth + 1) (acc.push (line remark depth n)) body
  | n@(.group _ _ body) => write remark (depth + 1) (acc.push (line remark depth n)) body
  | n@(.conditional _ _ _ yes no) =>
    let acc := write remark (depth + 1) (acc.push (line remark depth n)) yes
    writeOption remark (depth + 1) acc no
  | n@(.look _ _ body) => write remark (depth + 1) (acc.push (line remark depth n)) body
  | n@(.sequence _ items) => writeAll remark (depth + 1) (acc.push (line remark depth n)) items
  | n@(.alternation _ branches) =>
    writeAll remark (depth + 1) (acc.push (line remark depth n)) branches

def writeOption {α : Type} (remark : α → String) (depth : Nat) (acc : Array String) :
    Option (Node α) → Array String
  | none => acc
  | some n => write remark depth acc n

def writeAll {α : Type} (remark : α → String) (depth : Nat) (acc : Array String) :
    List (Node α) → Array String
  | [] => acc
  | n :: ns => writeAll remark depth (write remark depth acc n) ns

end

/-- Lines of a tree. -/
def lines {α : Type} (remark : α → String) (n : Node α) : List String :=
  (write remark 0 #[] n).toList

end RegexMachine.Pattern.Outline
