/-!
Rows of painted cells. Text is written at a column, over what stands there and after the blanks it
takes to get there. A row is printed run by run, a run being a stretch of one paint.
-/
namespace RegexMachine.Text

/-- What the cells of a row belong to: text, the frame around it, a heading, or a mark. -/
inductive Paint where
  | bare | frame | strong | alert
deriving DecidableEq, Repr, Inhabited

structure Cell where
  char : Char
  paint : Paint
deriving DecidableEq, Repr, Inhabited

abbrev Row := List Cell

namespace Row

def blank : Cell := ⟨' ', .bare⟩

def painted (p : Paint) (text : List Char) : Row := text.map (⟨·, p⟩)

/-- Writes cells from a column on. Writing no cells adds no blanks either. -/
def write (row : Row) (column : Nat) (cells : Row) : Row :=
  if cells.isEmpty then row
  else (row.take column).rightpad column blank ++ cells ++ row.drop (column + cells.length)

/-- Stands for what is left out. -/
def ellipsis : Row := painted .frame "...".toList

/-- Leaves out the cells from `start` up to `stop`; a row that ends before them stays whole. -/
def elide (row : Row) (start stop : Nat) : Row :=
  if stop ≤ row.length then row.take start ++ ellipsis ++ row.drop stop else row

/-- The text of a row, each run of one paint printed by `around`. -/
def print (around : Paint → String → String) (row : Row) : String :=
  String.join ((row.splitBy fun a b => a.paint == b.paint).map fun run =>
    around (run.headD blank).paint (String.ofList (run.map (·.char))))

end Row
end RegexMachine.Text
