import RegexMachine.Compile.Program
import RegexMachine.Machine.Trace
import RegexMachine.Matcher
import RegexMachine.Text.Quoted
import RegexMachine.Text.Utf8

/-!
Compiled patterns with their limits, the searches they are made for, and what these find.
-/
namespace RegexMachine

structure Regex where
  pattern : Bytes
  program : Program
  limits : MatchLimits
deriving DecidableEq, Repr

/-- The outcome of building a regex, with what was logged and which properties are known now. -/
structure Building where
  result : Except CompileError Regex
  log : List LogRecord
  properties : PropertyRegistry

/-- A span of a subject that something matched. -/
structure Match where
  subject : Bytes
  span : Span
deriving DecidableEq, Repr

namespace Match

def bytes (m : Match) : Bytes := m.subject.slice m.span.start m.span.stop

/-- The matched text, if it is well-formed UTF-8. -/
def text? (m : Match) : Option String := Text.Utf8.decode? m.bytes

end Match

/-- What the groups of a pattern matched. -/
structure Groups where
  subject : Bytes
  region : Region
  names : NameTable
deriving DecidableEq, Repr

namespace Groups

def ofSpan (g : Groups) (s : Span) : Match := ⟨g.subject, s⟩

def whole (g : Groups) : Match := g.ofSpan g.region.whole

/-- Number of groups, the whole match included. -/
def size (g : Groups) : Nat := g.region.size

def get? (g : Groups) (group : Nat) : Option Match := (g.region.span? group).map g.ofSpan

/-- The group a name stands for in this match. -/
def named? (g : Groups) (name : String) : Option Match :=
  (g.region.named? g.names name).map g.ofSpan

/-- All groups in order. -/
def toList (g : Groups) : List (Option Match) :=
  g.region.spans.toList.map fun s => s.map g.ofSpan

/-- Everything a group matched on the way, where that was kept. -/
def history? (g : Groups) (group : Nat) : Option (List Match) :=
  (g.region.history? group).map fun spans => spans.map g.ofSpan

end Groups

/-- Why a question about a subject has no answer. -/
inductive RegexError where
  | search (e : SearchError)
  | interrupted
deriving DecidableEq, Repr

def RegexError.message : RegexError → String
  | search e => e.message
  | interrupted => "search interrupted"

/-- The answer to a question about a subject, with what was logged. -/
structure Answer (α : Type) where
  result : Except RegexError α
  log : List LogRecord

def Answer.map {α β : Type} (f : α → β) (a : Answer α) : Answer β := ⟨a.result.map f, a.log⟩

namespace Regex

/-- Compiles a pattern for searches under some limits. -/
def build (s : Pattern.Setting) (o : Options) (limits : MatchLimits)
    (properties : PropertyRegistry) : Building :=
  let c := Compilation.ofPattern s o properties
  match c.result with
  | .error e => ⟨.error e, c.log, c.properties⟩
  | .ok p =>
    let note : LogRecord := ⟨.debug, "compiled " ++ Text.quoted (Text.escaped s.pattern) ++
      " into " ++ toString p.size ++ " instructions"⟩
    ⟨.ok ⟨s.pattern, p, limits⟩, c.log ++ [note], c.properties⟩

def captureCount (r : Regex) : Nat := r.program.tables.captures

def names (r : Regex) : NameTable := r.program.tables.names

/-- Options the pattern was compiled with, those of its dialect included. -/
def options (r : Regex) : Options := r.program.tables.options

def matcher (r : Regex) (subject : Bytes) : Matcher := .new r.program subject r.limits

def searchWith (r : Regex) (subject : Bytes) (start range : Nat) (o : SearchOptions) (w : Watch) :
    SearchReport :=
  (r.matcher subject).searchWith start range o w

/-- Searches a whole subject. -/
def search (r : Regex) (subject : Bytes) (w : Watch) : SearchReport := (r.matcher subject).search w

/-- Tries one start only. -/
def matchAt (r : Regex) (subject : Bytes) (pos : Nat) (w : Watch) : SearchReport :=
  (r.matcher subject).matchAt pos FlagSet.empty w

/-- Region of the first match that a search found. -/
def regionOf (r : SearchReport) : Except RegexError (Option Region) :=
  match r.result with
  | .ok (.found region) => .ok (some region)
  | .ok .notFound => .ok none
  | .ok .interrupted => .error .interrupted
  | .error e => .error (.search e)

/-- Region of the first match in a subject. -/
def first (r : Regex) (subject : Bytes) (w : Watch) : Answer (Option Region) :=
  let report := r.search subject w
  ⟨regionOf report, report.log⟩

/-- Whether a subject has a match. -/
def isMatch (r : Regex) (subject : Bytes) (w : Watch) : Answer Bool :=
  (r.first subject w).map Option.isSome

/-- The first match in a subject. -/
def find (r : Regex) (subject : Bytes) (w : Watch) : Answer (Option Match) :=
  (r.first subject w).map fun found => found.map fun g => ⟨subject, g.whole⟩

/-- The groups of the first match in a subject. -/
def groups (r : Regex) (subject : Bytes) (w : Watch) : Answer (Option Groups) :=
  (r.first subject w).map fun found => found.map fun g => ⟨subject, g, r.names⟩

end Regex
end RegexMachine
