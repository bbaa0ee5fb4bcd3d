import RegexMachine.Machine.Search

/-!
A program ready to search one subject any number of times. What a search leaves behind is of no
consequence for the next one.
-/
namespace RegexMachine
open Machine

/-- How a search is interrupted and observed. -/
structure Watch where
  signal : Signal
  /-- Events are recorded. -/
  tracing : Bool

namespace Watch

/-- Neither interrupted nor observed. -/
def none : Watch := ⟨fun _ => false, false⟩

/-- An interrupt flag that does not change. -/
def flag (raised : Bool) : Watch := ⟨fun _ => raised, false⟩

end Watch

structure Matcher where
  program : Program
  subject : Bytes
  limits : MatchLimits
  state : State

/-- What a search comes to. -/
structure SearchReport where
  result : Except SearchError SearchOutcome
  log : List LogRecord
  events : Array Event
  /-- Instructions begun. -/
  begun : Nat
  /-- The matcher as the search leaves it. -/
  matcher : Matcher

namespace Matcher

def new (p : Program) (subject : Bytes) (limits : MatchLimits) : Matcher :=
  ⟨p, subject, limits, .initial⟩

def setting (m : Matcher) (origin : Nat) (o : SearchOptions) (w : Watch) : Setting :=
  let options := m.program.tables.options.searchDefaults.union o
  { program := m.program
    subject := .ofBytes m.subject m.program.encoding options
    limits := m.limits
    options := options
    origin := origin
    signal := w.signal
    tracing := w.tracing }

/-- A memory of guards, where the search stops at the first match. -/
def newMemo (e : Setting) : Option Memo :=
  if e.program.has .hasGuards && !e.options.has .findLongest && !e.options.has .findNotEmpty then
    Memo.new? e.program.tables.guards e.subject.size
  else none

/-- The state at the start of a search. -/
def begin (s : State) (e : Setting) : State :=
  { s with tally := .zero, memo := newMemo e, best := none, events := #[] }

/-- A search that is not worth starting. -/
def refuse (m : Matcher) : SearchReport := ⟨.ok .notFound, [], #[], 0, m⟩

def logRecord (start range : Nat) (o : SearchOutcome) (retries : Nat) : LogRecord where
  level := .trace
  text := "search " ++ toString start ++ ".." ++ toString range ++ ": " ++
    (if o.region?.isSome then "match" else "no match") ++ " after " ++ toString retries ++
    " retries"

/-- Runs a search from its beginning. -/
def runSearch (m : Matcher) (e : Setting) (search : Search SearchOutcome)
    (log : SearchOutcome → State → List LogRecord) : SearchReport :=
  match search (begin m.state e) with
  | .ok o s => ⟨.ok o, log o s, s.events, s.tally.begun, { m with state := s }⟩
  | .error x s => ⟨.error x, [], s.events, s.tally.begun, { m with state := s }⟩

/-- Tries starts from `start` to `range`, both included, going backward if `range` comes first. Each
attempt takes no more steps than the clock allows. -/
def searchWith (m : Matcher) (start range : Nat) (o : SearchOptions) (w : Watch)
    (clock : Nat := defaultClock) : SearchReport :=
  if m.subject.size < start || m.subject.size < range then m.refuse
  else
    let e := m.setting start o w
    m.runSearch e (if start ≤ range then forward clock e range else backward clock e range)
      fun o s => [logRecord start range o s.tally.searchRetries]

/-- Searches the whole subject. -/
def search (m : Matcher) (w : Watch) : SearchReport :=
  m.searchWith 0 m.subject.size FlagSet.empty w

/-- Tries one start only. -/
def matchAt (m : Matcher) (pos : Nat) (o : SearchOptions) (w : Watch) : SearchReport :=
  if m.subject.size < pos then m.refuse
  else
    let e := m.setting pos o w
    m.runSearch e (do
      match ← tryAt defaultClock e pos with
      | some outcome => return outcome
      | none => takeBest) fun _ _ => []

end Matcher
end RegexMachine
