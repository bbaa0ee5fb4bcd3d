import RegexMachine.Compile.Plan
import RegexMachine.Machine.Groups
import RegexMachine.Machine.Looks

/-!
The meaning of a pattern tree: the ways in which it can match from a place on, the preferred one
first. Nothing here knows about code, stacks or backtracking.

References to groups, conditionals, calls and the absent operator have no ways here; a tree that is
to be understood has none of them.
-/
namespace RegexMachine

/-- A partial match: how far it has come and what it has captured. -/
structure Trail where
  pos : Nat
  captures : Captures
  /-- Start to be reported in place of that of the attempt. -/
  keep : Option Nat
deriving DecidableEq, Repr

/-- What a match is looked for in. -/
structure Scene where
  subject : Subject
  /-- Where the search began. -/
  origin : Nat
  /-- Completed spans of groups are recorded. -/
  history : Bool

/-- How a partial match can go on, the preferred way first. -/
abbrev Way := Trail → List Trail

namespace Captures

/-- Captures after a group has ended. -/
def closed (c : Captures) (g : Nat) (span : Span) (log : Bool) : Captures :=
  let c := c.setSlot g ⟨some span.start, some span⟩
  if log then c.record g span else c

/-- Captures after a group that was entered has ended at a place. -/
def close (c : Captures) (g stop : Nat) (log : Bool) : Captures :=
  match (c.slot? g).bind Slot.start with
  | .none => c
  | .some start => c.closed g ⟨start, stop⟩ log

end Captures

namespace Way

/-- The empty text. -/
def stay : Way := fun t => [t]

/-- A text whose length depends on the place. -/
def text (width : Nat → Option Nat) : Way := fun t =>
  match width t.pos with
  | none => []
  | some n => [{ t with pos := t.pos + n }]

/-- A condition on the place. -/
def holds (p : Nat → Bool) : Way := fun t => if p t.pos then [t] else []

def andThen (f g : Way) : Way := fun t => (f t).flatMap g

def orElse (f g : Way) : Way := fun t => f t ++ g t

/-- Going on comes first in a greedy repeat, and last in a lazy one. -/
def prefer (greedy : Bool) (more stop : List Trail) : List Trail :=
  if greedy then more ++ stop else stop ++ more

/-- Exactly `n` rounds. -/
def times (f : Way) : Nat → Way
  | 0 => stay
  | n + 1 => f.andThen (times f n)

/-- At most `n` rounds. -/
def upTo (greedy : Bool) (f : Way) : Nat → Way
  | 0 => stay
  | n + 1 => fun t => prefer greedy (f.andThen (upTo greedy f n) t) [t]

/-- Any number of rounds in a subject of the size given. A round that made no progress is the
last one. -/
def star (size : Nat) (greedy : Bool) (f : Way) (t : Trail) : List Trail :=
  prefer greedy
    ((f t).flatMap fun r =>
      if _h : t.pos < r.pos ∧ r.pos ≤ size then star size greedy f r else [r])
    [t]
termination_by size - t.pos

/-- At least one round. -/
def plus (size : Nat) (greedy : Bool) (f : Way) : Way := fun t =>
  (f t).flatMap fun r => if t.pos < r.pos ∧ r.pos ≤ size then star size greedy f r else [r]

/-- As many rounds as the bounds want; with no upper bound the last round that is wanted and all
after it need progress to go on. -/
def rounds (size : Nat) (b : Bounds) (greedy : Bool) (f : Way) : Way :=
  match b.max with
  | some 0 => stay
  | some max => (f.times b.min).andThen (upTo greedy f (max - b.min))
  | none =>
    match b.min with
    | 0 => star size greedy f
    | n + 1 => (f.times n).andThen (plus size greedy f)

/-- The preferred way only. -/
def first (f : Way) : Way := fun t => (f t).take 1

/-- Keeps what a way captures, and goes back to where it began. -/
def ahead (f : Way) : Way := fun t => (f.first t).map fun r => { r with pos := t.pos }

/-- Goes on where there is no way. -/
def never (f : Way) : Way := fun t => if (f t).isEmpty then [t] else []

/-- A capture group. -/
def capture (log : Bool) (g : Nat) (f : Way) : Way := fun t =>
  (f { t with captures := t.captures.setStart g (some t.pos) }).map fun r =>
    { r with captures := r.captures.close g r.pos log }

/-- Places before `pos`, one character after another, and no more than wanted. -/
def earlier (s : Subject) (pos : Nat) (more : Option Nat) : List Nat :=
  if more = some 0 then []
  else
    match _h : s.prev? pos with
    | none => []
    | some p => p :: earlier s p (more.map (· - 1))
termination_by pos
decreasing_by exact Subject.prev?_lt _h

/-- Places that are at least `min` and at most `max` characters before `pos`, nearest first. -/
def placesBehind (s : Subject) (pos min : Nat) (max : Option Nat) : List Nat :=
  match Machine.back? s pos min with
  | none => []
  | some p => p :: earlier s p (max.map (· - min))

/-- Ways that end where they are wanted, from a place behind. -/
def behind (s : Subject) (min : Nat) (max : Option Nat) (f : Way) : Way := fun t =>
  (placesBehind s t.pos min max).flatMap fun p =>
    (f { t with pos := p }).filter (·.pos == t.pos)

end Way

namespace Scene

/-- Length of a literal at a place. -/
def literalLength? (sc : Scene) (bytes : Bytes) (fold : Bool) (i : Nat) : Option Nat :=
  if bytes.isEmpty then some 0
  else if fold then sc.subject.foldedLength? i (sc.subject.encoding.foldBytes bytes)
  else sc.subject.textLength? i bytes

def atomWays (sc : Scene) : Atom → Way
  | .empty => Way.stay
  | .literal bytes fold => Way.text (sc.literalLength? bytes fold)
  | .charClass ranges negated =>
    Way.text (sc.subject.classLength? · (CharClass.ofRanges ranges negated))
  | .charType type negated ascii => Way.text (sc.subject.typeLength? · type negated ascii)
  | .anyChar multiline => Way.text (sc.subject.anyLength? · multiline)
  | .anchor a => Way.holds (sc.subject.holds sc.origin · a)
  | .keep => fun t => [{ t with keep := some t.pos }]
  | .backref _ _ _ => fun _ => []
  | .call _ _ => fun _ => []

/-- Ways of a look around whose body has the ways `f`. -/
def lookWays (sc : Scene) (k : Look) (info : Info) (f : Way) : Way :=
  let f := if k.behind then f.behind sc.subject info.minChars info.maxChars else f
  if k.negated then f.never else f.ahead

mutual

/-- The ways of a tree. -/
def ways (sc : Scene) : Node Measured → Way
  | .atom _ a => sc.atomWays a
  | .repeated _ b mode body =>
    let f := (ways sc body).rounds sc.subject.size b (mode != .lazy)
    if mode == .possessive then f.first else f
  | .group _ (.capture g _) body => (ways sc body).capture sc.history g
  | .group _ .plain body => ways sc body
  | .group _ .atomic body => (ways sc body).first
  | .group _ .absent _ => fun _ => []
  | .conditional _ _ _ _ _ => fun _ => []
  | .look _ k body => sc.lookWays k body.info (ways sc body)
  | .sequence _ items => waysAll sc items
  | .alternation _ [] => Way.stay
  | .alternation _ (n :: ns) => (ways sc n).orElse (waysSome sc ns)

/-- The ways of items in order. -/
def waysAll (sc : Scene) : List (Node Measured) → Way
  | [] => Way.stay
  | n :: ns => (ways sc n).andThen (waysAll sc ns)

/-- The ways of branches, those of the first branch first. -/
def waysSome (sc : Scene) : List (Node Measured) → Way
  | [] => fun _ => []
  | n :: ns => (ways sc n).orElse (waysSome sc ns)

end

end Scene
end RegexMachine
