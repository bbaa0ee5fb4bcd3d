import RegexMachine.Compile.Code
import RegexMachine.Proofs.Ways

/-!
Where the code of a tree stands. The shape of the code of every construct is stated for a body of
which only the place is known, and the layout of a tree puts these shapes together.

A guard remembers failures at its address whatever comes after, so a layout also says for each place
of the subject whether the match can be completed from there.
-/
namespace RegexMachine

/-- Linked code with the tables it refers to, and what it is run on. -/
structure Built where
  code : Array Instr
  loops : Array CountedLoop
  subs : Array Subroutine
  layout : Compile.Layout
  scene : Scene

/-- What surrounds a piece of code: the check of the innermost round, and the least numbers of the
checks and loops inside. -/
structure Zone where
  within : Option Nat
  checks : Nat
  loops : Nat

/-- Whether some way from a place ends at a place of which `later` holds. -/
def leads (f : Way) (later : Nat → Prop) (p : Nat) : Prop :=
  ∃ t r : Trail, t.pos = p ∧ r ∈ f t ∧ later r.pos

/-- What a guard stands for: by its number, the places from which a match can be completed. No
guards are allowed where there is no such promise. -/
abbrev Promise := Option (Nat → Nat → Prop)

/-- A piece of code between two addresses, for a promise, the places from which the match can be
completed after it, and what surrounds it. -/
abbrev Part := Promise → (Nat → Prop) → Zone → Addr → Addr → Prop

namespace Built

variable (B : Built)

def size : Nat := B.scene.subject.size

/-- The guard of a loop, if it has one. -/
def GuardAt (φ : Promise) (later : Nat → Prop) (z : Zone) (x y : Addr) : Prop :=
  x = y ∨ ∃ ψ id, φ = some ψ ∧ ψ id = later ∧ B.code[x]? = some (.guard id z.within) ∧ y = x + 1

/-- An offer to skip to `exit`. -/
def OfferAt (greedy : Bool) (exit x y : Addr) : Prop :=
  if greedy then B.code[x]? = some (.fork exit) ∧ y = x + 1
  else B.code[x]? = some (.fork (x + 2)) ∧ B.code[x + 1]? = some (.jump exit) ∧ y = x + 2

/-- The body of a loop, with a check of progress where one is needed. -/
def RoundAt (info : Info) (body : Part) : Part := fun φ later z x y =>
  if 0 < info.minChars then body φ later z x y
  else ∃ id w, z.checks ≤ id ∧ B.code[x]? = some (.roundStart id) ∧
    body φ later ⟨some id, id + 1, z.loops⟩ (x + 1) w ∧
    B.code[w]? = some
      (.roundEnd id (B.layout.capturesMatter && info.traits.has .hasCapture)) ∧
    y = w + 1

def StarAt (greedy : Bool) (info : Info) (f : Way) (body : Part) : Part := fun φ later z x y =>
  let head := leads (f.star B.size greedy) later
  ∃ g o w, B.GuardAt φ head z x g ∧ B.OfferAt greedy y g o ∧ B.RoundAt info body φ head z o w ∧
    B.code[w]? = some (.jump x) ∧ y = w + 1

def GreedyPlusAt (info : Info) (f : Way) (body : Part) : Part := fun φ later z x y =>
  let head := leads (f.star B.size true) later
  ∃ g w, B.code[x]? = some (.jump (g + 1)) ∧ B.GuardAt φ head z (x + 1) g ∧
    B.code[g]? = some (.fork y) ∧ B.RoundAt info body φ head z (g + 1) w ∧
    B.code[w]? = some (.jump (x + 1)) ∧ y = w + 1

def LazyPlusAt (info : Info) (f : Way) (body : Part) : Part := fun φ later z x y =>
  ∃ g w, B.GuardAt φ (leads (f.plus B.size false) later) z x g ∧
    B.RoundAt info body φ (leads (f.star B.size false) later) z g w ∧
    B.code[w]? = some (.fork x) ∧ y = w + 1

def PlusAt (greedy : Bool) (info : Info) (f : Way) (body : Part) : Part :=
  if greedy then B.GreedyPlusAt info f body else B.LazyPlusAt info f body

/-- Copies one after another. -/
def TimesAt (f : Way) (body : Part) : Nat → Part
  | 0 => fun _ _ _ x y => x = y
  | n + 1 => fun φ later z x y =>
    ∃ w, body φ (leads (f.times n) later) z x w ∧ TimesAt f body n φ later z w y

/-- Optional copies, each inside the one before. -/
def UpToAt (greedy : Bool) (f : Way) (body : Part) : Nat → Part
  | 0 => fun _ _ _ x y => x = y
  | n + 1 => fun φ later z x y =>
    ∃ o w, B.OfferAt greedy y x o ∧ body φ (leads (f.upTo greedy n) later) z o w ∧
      UpToAt greedy f body n φ later z w y

def UnrolledAt (b : Bounds) (greedy : Bool) (info : Info) (f : Way) (body : Part) : Part :=
  fun φ later z x y =>
    match b.max with
    | none =>
      ∃ w, TimesAt f body (b.min - 1) φ (leads (f.plus B.size greedy) later) z x w ∧
        B.PlusAt greedy info f body φ later z w y
    | some max =>
      ∃ w, TimesAt f body b.min φ (leads (f.upTo greedy (max - b.min)) later) z x w ∧
        B.UpToAt greedy f body (max - b.min) φ later z w y

/-- A loop that counts its rounds. What can come after a place in it depends on the count, so there
are no guards in it. -/
def CountedAt (b : Bounds) (greedy : Bool) (info : Info) (body : Part) : Part :=
  fun _ later z x y =>
    ∃ id w, z.loops ≤ id ∧ B.code[x]? = some (.repeatEnter id) ∧
      B.loops[id]? = some ⟨b.min, b.max, greedy, x + 1, y⟩ ∧
      B.RoundAt info body none later ⟨z.within, z.checks, id + 1⟩ (x + 1) w ∧
      B.code[w]? = some (.repeatNext id) ∧ y = w + 1

def RepeatAt (b : Bounds) (greedy : Bool) (plan : RepeatPlan) (info : Info) (f : Way)
    (body : Part) : Part :=
  match plan with
  | .skip => fun _ _ _ x y => x = y
  | .optional => B.UpToAt greedy f body 1
  | .star => B.StarAt greedy info f body
  | .plus => B.PlusAt greedy info f body
  | .unroll => B.UnrolledAt b greedy info f body
  | .counted => B.CountedAt b greedy info body

/-- A loop, or the one instruction that does it all. Only loops that may have guards stand where
there is such an instruction. -/
def LoopAt (instr? : Option Instr) (part : Part) : Part := fun φ later z x y =>
  (∃ i, instr? = some i ∧ B.code[x]? = some i ∧ y = x + 1) ∨
    (φ = none → instr? = none) ∧ part φ later z x y

/-- A region that no alternatives leave. There are no guards in regions. -/
def AtomicAt (body : Part) : Part := fun _ later z x y =>
  ∃ mark w, B.code[x]? = some (.atomicStart mark) ∧ body none later z (x + 1) w ∧
    B.code[w]? = some (.atomicEnd mark) ∧ y = w + 1

/-- A look around from its start to where its body has matched. -/
def LookBodyAt (k : Look) (info : Info) (body : Part) (mark : Nat) : Part :=
  fun _ later z x y =>
    B.code[x]? = some (.lookStart mark) ∧
    if k.behind then
      ∃ w, B.code[x + 1]? = some (.stepBack info.minChars info.maxChars) ∧
        body none later z (x + 2) w ∧ B.code[w]? = some (.checkPos mark) ∧ y = w + 1
    else body none later z (x + 1) y

def LookAt (k : Look) (info : Info) (body : Part) : Part := fun φ later z x y =>
  ∃ mark w,
    if k.negated then
      B.code[x]? = some (.fork y) ∧ B.LookBodyAt k info body mark φ later z (x + 1) w ∧
        B.code[w]? = some (.unwind mark) ∧ B.code[w + 1]? = some .drop ∧
        B.code[w + 2]? = some .fail ∧ y = w + 3
    else
      B.LookBodyAt k info body mark φ later z x w ∧ B.code[w]? = some (.lookEnd mark) ∧ y = w + 1

def AbsentAt (body : Part) : Part := fun _ later z x y =>
  ∃ w, B.code[x]? = some (.absent (x + 2)) ∧ B.code[x + 1]? = some (.jump y) ∧
    body none later z (x + 2) w ∧ B.code[w]? = some .absentEnd ∧ y = w + 1

def ConditionalAt (groups : List Nat) (yes no : Part) : Part := fun _ later z x y =>
  ∃ w, B.code[x]? = some (.ifSet groups (w + 1)) ∧ yes none later z (x + 1) w ∧
    B.code[w]? = some (.jump y) ∧ no none later z (w + 1) y

/-- A call of a group's subroutine. -/
def CallAt (group : Nat) (x y : Addr) : Prop :=
  ∃ sub, (B.layout.subroutines[group]?).join = some sub ∧
    B.code[x]? = some (.call ((B.subs[sub]?).elim 0 (·.entry)) sub) ∧ y = x + 1

/-- A capture group; one that is called is a call itself. -/
def CaptureAt (group : Nat) (body : Part) : Part := fun φ later z x y =>
  if B.layout.calls.isCalled group then B.CallAt group x y
  else ∃ w, B.code[x]? = some (.groupStart group (B.layout.undone.getD group true)) ∧
    body φ later z (x + 1) w ∧
    B.code[w]? = some (.groupEnd group (B.layout.undone.getD group true)) ∧ y = w + 1

/-- The instruction of an atom other than a call; the empty text has none. -/
def atomInstr? (e : Encoding) : Atom → Option Instr
  | .empty => none
  | .literal bytes fold => (Compile.literalCode e bytes fold)[0]?
  | .charClass ranges negated => some (.charClass (CharClass.ofRanges ranges negated))
  | .charType t negated ascii => some (.charType t negated ascii)
  | .anyChar multiline => some (.anyChar multiline)
  | .anchor a => some (.anchor a)
  | .keep => some .keep
  | .backref _ groups fold => some (.backref groups fold)
  | .call _ _ => none

def AtomAt (a : Atom) (x y : Addr) : Prop :=
  match a with
  | .call _ group => B.CallAt group x y
  | a =>
    match atomInstr? B.layout.encoding a with
    | none => x = y
    | some i => B.code[x]? = some i ∧ y = x + 1

mutual

/-- The code of a node stands between two addresses. -/
def NodeAt (peek : Option UInt8) : Node Measured → Part
  | .atom _ a => fun _ _ _ x y => B.AtomAt a x y
  | .repeated _ b mode body =>
    let plan := repeatPlan b body
    let f := B.scene.ways body
    let loop := B.LoopAt (Compile.anyCharsCode? mode plan peek body)
      (B.RepeatAt b (mode != .lazy) plan body.info f (NodeAt none body))
    if mode == .possessive then B.AtomicAt loop else loop
  | .group _ (.capture g _) body => B.CaptureAt g (NodeAt none body)
  | .group _ .plain body => NodeAt none body
  | .group _ .atomic body => B.AtomicAt (NodeAt none body)
  | .group _ .absent body => B.AbsentAt (NodeAt none body)
  | .conditional _ _ gs yes no => B.ConditionalAt gs (NodeAt none yes) (OptionAt no)
  | .look _ k body => B.LookAt k body.info (NodeAt none body)
  | .sequence _ items => SequenceAt items
  | .alternation _ branches => BranchesAt branches

def OptionAt : Option (Node Measured) → Part
  | none => fun _ _ _ x y => x = y
  | some n => NodeAt none n

def SequenceAt : List (Node Measured) → Part
  | [] => fun _ _ _ x y => x = y
  | n :: ns => fun φ later z x y =>
    ∃ w, NodeAt (Compile.peekByte? ns) n φ (leads (B.scene.waysAll ns) later) z x w ∧
      SequenceAt ns φ later z w y

/-- Branches up to their common end: each but the last leaves an alternative for the next one. -/
def BranchesAt : List (Node Measured) → Part
  | [] => fun _ _ _ x y => x = y
  | n :: ns => fun φ later z x y =>
    match ns with
    | [] => NodeAt none n φ later z x y
    | _ :: _ =>
      ∃ w, B.code[x]? = some (.fork (w + 1)) ∧ NodeAt none n φ later z (x + 1) w ∧
        B.code[w]? = some (.jump y) ∧ BranchesAt ns φ later z (w + 1) y

end

end Built
end RegexMachine
