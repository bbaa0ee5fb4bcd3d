import RegexMachine.Proofs.Settling

/-!
The plain loop in place of an instruction that takes any characters in one step. The code after it
moves two places on, and whatever leads there moves along.
-/
namespace RegexMachine

/-- The same instruction, leading to where its target has moved. -/
def Instr.moveTarget (f : Addr → Addr) : Instr → Instr
  | ifSet groups otherwise => ifSet groups (f otherwise)
  | jump target => jump (f target)
  | fork alternative => fork (f alternative)
  | call target sub => call (f target) sub
  | absent body => absent (f body)
  | i => i

/-- A place in a program where any characters are taken in one step: with a way back to all places
on the way, or to those before the byte `before`. -/
structure Sweep where
  program : Program
  place : Nat
  multiline : Bool
  before : Option UInt8

/-- A literal whose case matters, and that begins with a byte. -/
def Instr.BeginsWith (b : UInt8) : Instr → Prop
  | byte c => c = b
  | text bytes => bytes[0]? = some b
  | _ => False

/-- The counted loop that an instruction enters or goes round. -/
def Instr.loop? : Instr → Option Nat
  | repeatEnter id => some id
  | repeatNext id => some id
  | _ => none

/-- Whether an instruction is none of those that a negated lookaround relies on: after them the
stack has the alternative on its top that it will drop. -/
def Instr.isLoose : Instr → Bool
  | fork _ => false
  | unwind _ => false
  | _ => true

namespace Program

/-- Whether an alternative is dropped right after a region with this mark has been unwound. -/
def unwinds (p : Program) (mark : Nat) : Bool :=
  (List.range p.size).any fun x => p.code[x]? == some (.unwind mark) && p.code[x + 1]? == some .drop

/-- Whether nothing but the instruction before may lead to an address: an alternative is dropped
there, or a region begins there above an alternative that will be dropped. -/
def isSealed (p : Program) (x : Nat) : Bool :=
  match p.code[x]? with
  | some .drop => true
  | some (.lookStart mark) => p.unwinds mark
  | _ => false

/-- Alternatives are dropped in the way of negated lookarounds only: one that was left right before
a region began is dropped right after that region has been unwound. -/
structure DropsOwn (p : Program) : Prop where
  drop : ∀ x, p.code[x]? = some .drop → ∃ y mark, x = y + 1 ∧ p.code[y]? = some (.unwind mark)
  look : ∀ x mark, p.code[x]? = some (.lookStart mark) → p.unwinds mark = true →
    ∃ y a, x = y + 1 ∧ p.code[y]? = some (.fork a)
  target : ∀ (x : Nat) i a, p.code[x]? = some i → i.target? = some a → p.isSealed a = false
  loop : ∀ (x : Nat) i id l, p.code[x]? = some i → i.loop? = some id →
    p.tables.loops[id]? = some l → p.isSealed l.body = false ∧ p.isSealed l.exit = false
  skip : ∀ (x : Nat) check captures, p.code[x]? = some (.roundEnd check captures) →
    p.isSealed (x + 2) = false

theorem unwinds_of_drop {p : Program} {x mark : Nat} (h : p.code[x]? = some (.unwind mark))
    (hdrop : p.code[x + 1]? = some .drop) : p.unwinds mark = true := by
  rw [unwinds, List.any_eq_true]
  exact ⟨x, List.mem_range.mpr (Array.getElem?_eq_some_iff.mp h).1, by simp [h, hdrop]⟩

end Program

namespace Sweep

variable (w : Sweep)

/-- The instruction that stands there. -/
def instr : Instr :=
  match w.before with
  | none => .anyChars w.multiline
  | some b => .anyCharsBefore w.multiline b

/-- Where an address of the program has moved. -/
def moved (x : Nat) : Nat := if x ≤ w.place then x else x + 2

/-- The instruction stands at the place, and the loop can do what it does: nothing skips it, and if
only the places before some byte matter, a literal that begins with it comes next, or the end of a
region that no alternatives leave; then alternatives must not be dropped but in the way of negated
lookarounds, since the loop leaves more of them. -/
structure Fits : Prop where
  here : w.program.code[w.place]? = some w.instr
  unskipped : ∀ (x : Nat) check captures, w.program.code[x]? = some (.roundEnd check captures) →
    x + 1 ≠ w.place
  ahead : ∀ b, w.before = some b → ∃ i, w.program.code[w.place + 1]? = some i ∧
    (i.BeginsWith b ∨ ∃ mark, i = .atomicEnd mark)
  drops : w.before.isSome = true → w.program.DropsOwn

/-- The loop `L: fork exit; anyChar; jump L; exit:`. -/
def loop : Array Instr := #[.fork (w.place + 3), .anyChar w.multiline, .jump w.place]

/-- The code of the program, leading to where addresses have moved. -/
def rest : Array Instr := w.program.code.map (·.moveTarget w.moved)

/-- The program with the loop in place of the instruction. -/
def expanded : Program where
  code := w.rest.extract 0 w.place ++ w.loop ++ w.rest.extract (w.place + 1) w.rest.size
  tables :=
    { w.program.tables with
      loops := w.program.tables.loops.map fun l =>
        { l with body := w.moved l.body, exit := w.moved l.exit }
      subroutines := w.program.tables.subroutines.map fun s => { s with entry := w.moved s.entry } }
  encoding := w.program.encoding

/-! ## Addresses -/

theorem moved_place : w.moved w.place = w.place := if_pos (Nat.le_refl _)

theorem moved_after : w.moved (w.place + 1) = w.place + 3 := by
  rw [moved, if_neg (by omega)]

variable {w} {x : Nat} {i : Instr}

theorem moved_succ (h : x ≠ w.place) : w.moved (x + 1) = w.moved x + 1 := by
  unfold moved
  grind

theorem size_front (hplace : w.place < w.program.size) :
    (w.rest.extract 0 w.place).size = w.place := by
  have hlt : w.place < w.program.code.size := hplace
  rw [Array.size_extract, rest, Array.size_map]
  omega

theorem fetch_moved (hplace : w.place < w.program.size) (h : x ≠ w.place) :
    w.expanded.code[w.moved x]? = (w.program.code[x]?).map (·.moveTarget w.moved) := by
  have hfront := size_front hplace
  have hloop : w.loop.size = 3 := rfl
  rw [← Array.getElem?_map]
  change (w.rest.extract 0 w.place ++ w.loop ++ w.rest.extract (w.place + 1) w.rest.size)[_]? =
    w.rest[x]?
  by_cases hx : x ≤ w.place
  · have hmoved : w.moved x = x := if_pos hx
    rw [hmoved, Array.getElem?_append_left (by rw [Array.size_append]; omega),
      Array.getElem?_append_left (by omega), Array.getElem?_extract]
    simp only [Nat.zero_add]
    grind
  · have hmoved : w.moved x = x + 2 := if_neg hx
    rw [hmoved, Array.getElem?_append_right (by rw [Array.size_append]; omega), Array.size_append,
      Array.getElem?_extract]
    grind

/-- The loop stands where the instruction stood. -/
theorem fetch_loop (hplace : w.place < w.program.size) {k : Nat} (hk : k < 3) :
    w.expanded.code[w.place + k]? = w.loop[k]? := by
  have hfront := size_front hplace
  have hloop : w.loop.size = 3 := rfl
  change (w.rest.extract 0 w.place ++ w.loop ++ w.rest.extract (w.place + 1) w.rest.size)[_]? = _
  rw [Array.getElem?_append_left (by rw [Array.size_append]; omega),
    Array.getElem?_append_right (by omega), hfront, Nat.add_sub_cancel_left]

theorem Fits.inside (h : w.Fits) : w.place < w.program.size :=
  (Array.getElem?_eq_some_iff.mp h.here).1

/-! ## Sealed addresses -/

/-- Whether alternatives that only the loop leaves must not be on the top of the stack at an
address. -/
def isTight (w : Sweep) (x : Nat) : Bool := w.before.isSome && w.program.isSealed x

/-- Nothing but a fork and the unwinding of a region goes on to a tight address. -/
theorem Fits.loose_next (h : w.Fits) (hi : w.program.code[x]? = some i) (hloose : i.isLoose = true) :
    w.isTight (x + 1) = false := by
  rw [Bool.eq_false_iff]
  intro hx
  simp only [isTight, Bool.and_eq_true] at hx
  obtain ⟨hbefore, hsealed⟩ := hx
  unfold Program.isSealed at hsealed
  split at hsealed
  · obtain ⟨y, mark, hy, hunwind⟩ := (h.drops hbefore).drop _ ‹_›
    obtain rfl : x = y := Nat.succ.inj hy
    obtain rfl := Option.some.inj (hi.symm.trans hunwind)
    cases hloose
  · obtain ⟨y, a, hy, hfork⟩ := (h.drops hbefore).look _ _ ‹_› hsealed
    obtain rfl : x = y := Nat.succ.inj hy
    obtain rfl := Option.some.inj (hi.symm.trans hfork)
    cases hloose
  · cases hsealed

/-- After the unwinding of a region a tight address has its alternative dropped. -/
theorem Fits.unwinds_of_tight (h : w.Fits) (hbefore : w.before.isSome = true) {mark : Nat}
    (hi : w.program.code[x]? = some (.unwind mark)) (hsealed : w.program.isSealed (x + 1) = true) :
    w.program.unwinds mark = true := by
  unfold Program.isSealed at hsealed
  split at hsealed
  · exact Program.unwinds_of_drop hi ‹_›
  · obtain ⟨y, a, hy, hfork⟩ := (h.drops hbefore).look _ _ ‹_› hsealed
    obtain rfl : x = y := Nat.succ.inj hy
    cases hi.symm.trans hfork
  · cases hsealed

theorem Fits.loose_target (h : w.Fits) {a : Nat} (hi : w.program.code[x]? = some i)
    (ha : i.target? = some a) : w.isTight a = false := by
  unfold isTight
  cases hbefore : w.before.isSome with
  | false => rfl
  | true => exact (h.drops hbefore).target x i a hi ha

theorem Fits.loose_loop (h : w.Fits) {id : Nat} {l : CountedLoop}
    (hi : w.program.code[x]? = some i) (hid : i.loop? = some id)
    (hl : w.program.tables.loops[id]? = some l) :
    w.isTight l.body = false ∧ w.isTight l.exit = false := by
  unfold isTight
  cases hbefore : w.before.isSome with
  | false => exact ⟨rfl, rfl⟩
  | true => exact (h.drops hbefore).loop x i id l hi hid hl

theorem Fits.loose_skip (h : w.Fits) {check : Nat} {captures : Bool}
    (hi : w.program.code[x]? = some (.roundEnd check captures)) : w.isTight (x + 2) = false := by
  unfold isTight
  cases hbefore : w.before.isSome with
  | false => rfl
  | true => exact (h.drops hbefore).skip x check captures hi

end Sweep
end RegexMachine
