import RegexMachine.Proofs.Extents
import RegexMachine.Proofs.Moves

/-!
The flow of a program: where code can go on to. Whatever an invocation of a subroutine comes to, it
comes to along these edges, a call being passed over to where it returns.
-/
namespace RegexMachine

/-- Whether an instruction changes a group and leaves a record of it. -/
def Instr.Saves (g : Nat) : Instr → Prop
  | .groupStart k undo => k = g ∧ undo = true
  | .groupEnd k undo => k = g ∧ undo = true
  | .groupEndRecursive k => k = g
  | _ => False

/-- Whether an instruction changes the count of a loop. -/
def Instr.Counts (id : Nat) : Instr → Prop
  | .repeatEnter k => k = id
  | .repeatNext k => k = id
  | _ => False

namespace Machine

/-- An instruction at an address and a position can lead to another address and position, at once
or when a choice that it has left is resumed. A lookaround ends where it began, so its start leads
past its end too; a call goes on elsewhere. -/
def Leads (e : Setting) (i : Instr) (a x : Nat) (b y : Nat) : Prop :=
  match i with
  | .byte c => b = a + 1 ∧ Extent.text (e.subject.byteLength? · c) x y
  | .text bytes => b = a + 1 ∧ Extent.text (e.subject.textLength? · bytes) x y
  | .foldedText bytes => b = a + 1 ∧ Extent.text (e.subject.foldedLength? · bytes) x y
  | .charClass k => b = a + 1 ∧ Extent.text (e.subject.classLength? · k) x y
  | .charType type negated ascii =>
    b = a + 1 ∧ Extent.text (e.subject.typeLength? · type negated ascii) x y
  | .anyChar multiline => b = a + 1 ∧ Extent.text (e.subject.anyLength? · multiline) x y
  | .anyChars _ => b = a + 1 ∧ Extent.onward e.subject.size x y
  | .anyCharsBefore _ _ => b = a + 1 ∧ Extent.onward e.subject.size x y
  | .backref _ _ => b = a + 1 ∧ Extent.onward e.subject.size x y
  | .absent _ => b = a + 1 ∧ Extent.onward e.subject.size x y
  | .stepBack _ _ => b = a + 1 ∧ y ≤ x
  | .ifSet _ c => (b = a + 1 ∨ b = c) ∧ y = x
  | .fork c => (b = a + 1 ∨ b = c) ∧ y = x
  | .jump c => b = c ∧ y = x
  | .roundEnd _ _ => (b = a + 1 ∨ b = a + 2) ∧ y = x
  | .repeatEnter id => ∃ l, e.program.tables.loops[id]? = some l ∧
    (b = l.body ∨ (l.min = 0 ∧ b = l.exit)) ∧ y = x
  | .repeatNext id => ∃ l, e.program.tables.loops[id]? = some l ∧ (b = l.body ∨ b = l.exit) ∧ y = x
  | .lookStart mark =>
    (b = a + 1 ∨ ∃ k, e.program.code[k]? = some (.lookEnd mark) ∧ b = k + 1) ∧ y = x
  | .accept => False
  | .fail => False
  | .call _ _ => False
  | .ret => False
  | .lookEnd _ => False
  | .absentEnd => False
  | _ => b = a + 1 ∧ y = x

/-- Places that code entered at an address and a position can come to before it returns. -/
inductive Reach (e : Setting) : (entry p : Nat) → (a x : Nat) → Prop
  | entry (a x : Nat) : Reach e a x a x
  | step {c p a x b y : Nat} {i : Instr} (h : Reach e c p a x)
    (hi : e.program.code[a]? = some i) (hto : Leads e i a x b y) : Reach e c p b y
  /-- A call goes on where the code that it entered returns. -/
  | call {c p a x b t y sub : Nat} (h : Reach e c p a x)
    (hcall : e.program.code[a]? = some (.call t sub)) (hb : Reach e t x b y)
    (hret : e.program.code[b]? = some .ret) : Reach e c p (a + 1) y

end Machine
end RegexMachine
