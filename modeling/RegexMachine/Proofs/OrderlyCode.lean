import RegexMachine.Proofs.Expansion
import RegexMachine.Proofs.LookMarks
import RegexMachine.Proofs.SafeTrees

/-!
Compiled code is in order wherever it takes any characters in one step: nothing leads into the way
of a negated lookaround, and what comes next is the literal that was looked ahead for. This is shown
from the end of the code of a tree to its beginning, since an address is known to be open once the
code after it is.
-/
namespace RegexMachine
open Compile Machine

/-- Whether an instruction may come after the end of a round. -/
def Instr.goesBack : Instr → Bool
  | jump _ => true
  | fork _ => true
  | repeatNext _ => true
  | _ => false

/-- Whether an address may be sealed where an instruction stands. -/
def Instr.seals : Instr → Bool
  | drop => true
  | lookStart _ => true
  | _ => false

/-- Whether an instruction may stand anywhere and leads nowhere but to the next one. -/
def Instr.leadsOn : Instr → Bool
  | drop => false
  | lookStart _ => false
  | roundEnd _ _ => false
  | anyCharsBefore _ _ => false
  | i => i.target?.isNone && i.loop?.isNone

namespace Program

variable (p : Program)

/-- Anything may lead to an address. -/
def IsOpen (x : Addr) : Prop := p.isSealed x = false

/-- A literal that begins with the byte that was looked ahead for comes next, or the end of a region
that no alternatives leave. -/
def Faces (peek : Option UInt8) (x : Addr) : Prop :=
  ∀ b, peek = some b → ∃ i, p.code[x]? = some i ∧ (i.BeginsWith b ∨ ∃ mark, i = .atomicEnd mark)

/-- An instruction stands where it may stand, and leads to where it may lead. -/
def Orderly (x : Addr) : Instr → Prop
  | .drop => ∃ y mark, x = y + 1 ∧ p.code[y]? = some (.unwind mark)
  | .lookStart mark => p.unwinds mark = true → ∃ y a, x = y + 1 ∧ p.code[y]? = some (.fork a)
  | .roundEnd _ _ => p.IsOpen (x + 2) ∧ ∃ i, p.code[x + 1]? = some i ∧ i.goesBack = true
  | .anyCharsBefore _ b => p.Faces (some b) (x + 1)
  | i => (∀ a, i.target? = some a → p.IsOpen a) ∧
      ∀ id l, i.loop? = some id → p.tables.loops[id]? = some l → p.IsOpen l.body ∧ p.IsOpen l.exit

/-- All instructions between two addresses are in order. -/
def OrderlyIn (x y : Nat) : Prop :=
  ∀ (k : Nat) i, x ≤ k → k < y → p.code[k]? = some i → p.Orderly k i

variable {p} {x y z : Nat} {i : Instr} {peek : Option UInt8}

theorem isOpen_of_instr (hi : p.code[x]? = some i) (h : i.seals = false) : p.IsOpen x := by
  unfold IsOpen isSealed
  rw [hi]
  cases i <;> first | rfl | cases h

theorem isOpen_of_goesBack (hi : p.code[x]? = some i) (h : i.goesBack = true) : p.IsOpen x :=
  isOpen_of_instr hi (by cases i <;> first | rfl | cases h)

theorem faces_none (x : Addr) : p.Faces none x := nofun

namespace OrderlyIn

theorem empty : p.OrderlyIn x x := fun k _ hle hlt _ => by omega

/-- One piece of code after another. -/
theorem append (h : p.OrderlyIn x y) (h' : p.OrderlyIn y z) : p.OrderlyIn x z :=
  fun k i hle hlt hi => by
    by_cases hk : k < y
    · exact h k i hle hk hi
    · exact h' k i (by omega) hlt hi

theorem single (hi : p.code[x]? = some i) (h : p.Orderly x i) : p.OrderlyIn x (x + 1) := by
  intro k j hle hlt hj
  obtain rfl : k = x := by omega
  obtain rfl := Option.some.inj (hi.symm.trans hj)
  exact h

theorem plain (hi : p.code[x]? = some i) (h : i.leadsOn = true) : p.OrderlyIn x (x + 1) := by
  refine single hi ?_
  cases i <;> first | exact absurd h Bool.false_ne_true | exact ⟨nofun, nofun⟩

theorem jump {a : Nat} (hi : p.code[x]? = some (.jump a)) (ha : p.IsOpen a) :
    p.OrderlyIn x (x + 1) :=
  single hi ⟨fun b hb => by cases hb; exact ha, nofun⟩

theorem fork {a : Nat} (hi : p.code[x]? = some (.fork a)) (ha : p.IsOpen a) :
    p.OrderlyIn x (x + 1) :=
  single hi ⟨fun b hb => by cases hb; exact ha, nofun⟩

end OrderlyIn

/-- No look around is both kept and unwound. -/
def MarksApart (p : Program) : Prop := ∀ mark, .lookEnd mark ∈ p.code → .unwind mark ∉ p.code

/-- Calls lead to open addresses. -/
def OpensRoutines (p : Program) : Prop :=
  p.IsOpen 0 ∧ ∀ s ∈ p.tables.subroutines, p.IsOpen s.entry

/-- A piece of code that begins where anything may lead to and is in order, whenever anything may
lead to its end and the literal that was looked ahead for comes next. -/
structure Sits (p : Program) (peek : Option UInt8) (part : Part) : Prop where
  opens : ∀ {φ later z} {x y : Addr}, part φ later z x y → p.IsOpen y → p.IsOpen x
  orderly : p.OpensRoutines → ∀ {φ later z} {x y : Addr}, part φ later z x y → p.IsOpen y →
    p.Faces peek y → p.OrderlyIn x y

namespace Sits

variable {B : Built} {part part' : Part} {info : Info} {f : Way}

/-! ## Loops -/

theorem guard_opens {φ : Promise} {later : Nat → Prop} {z : Zone} {x y : Addr} (hB : Serves p B)
    (h : B.GuardAt φ later z x y) (hy : p.IsOpen y) : p.IsOpen x ∧ p.OrderlyIn x y := by
  obtain rfl | ⟨_, id, -, -, hi, rfl⟩ := h
  · exact ⟨hy, .empty⟩
  · rw [hB.code] at hi
    exact ⟨isOpen_of_instr hi rfl, .plain hi rfl⟩

theorem offer_opens {greedy : Bool} {exit x y : Addr} (hB : Serves p B)
    (h : B.OfferAt greedy exit x y) : p.IsOpen x := by
  unfold Built.OfferAt at h
  rw [hB.code] at h
  split at h
  · exact isOpen_of_instr h.1 rfl
  · exact isOpen_of_instr h.1 rfl

theorem offer_orderly {greedy : Bool} {exit x y : Addr} (hB : Serves p B)
    (h : B.OfferAt greedy exit x y) (hexit : p.IsOpen exit) (hy : p.IsOpen y) :
    p.OrderlyIn x y := by
  unfold Built.OfferAt at h
  rw [hB.code] at h
  split at h
  · obtain ⟨hfork, rfl⟩ := h
    exact .fork hfork hexit
  · obtain ⟨hfork, hjump, rfl⟩ := h
    exact (OrderlyIn.fork hfork hy).append (.jump hjump hexit)

theorem round_opens (hB : Serves p B) (h : p.Sits none part) {φ : Promise} {later : Nat → Prop}
    {z : Zone} {x y : Addr} (hat : B.RoundAt info part φ later z x y) (hy : p.IsOpen y) :
    p.IsOpen x := by
  unfold Built.RoundAt at hat
  split at hat
  · exact h.opens hat hy
  · obtain ⟨id, w, -, hstart, -⟩ := hat
    rw [hB.code] at hstart
    exact isOpen_of_instr hstart rfl

/-- After a round stands an instruction that goes back, and another address that anything may lead
to. -/
theorem round_orderly (hB : Serves p B) (h : p.Sits none part) (hr : p.OpensRoutines)
    {φ : Promise} {later : Nat → Prop} {z : Zone} {x y : Nat}
    (hat : B.RoundAt info part φ later z x y) {i : Instr} (hi : p.code[y]? = some i)
    (hback : i.goesBack = true) (hafter : p.IsOpen (y + 1)) : p.OrderlyIn x y := by
  have hy := isOpen_of_goesBack hi hback
  unfold Built.RoundAt at hat
  split at hat
  · exact h.orderly hr hat hy (faces_none y)
  · obtain ⟨id, w, -, hstart, hbody, hend, rfl⟩ := hat
    rw [hB.code] at hstart hend
    refine ((OrderlyIn.plain hstart rfl).append ?_).append
      (.single hend ⟨hafter, i, hi, hback⟩)
    exact h.orderly hr hbody (isOpen_of_instr hend rfl) (faces_none w)

theorem star (hB : Serves p B) (greedy : Bool) (h : p.Sits none part) :
    p.Sits peek (B.StarAt greedy info f part) where
  opens hat _ := by
    obtain ⟨g, o, w, hguard, hoffer, -, -, -⟩ := hat
    exact (guard_opens hB hguard (offer_opens hB hoffer)).1
  orderly hr {φ later z x y} hat hy _ := by
    obtain ⟨g, o, w, hguard, hoffer, hround, hjump, rfl⟩ := hat
    rw [hB.code] at hjump
    obtain ⟨hx, hin⟩ := guard_opens hB hguard (offer_opens hB hoffer)
    exact ((hin.append (offer_orderly hB hoffer hy
      (round_opens hB h hround (isOpen_of_instr hjump rfl)))).append
        (round_orderly hB h hr hround hjump rfl hy)).append (.jump hjump hx)

theorem greedyPlus (hB : Serves p B) (h : p.Sits none part) :
    p.Sits peek (B.GreedyPlusAt info f part) where
  opens hat _ := by
    obtain ⟨g, w, hentry, -⟩ := hat
    rw [hB.code] at hentry
    exact isOpen_of_instr hentry rfl
  orderly hr {φ later z x y} hat hy _ := by
    obtain ⟨g, w, hentry, hguard, hfork, hround, hjump, rfl⟩ := hat
    rw [hB.code] at hentry hfork hjump
    obtain ⟨hhead, hin⟩ := guard_opens hB hguard (isOpen_of_instr hfork rfl)
    have hbody := round_opens hB h hround (isOpen_of_instr hjump rfl)
    exact ((((OrderlyIn.jump hentry hbody).append hin).append (.fork hfork hy)).append
      (round_orderly hB h hr hround hjump rfl hy)).append (.jump hjump hhead)

theorem lazyPlus (hB : Serves p B) (h : p.Sits none part) :
    p.Sits peek (B.LazyPlusAt info f part) where
  opens hat _ := by
    obtain ⟨g, w, hguard, hround, hfork, -⟩ := hat
    rw [hB.code] at hfork
    exact (guard_opens hB hguard (round_opens hB h hround (isOpen_of_instr hfork rfl))).1
  orderly hr {φ later z x y} hat hy _ := by
    obtain ⟨g, w, hguard, hround, hfork, rfl⟩ := hat
    rw [hB.code] at hfork
    obtain ⟨hx, hin⟩ :=
      guard_opens hB hguard (round_opens hB h hround (isOpen_of_instr hfork rfl))
    exact (hin.append (round_orderly hB h hr hround hfork rfl hy)).append (.fork hfork hx)

theorem plus (hB : Serves p B) (greedy : Bool) (h : p.Sits none part) :
    p.Sits peek (B.PlusAt greedy info f part) := by
  cases greedy with
  | true => exact greedyPlus hB h
  | false => exact lazyPlus hB h

/-- One piece of code after another. -/
theorem andThen {ahead : Option UInt8} (h : p.Sits ahead part) (h' : p.Sits peek part')
    (hahead : ∀ {φ later z} {x y : Addr}, part' φ later z x y → p.Faces ahead x)
    (before : Promise → (Nat → Prop) → Nat → Prop) :
    p.Sits peek fun φ later z x y => ∃ w, part φ (before φ later) z x w ∧ part' φ later z w y where
  opens hat hy := by
    obtain ⟨w, hfirst, hrest⟩ := hat
    exact h.opens hfirst (h'.opens hrest hy)
  orderly hr {φ later z x y} hat hy hpeek := by
    obtain ⟨w, hfirst, hrest⟩ := hat
    exact (h.orderly hr hfirst (h'.opens hrest hy) (hahead hrest)).append
      (h'.orderly hr hrest hy hpeek)

theorem nothing : p.Sits peek fun _ _ _ x y => x = y where
  opens hat hy := hat ▸ hy
  orderly _ {φ later z x y} hat _ _ := by
    obtain rfl : x = y := hat
    exact .empty

theorem times (h : p.Sits none part) (n : Nat) : p.Sits none (Built.TimesAt f part n) := by
  induction n with
  | zero => exact nothing
  | succ n ih => exact h.andThen ih (fun _ => faces_none _) fun _ later => leads (f.times n) later

theorem upTo (hB : Serves p B) (greedy : Bool) (h : p.Sits none part) (n : Nat) :
    p.Sits peek (B.UpToAt greedy f part n) := by
  induction n with
  | zero => exact nothing
  | succ n ih =>
    refine ⟨fun hat _ => ?_, fun hr φ later z x y hat hy hpeek => ?_⟩
    · obtain ⟨o, w, hoffer, -, -⟩ := hat
      exact offer_opens hB hoffer
    · obtain ⟨o, w, hoffer, hbody, hrest⟩ := hat
      have hw := ih.opens hrest hy
      exact ((offer_orderly hB hoffer hy (h.opens hbody hw)).append
        (h.orderly hr hbody hw (faces_none w))).append (ih.orderly hr hrest hy hpeek)

theorem unrolled (hB : Serves p B) (b : Bounds) (greedy : Bool) (h : p.Sits none part) :
    p.Sits peek (B.UnrolledAt b greedy info f part) := by
  unfold Built.UnrolledAt
  cases b.max with
  | none =>
    exact (times h (b.min - 1)).andThen (plus hB greedy h) (fun _ => faces_none _)
      fun _ later => leads (f.plus B.size greedy) later
  | some max =>
    exact (times h b.min).andThen (upTo hB greedy h (max - b.min)) (fun _ => faces_none _)
      fun _ later => leads (f.upTo greedy (max - b.min)) later

theorem counted (hB : Serves p B) (b : Bounds) (greedy : Bool) (h : p.Sits none part) :
    p.Sits peek (B.CountedAt b greedy info part) where
  opens hat _ := by
    obtain ⟨id, w, -, henter, -⟩ := hat
    rw [hB.code] at henter
    exact isOpen_of_instr henter rfl
  orderly hr {φ later z x y} hat hy _ := by
    obtain ⟨id, w, -, henter, hloop, hround, hnext, rfl⟩ := hat
    rw [hB.code] at henter hnext
    have hbody := round_opens hB h hround (isOpen_of_instr hnext rfl)
    have hplaces : ∀ id' l, some id = some id' → p.tables.loops[id']? = some l →
        p.IsOpen l.body ∧ p.IsOpen l.exit := by
      intro id' l hid hl
      cases hid
      obtain rfl := Option.some.inj (hl.symm.trans (hB.loops id _ hloop))
      exact ⟨hbody, hy⟩
    exact ((OrderlyIn.single henter ⟨nofun, hplaces⟩).append
      (round_orderly hB h hr hround hnext rfl hy)).append (.single hnext ⟨nofun, hplaces⟩)

theorem repeats (hB : Serves p B) (b : Bounds) (greedy : Bool) (plan : RepeatPlan)
    (h : p.Sits none part) : p.Sits peek (B.RepeatAt b greedy plan info f part) := by
  cases plan with
  | skip => exact nothing
  | optional => exact upTo hB greedy h 1
  | star => exact star hB greedy h
  | plus => exact plus hB greedy h
  | unroll => exact unrolled hB b greedy h
  | counted => exact counted hB b greedy h

/-! ## Regions, choices and groups -/

/-- The end of the region stands for any literal. -/
theorem atomic (hB : Serves p B) {ahead : Option UInt8} (h : p.Sits ahead part) :
    p.Sits peek (B.AtomicAt part) where
  opens hat _ := by
    obtain ⟨mark, w, hstart, -⟩ := hat
    rw [hB.code] at hstart
    exact isOpen_of_instr hstart rfl
  orderly hr {φ later z x y} hat _ _ := by
    obtain ⟨mark, w, hstart, hbody, hend, rfl⟩ := hat
    rw [hB.code] at hstart hend
    exact ((OrderlyIn.plain hstart rfl).append (h.orderly hr hbody (isOpen_of_instr hend rfl)
      fun b _ => ⟨_, hend, Or.inr ⟨mark, rfl⟩⟩)).append (.plain hend rfl)

theorem lookBody (hB : Serves p B) (h : p.Sits none part) (hr : p.OpensRoutines) {k : Look}
    {mark : Nat} {φ : Promise} {later : Nat → Prop} {z : Zone} {x y : Nat}
    (hat : B.LookBodyAt k info part mark φ later z x y) (hy : p.IsOpen y)
    (hbegin : p.unwinds mark = true → ∃ w a, x = w + 1 ∧ p.code[w]? = some (.fork a)) :
    p.OrderlyIn x y := by
  obtain ⟨hstart, hat⟩ := hat
  rw [hB.code] at hstart
  have hfirst : p.OrderlyIn x (x + 1) := .single hstart hbegin
  split at hat
  · obtain ⟨w, hstep, hbody, hcheck, rfl⟩ := hat
    rw [hB.code] at hstep hcheck
    exact ((hfirst.append (.plain hstep rfl)).append
      (h.orderly hr hbody (isOpen_of_instr hcheck rfl) (faces_none w))).append (.plain hcheck rfl)
  · exact hfirst.append (h.orderly hr hat hy (faces_none y))

/-- A look around that is kept has a mark that is never unwound. -/
theorem look (hB : Serves p B) (hmarks : p.MarksApart) (k : Look) (h : p.Sits none part) :
    p.Sits peek (B.LookAt k info part) := by
  have hkept {x : Nat} {mark : Nat} (hend : p.code[x]? = some (.lookEnd mark)) :
      p.unwinds mark = false := by
    rw [unwinds, List.any_eq_false]
    intro y _ hy
    simp only [Bool.and_eq_true, beq_iff_eq] at hy
    exact hmarks mark (Array.mem_of_getElem? hend) (Array.mem_of_getElem? hy.1)
  refine ⟨fun {φ later z x y} hat _ => ?_, fun hr φ later z x y hat hy _ => ?_⟩
  · obtain ⟨mark, w, hat⟩ := hat
    split at hat
    · obtain ⟨hfork, -⟩ := hat
      rw [hB.code] at hfork
      exact isOpen_of_instr hfork rfl
    · obtain ⟨⟨hstart, -⟩, hend, -⟩ := hat
      rw [hB.code] at hstart hend
      unfold IsOpen isSealed
      rw [hstart]
      exact hkept hend
  · obtain ⟨mark, w, hat⟩ := hat
    split at hat
    · obtain ⟨hfork, hbody, hunwind, hdrop, hfail, rfl⟩ := hat
      rw [hB.code] at hfork hunwind hdrop hfail
      exact ((((OrderlyIn.fork hfork hy).append (lookBody hB h hr hbody
        (isOpen_of_instr hunwind rfl) fun _ => ⟨x, _, rfl, hfork⟩)).append
          (.plain hunwind rfl)).append (.single hdrop ⟨w, mark, rfl, hunwind⟩)).append
            (.plain hfail rfl)
    · obtain ⟨hbody, hend, rfl⟩ := hat
      rw [hB.code] at hend
      exact (lookBody hB h hr hbody (isOpen_of_instr hend rfl) fun hunwinds =>
        absurd hunwinds (by simp [hkept hend])).append (.plain hend rfl)

theorem absent (hB : Serves p B) (h : p.Sits none part) : p.Sits peek (B.AbsentAt part) where
  opens hat _ := by
    obtain ⟨w, hstart, -⟩ := hat
    rw [hB.code] at hstart
    exact isOpen_of_instr hstart rfl
  orderly hr {φ later z x y} hat hy _ := by
    obtain ⟨w, hstart, hjump, hbody, hend, rfl⟩ := hat
    rw [hB.code] at hstart hjump hend
    have hinside := h.opens hbody (isOpen_of_instr hend rfl)
    refine ((OrderlyIn.single hstart ⟨fun a ha => ?_, nofun⟩).append (.jump hjump hy)).append
      ((h.orderly hr hbody (isOpen_of_instr hend rfl) (faces_none w)).append (.plain hend rfl))
    cases ha
    exact hinside

theorem conditional (hB : Serves p B) (groups : List Nat) (h : p.Sits none part)
    (h' : p.Sits none part') : p.Sits peek (B.ConditionalAt groups part part') where
  opens hat _ := by
    obtain ⟨w, hif, -⟩ := hat
    rw [hB.code] at hif
    exact isOpen_of_instr hif rfl
  orderly hr {φ later z x y} hat hy _ := by
    obtain ⟨w, hif, hyes, hjump, hno⟩ := hat
    rw [hB.code] at hif hjump
    have hother := h'.opens hno hy
    refine ((OrderlyIn.single hif ⟨fun a ha => ?_, nofun⟩).append (h.orderly hr hyes
      (isOpen_of_instr hjump rfl) (faces_none w))).append
        ((OrderlyIn.jump hjump hy).append (h'.orderly hr hno hy (faces_none y)))
    cases ha
    exact hother

theorem call (hB : Serves p B) (group : Nat) : p.Sits peek fun _ _ _ => B.CallAt group where
  opens hat _ := by
    obtain ⟨sub, -, hcall, -⟩ := hat
    rw [hB.code] at hcall
    exact isOpen_of_instr hcall rfl
  orderly hr {φ later z x y} hat _ _ := by
    obtain ⟨sub, -, hcall, rfl⟩ := hat
    rw [hB.code, hB.subs] at hcall
    refine .single hcall ⟨fun a ha => ?_, nofun⟩
    cases ha
    cases hsub : p.tables.subroutines[sub]? with
    | none => exact hr.1
    | some s => exact hr.2 s (Array.mem_of_getElem? hsub)

theorem capture (hB : Serves p B) (group : Nat) (h : p.Sits none part) :
    p.Sits peek (B.CaptureAt group part) := by
  unfold Built.CaptureAt
  split
  · exact call hB group
  · refine ⟨fun {φ later z x y} hat _ => ?_, fun hr φ later z x y hat _ _ => ?_⟩
    · obtain ⟨w, hstart, -⟩ := hat
      rw [hB.code] at hstart
      exact isOpen_of_instr hstart rfl
    · obtain ⟨w, hstart, hbody, hend, rfl⟩ := hat
      rw [hB.code] at hstart hend
      exact ((OrderlyIn.plain hstart rfl).append (h.orderly hr hbody (isOpen_of_instr hend rfl)
        (faces_none w))).append (.plain hend rfl)

theorem instr (hB : Serves p B) {o : Option Instr}
    (hplain : ∀ i, o = some i → i.leadsOn = true ∧ i.seals = false) :
    p.Sits peek fun _ _ _ => B.InstrAt o := by
  unfold Built.InstrAt
  cases o with
  | none => exact nothing
  | some i =>
    obtain ⟨hplain, hseals⟩ := hplain i rfl
    refine ⟨fun {φ later z x y} hat _ => ?_, fun _ φ later z x y hat _ _ => ?_⟩
    · rw [hB.code] at hat
      exact isOpen_of_instr hat.1 hseals
    · obtain ⟨hi, rfl⟩ := hat
      rw [hB.code] at hi
      exact .plain hi hplain

theorem atom (hB : Serves p B) (a : Atom) : p.Sits peek fun _ _ _ => B.AtomAt a := by
  cases a with
  | call t group => exact call hB group
  | literal bytes fold =>
    refine instr hB fun i hi => ?_
    simp only [Built.atomInstr?, literalCode] at hi
    repeat' split at hi
    all_goals cases hi <;> exact ⟨rfl, rfl⟩
  | empty => exact instr (o := none) hB fun i hi => absurd hi.symm (Option.some_ne_none i)
  | _ =>
    refine instr (o := some _) hB fun i hi => ?_
    cases hi
    exact ⟨rfl, rfl⟩

/-- The loop of a repeat, or the one instruction that does it all. -/
theorem anyChars (hB : Serves p B) (mode : RepeatMode) (plan : RepeatPlan) (n : Node Measured)
    (h : p.Sits peek part) :
    p.Sits peek (B.LoopAt (anyCharsCode? mode plan peek n) part) := by
  have hinstr : ∀ i, anyCharsCode? mode plan peek n = some i →
      (i.leadsOn = true ∨ ∃ multiline b, peek = some b ∧ i = .anyCharsBefore multiline b) ∧
        i.seals = false := by
    intro i hi
    unfold anyCharsCode? at hi
    split at hi
    · split at hi
      · cases hi
      · split at hi <;> cases hi
        · exact ⟨Or.inr ⟨_, _, rfl, rfl⟩, rfl⟩
        · exact ⟨Or.inl rfl, rfl⟩
    · cases hi
  refine ⟨fun {φ later z x y} hat hy => ?_, fun hr φ later z x y hat hy hpeek => ?_⟩
  · obtain ⟨i, hi, hx, -⟩ | ⟨-, hat⟩ := hat
    · rw [hB.code] at hx
      exact isOpen_of_instr hx (hinstr i hi).2
    · exact h.opens hat hy
  · obtain ⟨i, hi, hx, rfl⟩ | ⟨-, hat⟩ := hat
    · rw [hB.code] at hx
      obtain hplain | ⟨multiline, b, rfl, rfl⟩ := (hinstr i hi).1
      · exact .plain hx hplain
      · exact .single hx hpeek
    · exact h.orderly hr hat hy hpeek

/-! ## Trees -/

/-- What has been looked ahead for begins the code of the items. -/
theorem sequence_faces (hB : Serves p B) (ns : List (Node Measured)) {φ : Promise}
    {later : Nat → Prop} {z : Zone} {x y : Addr} (h : B.SequenceAt ns φ later z x y) :
    p.Faces (peekByte? ns) x := by
  intro b hb
  unfold peekByte? at hb
  split at hb
  · rename_i bytes ns
    rw [Built.SequenceAt] at h
    obtain ⟨w, hliteral, -⟩ := h
    rw [Built.NodeAt] at hliteral
    simp only [Built.AtomAt, Built.atomInstr?, literalCode] at hliteral
    have hne : bytes.isEmpty = false := by
      rw [Bool.eq_false_iff]
      intro hempty
      rw [Array.isEmpty_iff.mp hempty] at hb
      cases hb
    simp only [hne, Bool.false_eq_true, ↓reduceIte, hB.code] at hliteral
    by_cases hone : bytes.size = 1
    · rw [if_pos hone] at hliteral
      refine ⟨.byte (bytes.byteAt 0), hliteral.1, Or.inl ?_⟩
      change bytes.getD 0 0 = b
      rw [Array.getD_eq_getD_getElem?, hb]
      rfl
    · rw [if_neg hone] at hliteral
      exact ⟨.text bytes, hliteral.1, Or.inl hb⟩
  · cases hb

mutual

/-- The code of a node is in order. -/
theorem node (hB : Serves p B) (hmarks : p.MarksApart) :
    ∀ (n : Node Measured) (peek : Option UInt8), p.Sits peek (B.NodeAt peek n)
  | .atom _ a, peek => by
    rw [Built.NodeAt]
    exact atom hB a
  | .repeated _ b mode body, peek => by
    have hbody : p.Sits peek (B.RepeatAt b (mode != .lazy) (repeatPlan b body) body.info
        (B.scene.ways body) (B.NodeAt none body)) :=
      repeats hB b (mode != .lazy) (repeatPlan b body) (node hB hmarks body none)
    have hloop := anyChars hB mode (repeatPlan b body) body hbody
    rw [Built.NodeAt]
    split
    · exact atomic hB hloop
    · exact hloop
  | .group _ (.capture g _) body, peek => by
    rw [Built.NodeAt]
    exact capture hB g (node hB hmarks body none)
  | .group _ .plain body, peek => by
    rw [Built.NodeAt]
    exact ⟨(node hB hmarks body none).opens, fun hr _ _ _ _ _ hat hy _ =>
      (node hB hmarks body none).orderly hr hat hy (faces_none _)⟩
  | .group _ .atomic body, peek => by
    rw [Built.NodeAt]
    exact atomic hB (node hB hmarks body none)
  | .group _ .absent body, peek => by
    rw [Built.NodeAt]
    exact absent hB (node hB hmarks body none)
  | .conditional _ _ gs yes no, peek => by
    rw [Built.NodeAt]
    exact conditional hB gs (node hB hmarks yes none) (option hB hmarks no)
  | .look _ k body, peek => by
    rw [Built.NodeAt]
    exact look hB hmarks k (node hB hmarks body none)
  | .sequence _ items, peek => by
    rw [Built.NodeAt]
    exact sequence hB hmarks items peek
  | .alternation _ branches, peek => by
    rw [Built.NodeAt]
    exact alternation hB hmarks branches peek

theorem option (hB : Serves p B) (hmarks : p.MarksApart) :
    ∀ no : Option (Node Measured), p.Sits none (B.OptionAt no)
  | none => by
    rw [Built.OptionAt]
    exact nothing
  | some n => by
    rw [Built.OptionAt]
    exact node hB hmarks n none

theorem sequence (hB : Serves p B) (hmarks : p.MarksApart) :
    ∀ (ns : List (Node Measured)) (peek : Option UInt8), p.Sits peek (B.SequenceAt ns)
  | [], peek => by
    rw [Built.SequenceAt]
    exact nothing
  | n :: ns, peek => by
    rw [Built.SequenceAt]
    exact (node hB hmarks n (peekByte? ns)).andThen (sequence hB hmarks ns peek)
      (fun hat => sequence_faces hB ns hat) fun _ later => leads (B.scene.waysAll ns) later

theorem alternation (hB : Serves p B) (hmarks : p.MarksApart) :
    ∀ (ns : List (Node Measured)) (peek : Option UInt8), p.Sits peek (B.BranchesAt ns)
  | [], peek => by
    rw [Built.BranchesAt]
    exact nothing
  | [n], peek => by
    rw [Built.BranchesAt]
    exact ⟨(node hB hmarks n none).opens, fun hr _ _ _ _ _ hat hy _ =>
      (node hB hmarks n none).orderly hr hat hy (faces_none _)⟩
  | n :: n' :: ns, peek => by
    have hrest := alternation hB hmarks (n' :: ns) peek
    rw [Built.BranchesAt]
    refine ⟨fun {φ later z x y} hat _ => ?_, fun hr φ later z x y hat hy hpeek => ?_⟩
    · obtain ⟨w, hfork, -⟩ := hat
      rw [hB.code] at hfork
      exact isOpen_of_instr hfork rfl
    · obtain ⟨w, hfork, hfirst, hjump, hat⟩ := hat
      rw [hB.code] at hfork hjump
      exact ((OrderlyIn.fork hfork (hrest.opens hat hy)).append
        ((node hB hmarks n none).orderly hr hfirst (isOpen_of_instr hjump rfl)
          (faces_none w))).append ((OrderlyIn.jump hjump hy).append (hrest.orderly hr hat hy hpeek))

end

end Sits
end Program
end RegexMachine
