import RegexMachine.Proofs.CallSites
import RegexMachine.Proofs.Records
import RegexMachine.Proofs.Subroutines

/-!
Lookarounds end where their own code ends. Each has a mark of its own, so no other code of a program
ends it. The instructions of a group tell everywhere alike whether backtracking restores it.
-/
namespace RegexMachine
open Compile

namespace Instr

/-- The mark of the lookaround that an instruction ends. -/
def closed? : Instr → Option Nat
  | .lookEnd mark => some mark
  | .unwind mark => some mark
  | _ => none

/-- No mark is ended by both of two instructions. -/
def Apart (i j : Instr) : Prop := ∀ mark, i.closed? = some mark → j.closed? ≠ some mark

/-- Whether a group is restored is as it has been decided. -/
def Marked (undone : Array Bool) : Instr → Prop
  | .groupStart g undo => undo = undone.getD g true
  | .groupEnd g undo => undo = undone.getD g true
  | _ => True

/-- An instruction that neither ends a lookaround nor changes a group. -/
def isPlain : Instr → Bool
  | .lookEnd _ => false
  | .unwind _ => false
  | .groupStart _ _ => false
  | .groupEnd _ _ => false
  | _ => true

theorem closed?_of_isPlain {i : Instr} (h : i.isPlain = true) : i.closed? = none := by
  cases i <;> first | rfl | cases h

theorem marked_of_isPlain {i : Instr} (h : i.isPlain = true) (undone : Array Bool) :
    i.Marked undone := by
  cases i <;> trivial

end Instr

namespace Compile

/-- A chunk ends lookarounds with the marks that were handed out for it, each at one place. -/
structure Tidy (l : Layout) (i : Issued) (chunk : Chunk) (i' : Issued) : Prop where
  marks : i.marks ≤ i'.marks
  range : ∀ instr ∈ chunk.toList, ∀ mark, instr.closed? = some mark → i.marks ≤ mark ∧ mark < i'.marks
  apart : chunk.toList.Pairwise Instr.Apart
  marked : ∀ instr ∈ chunk.toList, instr.Marked l.undone

/-- Chunks that were written one after another. -/
def TidyAll (l : Layout) : Issued → List Chunk → Issued → Prop
  | i, [], i' => i.marks ≤ i'.marks
  | i, b :: bs, i' => ∃ j, Tidy l i b j ∧ TidyAll l j bs i'

/-- A writer writes tidy chunks. -/
def Tidies (l : Layout) (w : Writer) : Prop := ∀ p i i' chunk, w p l i = .ok chunk i' → Tidy l i chunk i'

variable {l : Layout} {i j i' : Issued} {a b chunk : Chunk} {w no : Writer} {p : Place}

namespace Tidy

/-- Instructions that end nothing and change no group are in nobody's way. -/
theorem plain (h : ∀ instr ∈ chunk.toList, instr.isPlain = true) (hmarks : i.marks ≤ i'.marks) :
    Tidy l i chunk i' where
  marks := hmarks
  range instr hinstr mark hmark := by
    rw [Instr.closed?_of_isPlain (h instr hinstr)] at hmark
    cases hmark
  apart := List.pairwise_of_forall_mem_list fun instr hinstr _ _ mark hmark => by
    rw [Instr.closed?_of_isPlain (h instr hinstr)] at hmark
    cases hmark
  marked instr hinstr := Instr.marked_of_isPlain (h instr hinstr) _

theorem append (h : Tidy l i a j) (h' : Tidy l j b i') : Tidy l i (a ++ b) i' where
  marks := Nat.le_trans h.marks h'.marks
  range instr hinstr mark hmark := by
    rw [Array.toList_append] at hinstr
    rcases List.mem_append.mp hinstr with hinstr | hinstr
    · obtain ⟨hle, hlt⟩ := h.range instr hinstr mark hmark
      exact ⟨hle, Nat.lt_of_lt_of_le hlt h'.marks⟩
    · obtain ⟨hle, hlt⟩ := h'.range instr hinstr mark hmark
      exact ⟨Nat.le_trans h.marks hle, hlt⟩
  apart := by
    rw [Array.toList_append, List.pairwise_append]
    refine ⟨h.apart, h'.apart, fun instr hinstr instr' hinstr' mark hmark hmark' => ?_⟩
    have hlt := (h.range instr hinstr mark hmark).2
    have hle := (h'.range instr' hinstr' mark hmark').1
    omega
  marked instr hinstr := by
    rw [Array.toList_append] at hinstr
    exact (List.mem_append.mp hinstr).elim (h.marked instr) (h'.marked instr)

theorem before (h : Tidy l i chunk i') (hb : ∀ instr ∈ b.toList, instr.isPlain = true) :
    Tidy l i (b ++ chunk) i' := (plain hb (Nat.le_refl _)).append h

theorem after (h : Tidy l i chunk i') (hb : ∀ instr ∈ b.toList, instr.isPlain = true) :
    Tidy l i (chunk ++ b) i' := h.append (plain hb (Nat.le_refl _))

/-- Only the numbers of marks matter. -/
theorem issued {k k' : Issued} (h : Tidy l i chunk i') (hk : k.marks ≤ i.marks)
    (hk' : i'.marks ≤ k'.marks) : Tidy l k chunk k' where
  marks := Nat.le_trans hk (Nat.le_trans h.marks hk')
  range instr hinstr mark hmark := by
    obtain ⟨hle, hlt⟩ := h.range instr hinstr mark hmark
    exact ⟨Nat.le_trans hk hle, Nat.lt_of_lt_of_le hlt hk'⟩
  apart := h.apart
  marked := h.marked

/-- The end of a lookaround, whose mark was handed out before what is inside. -/
theorem close {mark : Nat} {last : Instr} (h : Tidy l i chunk i') (hmark : mark < i.marks)
    (hclosed : last.closed? = some mark) (hlast : last.Marked l.undone) {k : Issued}
    (hk : k.marks ≤ mark) : Tidy l k (chunk ++ #[last]) i' where
  marks := Nat.le_trans hk (Nat.le_trans (Nat.le_of_lt hmark) h.marks)
  range instr hinstr m hm := by
    rw [Array.toList_append] at hinstr
    rcases List.mem_append.mp hinstr with hinstr | hinstr
    · obtain ⟨hle, hlt⟩ := h.range instr hinstr m hm
      exact ⟨by omega, hlt⟩
    · cases List.mem_singleton.mp hinstr
      cases hclosed.symm.trans hm
      exact ⟨hk, Nat.lt_of_lt_of_le hmark h.marks⟩
  apart := by
    rw [Array.toList_append, List.pairwise_append]
    refine ⟨h.apart, List.pairwise_singleton _ _, fun instr hinstr instr' hinstr' m hm hm' => ?_⟩
    cases List.mem_singleton.mp hinstr'
    cases hclosed.symm.trans hm'
    have hle := (h.range instr hinstr _ hm).1
    omega
  marked instr hinstr := by
    rw [Array.toList_append] at hinstr
    rcases List.mem_append.mp hinstr with hinstr | hinstr
    · exact h.marked instr hinstr
    · exact List.mem_singleton.mp hinstr ▸ hlast

/-- A group around what is inside. -/
theorem group {g : Nat} {undo : Bool} {last : Instr} (h : Tidy l i chunk i')
    (hundo : undo = l.undone.getD g true) (hclosed : last.closed? = none)
    (hlast : last.Marked l.undone) : Tidy l i (#[.groupStart g undo] ++ chunk ++ #[last]) i' where
  marks := h.marks
  range instr hinstr mark hmark := by
    simp only [Array.toList_append, List.mem_append, List.mem_singleton] at hinstr
    rcases hinstr with (rfl | hinstr) | rfl
    · cases hmark
    · exact h.range instr hinstr mark hmark
    · cases hclosed.symm.trans hmark
  apart := by
    simp only [Array.toList_append, List.pairwise_append]
    refine ⟨⟨List.pairwise_singleton _ _, h.apart, ?_⟩, List.pairwise_singleton _ _, ?_⟩
    · intro instr hinstr _ _ mark hmark
      cases List.mem_singleton.mp hinstr
      cases hmark
    · intro _ _ instr hinstr mark _ hmark
      cases List.mem_singleton.mp hinstr
      cases hclosed.symm.trans hmark
  marked instr hinstr := by
    simp only [Array.toList_append, List.mem_append, List.mem_singleton] at hinstr
    rcases hinstr with (rfl | hinstr) | rfl
    · exact hundo
    · exact h.marked instr hinstr
    · exact hlast

/-- One place ends a lookaround. -/
theorem unique (h : Tidy l i chunk i') {x y : Addr} {instr instr' : Instr} {mark : Nat}
    (hx : chunk[x]? = some instr) (hy : chunk[y]? = some instr') (hmark : instr.closed? = some mark)
    (hmark' : instr'.closed? = some mark) : x = y := by
  have hpair := List.pairwise_iff_getElem.mp h.apart
  rw [← Array.getElem?_toList] at hx hy
  obtain ⟨hxlt, rfl⟩ := List.getElem?_eq_some_iff.mp hx
  obtain ⟨hylt, rfl⟩ := List.getElem?_eq_some_iff.mp hy
  rcases Nat.lt_trichotomy x y with hlt | heq | hlt
  · exact absurd hmark' (hpair x y hxlt hylt hlt mark hmark)
  · exact heq
  · exact absurd hmark (hpair y x hylt hxlt hlt mark hmark')

end Tidy

/-! ## Writers -/

theorem guardCode_tidy {depth : Nat} (h : guardCode depth p l i = .ok chunk i') : Tidy l i chunk i' := by
  obtain ⟨guarded, j, hg, h⟩ := bind_ok h
  have hj : j = i := by
    cases hg
    rfl
  subst hj
  cases guarded with
  | false =>
    cases h
    exact .plain (by simp) (Nat.le_refl _)
  | true =>
    obtain ⟨id, k, hid, h⟩ := bind_ok h
    obtain ⟨rfl, rfl⟩ := freshGuard_ok hid
    cases h
    exact .plain (by simp [Instr.isPlain]) (Nat.le_refl _)

theorem offer_plain (greedy : Bool) (x exit : Addr) :
    ∀ instr ∈ (offer greedy x exit).toList, instr.isPlain = true := by
  cases greedy <;> simp [offer, Instr.isPlain]

theorem loopBody_tidies (info : Info) (hw : Tidies l w) : Tidies l (loopBody info w) := by
  intro p i i' chunk h
  unfold loopBody at h
  dsimp only at h
  split at h
  · exact hw _ _ _ _ h
  · obtain ⟨id, j, hid, h⟩ := bind_ok h
    obtain ⟨rfl, rfl⟩ := freshCheck_ok hid
    rw [bind_read] at h
    obtain ⟨code, k, hcode, h⟩ := bind_ok h
    cases h
    exact (((hw _ _ _ _ hcode).before (by simp [Instr.isPlain])).after
      (by simp [Instr.isPlain])).issued (Nat.le_refl _) (Nat.le_refl _)

theorem starCode_tidies (greedy : Bool) (depth : Nat) (info : Info) (hw : Tidies l w) :
    Tidies l (starCode greedy depth info w) := by
  intro p i i' chunk h
  obtain ⟨guard, j, hguard, h⟩ := bind_ok h
  obtain ⟨code, k, hcode, h⟩ := bind_ok h
  cases h
  have hbody := loopBody_tidies info hw _ _ _ _ hcode
  exact (((guardCode_tidy hguard).after (offer_plain _ _ _)).append hbody).after (by simp [Instr.isPlain])

theorem greedyPlusCode_tidies (depth : Nat) (info : Info) (hw : Tidies l w) :
    Tidies l (greedyPlusCode depth info w) := by
  intro p i i' chunk h
  obtain ⟨guard, j, hguard, h⟩ := bind_ok h
  obtain ⟨code, k, hcode, h⟩ := bind_ok h
  cases h
  have hbody := loopBody_tidies info hw _ _ _ _ hcode
  exact ((((guardCode_tidy hguard).before (by simp [Instr.isPlain])).after
    (by simp [Instr.isPlain])).append hbody).after (by simp [Instr.isPlain])

theorem lazyPlusCode_tidies (depth : Nat) (info : Info) (hw : Tidies l w) :
    Tidies l (lazyPlusCode depth info w) := by
  intro p i i' chunk h
  obtain ⟨guard, j, hguard, h⟩ := bind_ok h
  obtain ⟨code, k, hcode, h⟩ := bind_ok h
  cases h
  exact ((guardCode_tidy hguard).append (loopBody_tidies info hw _ _ _ _ hcode)).after
    (by simp [Instr.isPlain])

theorem plusCode_tidies (greedy : Bool) (depth : Nat) (info : Info) (hw : Tidies l w) :
    Tidies l (plusCode greedy depth info w) := by
  cases greedy with
  | true => exact greedyPlusCode_tidies depth info hw
  | false => exact lazyPlusCode_tidies depth info hw

theorem copies_tidy (hw : Tidies l w) (n : Nat) {done : Chunk} {k : Issued} (hdone : Tidy l k done i)
    (h : copies w p done n l i = .ok chunk i') : Tidy l k chunk i' := by
  induction n generalizing done i with
  | zero =>
    cases h
    exact hdone
  | succ n ih =>
    obtain ⟨code, j, hcode, h⟩ := bind_ok h
    exact ih (hdone.append (hw _ _ _ _ hcode)) h

theorem optionalBodies_tidy (greedy : Bool) (hw : Tidies l w) (n : Nat) {done bodies : Array Chunk}
    (h : optionalBodies greedy w p done n l i = .ok bodies i') :
    ∃ bs : List Chunk, bodies = done ++ bs.toArray ∧ TidyAll l i bs i' := by
  induction n generalizing p done i with
  | zero =>
    cases h
    exact ⟨[], by simp, Nat.le_refl _⟩
  | succ n ih =>
    obtain ⟨code, j, hcode, h⟩ := bind_ok h
    obtain ⟨bs, rfl, hbs⟩ := ih h
    exact ⟨code :: bs, by simp, j, hw _ _ _ _ hcode, hbs⟩

theorem joinList_tidy (greedy : Bool) (x exit : Addr) (bs : List Chunk) (h : TidyAll l i bs i') :
    Tidy l i (Built.joinList greedy x exit bs) i' := by
  induction bs generalizing x i with
  | nil => exact .plain (by simp [Built.joinList]) h
  | cons b bs ih =>
    obtain ⟨j, hb, hbs⟩ := h
    exact (hb.before (offer_plain _ _ _)).append (ih _ hbs)

theorem optionalCode_tidies (greedy : Bool) (hw : Tidies l w) (n : Nat) :
    Tidies l (optionalCode greedy w n) := by
  intro p i i' chunk h
  obtain ⟨bodies, j, hbodies, h⟩ := bind_ok h
  cases h
  obtain ⟨bs, rfl, hbs⟩ := optionalBodies_tidy greedy hw n hbodies
  rw [Array.empty_append, Built.joinOptional_eq]
  exact joinList_tidy _ _ _ _ hbs

theorem unrolledCode_tidies (b : Bounds) (greedy : Bool) (depth : Nat) (info : Info)
    (hw : Tidies l w) : Tidies l (unrolledCode b greedy depth info w) := by
  intro p i i' chunk h
  have hnone : Tidy l i #[] i := .plain (by simp) (Nat.le_refl _)
  unfold unrolledCode at h
  cases hmax : b.max with
  | none =>
    simp only [hmax] at h
    obtain ⟨front, j, hfront, h⟩ := bind_ok h
    obtain ⟨rest, k, hrest, h⟩ := bind_ok h
    cases h
    exact (copies_tidy hw _ hnone hfront).append (plusCode_tidies greedy depth info hw _ _ _ _ hrest)
  | some max =>
    simp only [hmax] at h
    obtain ⟨front, j, hfront, h⟩ := bind_ok h
    obtain ⟨rest, k, hrest, h⟩ := bind_ok h
    cases h
    exact (copies_tidy hw _ hnone hfront).append (optionalCode_tidies greedy hw _ _ _ _ _ hrest)

theorem countedCode_tidies (b : Bounds) (greedy : Bool) (info : Info) (hw : Tidies l w) :
    Tidies l (countedCode b greedy info w) := by
  intro p i i' chunk h
  obtain ⟨id, j, hid, h⟩ := bind_ok h
  obtain ⟨rfl, rfl⟩ := loopId_ok hid
  obtain ⟨_, j', hadd, h⟩ := bind_ok h
  cases hadd
  obtain ⟨code, k, hcode, h⟩ := bind_ok h
  obtain ⟨_, k', hset, h⟩ := bind_ok h
  cases hset
  cases h
  exact (((loopBody_tidies info hw _ _ _ _ hcode).before (by simp [Instr.isPlain])).after
    (by simp [Instr.isPlain])).issued (Nat.le_refl _) (Nat.le_refl _)

theorem repeatCode_tidies (b : Bounds) (greedy : Bool) (depth : Nat) (plan : RepeatPlan)
    (info : Info) (hw : Tidies l w) : Tidies l (repeatCode b greedy depth plan info w) := by
  cases plan with
  | skip =>
    intro p i i' chunk h
    cases h
    exact .plain (by simp) (Nat.le_refl _)
  | optional => exact optionalCode_tidies greedy hw 1
  | star => exact starCode_tidies greedy depth info hw
  | plus => exact plusCode_tidies greedy depth info hw
  | unroll => exact unrolledCode_tidies b greedy depth info hw
  | counted => exact countedCode_tidies b greedy info hw

theorem atomicCode_tidies (hw : Tidies l w) : Tidies l (atomicCode w) := by
  intro p i i' chunk h
  obtain ⟨mark, j, hmark, h⟩ := bind_ok h
  obtain ⟨rfl, rfl⟩ := freshMark_ok hmark
  obtain ⟨code, k, hcode, h⟩ := bind_ok h
  cases h
  exact (((hw _ _ _ _ hcode).before (by simp [Instr.isPlain])).after
    (by simp [Instr.isPlain])).issued (Nat.le_succ _) (Nat.le_refl _)

theorem lookCode_tidies (k : Look) (info : Info) (hw : Tidies l w) : Tidies l (lookCode k info w) := by
  intro p i i' chunk h
  have key : ∀ mark j (step check : Chunk), (∀ instr ∈ step.toList, instr.isPlain = true) →
      (∀ instr ∈ check.toList, instr.isPlain = true) → i.marks ≤ mark → mark < j.marks →
      (if k.negated = true then (do
        let code ← w (p.shift (2 + step.size))
        let inner := #[.lookStart mark] ++ step ++ code ++ check
        return #[.fork (p.base + inner.size + 4)] ++ inner ++ #[.unwind mark, .drop, .fail] : Gen Chunk)
      else (do
        let code ← w (p.shift (1 + step.size))
        return #[.lookStart mark] ++ step ++ code ++ check ++ #[.lookEnd mark])) l j = .ok chunk i' →
      Tidy l i chunk i' := by
    intro mark j step check hstep hcheck hle hlt h
    have hstart : ∀ instr ∈ (#[Instr.lookStart mark] ++ step).toList, instr.isPlain = true := by
      simpa [Instr.isPlain] using hstep
    cases hn : k.negated with
    | true =>
      simp only [hn, ↓reduceIte] at h
      obtain ⟨code, m, hcode, h⟩ := bind_ok h
      cases h
      have hinner := ((hw _ _ _ _ hcode).before hstart).after hcheck
      have hclose := (hinner.before (b := #[.fork (p.base +
        (#[Instr.lookStart mark] ++ step ++ code ++ check).size + 4)])
        (by simp [Instr.isPlain])).close hlt
        (show (Instr.unwind mark).closed? = some mark from rfl) trivial hle
      have hend := hclose.after (b := #[.drop, .fail]) (by simp [Instr.isPlain])
      rwa [Array.append_assoc] at hend
    | false =>
      simp only [hn, Bool.false_eq_true, ↓reduceIte] at h
      obtain ⟨code, m, hcode, h⟩ := bind_ok h
      cases h
      exact (((hw _ _ _ _ hcode).before hstart).after hcheck).close hlt
        (show (Instr.lookEnd mark).closed? = some mark from rfl) trivial hle
  obtain ⟨mark, j, hmark, h⟩ := bind_ok h
  obtain ⟨rfl, rfl⟩ := freshMark_ok hmark
  cases hb : k.behind with
  | true =>
    simp only [hb, ↓reduceIte] at h
    obtain ⟨_, j, hadd, h⟩ := bind_ok h
    cases hadd
    exact key i.marks _ #[.stepBack info.minChars info.maxChars] #[.checkPos i.marks]
      (by simp [Instr.isPlain]) (by simp [Instr.isPlain]) (Nat.le_refl _) (Nat.lt_succ_self _) h
  | false =>
    simp only [hb, Bool.false_eq_true, ↓reduceIte] at h
    exact key i.marks _ #[] #[] (by simp) (by simp) (Nat.le_refl _) (Nat.lt_succ_self _) h

theorem absentCode_tidies (hw : Tidies l w) : Tidies l (absentCode w) := by
  intro p i i' chunk h
  obtain ⟨_, j, hadd, h⟩ := bind_ok h
  cases hadd
  obtain ⟨code, k, hcode, h⟩ := bind_ok h
  cases h
  exact (((hw _ _ _ _ hcode).before (by simp [Instr.isPlain])).after
    (by simp [Instr.isPlain])).issued (Nat.le_refl _) (Nat.le_refl _)

theorem conditionalCode_tidies (groups : List Nat) (hw : Tidies l w) (hno : Tidies l no) :
    Tidies l (conditionalCode groups w no) := by
  intro p i i' chunk h
  obtain ⟨code, j, hcode, h⟩ := bind_ok h
  obtain ⟨noCode, k, hnoCode, h⟩ := bind_ok h
  cases h
  exact (((hw _ _ _ _ hcode).before (by simp [Instr.isPlain])).after
    (by simp [Instr.isPlain])).append (hno _ _ _ _ hnoCode)

theorem callCode_tidy {group : Nat} (h : callCode group l i = .ok chunk i') : Tidy l i chunk i' := by
  unfold callCode at h
  rw [bind_read] at h
  cases hsub : (l.subroutines[group]?).join with
  | none =>
    rw [hsub] at h
    cases h
  | some sub =>
    rw [hsub] at h
    cases h
    exact .plain (by simp [Instr.isPlain]) (Nat.le_refl _)

theorem captureCode_tidies (group : Nat) (hw : Tidies l w) : Tidies l (captureCode group w) := by
  intro p i i' chunk h
  unfold captureCode at h
  rw [bind_read] at h
  split at h
  · exact callCode_tidy h
  · obtain ⟨code, j, hcode, h⟩ := bind_ok h
    cases h
    exact (hw _ _ _ _ hcode).group rfl rfl rfl

theorem atomCode_tidy {e : Encoding} {a : Atom} (h : atomCode e a l i = .ok chunk i') :
    Tidy l i chunk i' := by
  cases a with
  | call t group => exact callCode_tidy h
  | literal bytes fold =>
    cases h
    refine .plain ?_ (Nat.le_refl _)
    unfold literalCode
    repeat' split
    all_goals simp [Instr.isPlain]
  | keep =>
    cases h
    exact .plain (by simp [Instr.isPlain]) (Nat.le_refl _)
  | _ =>
    cases h
    exact .plain (by simp [Instr.isPlain]) (Nat.le_refl _)

theorem anyCharsCode?_plain {mode : RepeatMode} {plan : RepeatPlan} {peek : Option UInt8}
    {n : Node Measured} {instr : Instr} (h : anyCharsCode? mode plan peek n = some instr) :
    instr.isPlain = true := by
  unfold anyCharsCode? at h
  split at h
  · split at h
    · cases h
    · split at h <;> cases h <;> rfl
  · cases h

theorem repeatWriter_tidies (b : Bounds) (mode : RepeatMode) (plan : RepeatPlan)
    (peek : Option UInt8) (n : Node Measured) (depth : Nat) (hw : Tidies l w) :
    Tidies l (repeatWriter b mode plan (anyCharsCode? mode plan peek n) depth n.info w) := by
  have hloop : Tidies l (loopWriter b mode plan (anyCharsCode? mode plan peek n) depth n.info w) := by
    intro p i i' chunk hrun
    obtain ⟨guarded, j, hg, h⟩ := bind_ok hrun
    have hj : j = i := by
      cases hg
      rfl
    subst hj
    generalize hi : anyCharsCode? mode plan peek n = instr? at h
    cases instr? with
    | none => exact repeatCode_tidies _ _ _ _ _ hw _ _ _ _ h
    | some instr =>
      cases guarded with
      | true => exact repeatCode_tidies _ _ _ _ _ hw _ _ _ _ h
      | false =>
        cases h
        exact .plain (by simpa using anyCharsCode?_plain hi) (Nat.le_refl _)
  unfold repeatWriter
  dsimp only
  split
  · exact atomicCode_tidies hloop
  · exact hloop

theorem branchList_tidy (x stop : Addr) (bs : List Chunk) (h : TidyAll l i bs i') :
    Tidy l i (Built.branchList x stop bs) i' := by
  induction bs generalizing x i with
  | nil => exact .plain (by simp [Built.branchList]) h
  | cons b bs ih =>
    obtain ⟨j, hb, hbs⟩ := h
    cases bs with
    | nil => exact hb.issued (Nat.le_refl _) hbs
    | cons b' bs =>
      exact ((hb.before (by simp [Instr.isPlain])).after (by simp [Instr.isPlain])).append (ih _ hbs)

/-! ## Trees -/

mutual

theorem nodeCode_tidies : ∀ (n : Node Measured) (peek : Option UInt8),
    Tidies l fun p => nodeCode peek p n
  | .atom _ a, peek => by
    intro p i i' chunk h
    dsimp only at h
    rw [nodeCode, bind_read] at h
    exact atomCode_tidy h
  | .repeated note b mode body, peek => by
    have := repeatWriter_tidies b mode (repeatPlan b body) peek body note.info.depth
      (nodeCode_tidies body none)
    intro p i i' chunk h
    dsimp only at h
    rw [nodeCode] at h
    exact this p i i' chunk h
  | .group _ (.capture g _) body, peek => by
    intro p i i' chunk h
    dsimp only at h
    rw [nodeCode] at h
    exact captureCode_tidies g (nodeCode_tidies body none) p i i' chunk h
  | .group _ .plain body, peek => by
    intro p i i' chunk h
    dsimp only at h
    rw [nodeCode] at h
    exact nodeCode_tidies body none p i i' chunk h
  | .group _ .atomic body, peek => by
    intro p i i' chunk h
    dsimp only at h
    rw [nodeCode] at h
    exact atomicCode_tidies (nodeCode_tidies body none) p i i' chunk h
  | .group _ .absent body, peek => by
    intro p i i' chunk h
    dsimp only at h
    rw [nodeCode] at h
    exact absentCode_tidies (nodeCode_tidies body none) p i i' chunk h
  | .conditional _ _ gs yes no, peek => by
    intro p i i' chunk h
    dsimp only at h
    rw [nodeCode] at h
    exact conditionalCode_tidies gs (nodeCode_tidies yes none) (optionCode_tidies no) p i i' chunk h
  | .look _ k body, peek => by
    intro p i i' chunk h
    dsimp only at h
    rw [nodeCode] at h
    exact lookCode_tidies k body.info (nodeCode_tidies body none) p i i' chunk h
  | .sequence _ items, peek => by
    intro p i i' chunk h
    dsimp only at h
    rw [nodeCode] at h
    exact sequenceCode_tidy items p #[] i i i' chunk (.plain (by simp) (Nat.le_refl _)) h
  | .alternation _ branches, peek => by
    intro p i i' chunk hrun
    dsimp only at hrun
    rw [nodeCode] at hrun
    obtain ⟨chunks, j, hchunks, h⟩ := bind_ok hrun
    obtain ⟨bs, rfl, hbs⟩ := branchChunks_tidy branches p #[] i j chunks hchunks
    cases h
    rw [Array.empty_append, Built.joinBranches_eq]
    exact branchList_tidy _ _ _ hbs

theorem optionCode_tidies : ∀ no : Option (Node Measured), Tidies l fun p => optionCode p no
  | none => by
    intro p i i' chunk h
    dsimp only at h
    rw [optionCode] at h
    cases h
    exact .plain (by simp) (Nat.le_refl _)
  | some n => by
    intro p i i' chunk h
    dsimp only at h
    rw [optionCode] at h
    exact nodeCode_tidies n none p i i' chunk h

theorem sequenceCode_tidy : ∀ (ns : List (Node Measured)) (p : Place) (done : Chunk)
    (k i i' : Issued) (chunk : Chunk), Tidy l k done i →
      sequenceCode p done ns l i = .ok chunk i' → Tidy l k chunk i'
  | [], p, done, k, i, i', chunk, hdone, h => by
    rw [sequenceCode] at h
    cases h
    exact hdone
  | n :: ns, p, done, k, i, i', chunk, hdone, h => by
    rw [sequenceCode] at h
    obtain ⟨code, j, hcode, h⟩ := bind_ok h
    exact sequenceCode_tidy ns p _ k j i' chunk
      (hdone.append (nodeCode_tidies n (peekByte? ns) _ _ _ _ hcode)) h

theorem branchChunks_tidy : ∀ (ns : List (Node Measured)) (p : Place) (done : Array Chunk)
    (i i' : Issued) (chunks : Array Chunk), branchChunks p done ns l i = .ok chunks i' →
      ∃ bs : List Chunk, chunks = done ++ bs.toArray ∧ TidyAll l i bs i'
  | [], p, done, i, i', chunks, h => by
    rw [branchChunks] at h
    cases h
    exact ⟨[], by simp, Nat.le_refl _⟩
  | n :: ns, p, done, i, i', chunks, h => by
    rw [branchChunks] at h
    obtain ⟨code, j, hcode, h⟩ := bind_ok h
    obtain ⟨bs, rfl, hbs⟩ := branchChunks_tidy ns _ _ j i' chunks h
    exact ⟨code :: bs, by simp, j, nodeCode_tidies n none _ _ _ _ hcode, hbs⟩

end

/-! ## Programs -/

variable {root : Node Measured} {g : CallGraph}

theorem groupBody_tidy {group : Nat} (hgroup : group ≠ 0 → l.undone.getD group true = true)
    (h : groupBody root g group p l i = .ok chunk i') : Tidy l i chunk i' := by
  obtain ⟨body, -, hbody⟩ := groupBody_ok h
  split at hbody
  · exact nodeCode_tidies body none _ _ _ _ hbody
  · obtain ⟨code, last, hcode, rfl, hlast⟩ := hbody
    have hundo := hgroup ‹_›
    refine (nodeCode_tidies body none _ _ _ _ hcode).group hundo.symm ?_ ?_
    · rcases hlast with rfl | rfl <;> rfl
    · rcases hlast with rfl | rfl
      · exact hundo.symm
      · trivial

theorem addSubroutines_tidy {called : List Nat}
    (hcalled : ∀ group ∈ called, ∀ body, root.calledBody? group = some body → group ≠ 0 →
      l.undone.getD group true = true)
    {code code' : Chunk} {subs subs' : Array Subroutine} {k : Issued} (hcode : Tidy l k code i)
    (h : addSubroutines root g code subs called l i = .ok (code', subs') i') : Tidy l k code' i' := by
  induction called generalizing code subs i with
  | nil =>
    cases h
    exact hcode
  | cons group rest ih =>
    obtain ⟨⟨code₁, r⟩, j, hadd, h⟩ := bind_ok h
    refine ih (fun g hg => hcalled g (List.mem_cons_of_mem _ hg)) ?_ h
    unfold addSubroutine at hadd
    rw [bind_get] at hadd
    obtain ⟨chunk, j', hchunk, hadd⟩ := bind_ok hadd
    rw [bind_get] at hadd
    obtain ⟨body, hbody, -⟩ := groupBody_ok hchunk
    split at hadd
    · cases hadd
    · cases hadd
      exact (hcode.append (groupBody_tidy (hcalled group (by simp) body hbody) hchunk)).after
        (by simp [Instr.isPlain])

/-- Subroutines are those of the groups that are called. -/
theorem addSubroutines_groups {called : List Nat} {code code' : Chunk} {subs subs' : Array Subroutine}
    (h : addSubroutines root g code subs called l i = .ok (code', subs') i') :
    ∀ r ∈ subs', r ∈ subs ∨ r.group ∈ called := by
  induction called generalizing code subs i with
  | nil =>
    cases h
    exact fun r hr => Or.inl hr
  | cons group rest ih =>
    obtain ⟨⟨code₁, r₁⟩, j, hadd, h⟩ := bind_ok h
    have hgroup : r₁.group = group := by
      unfold addSubroutine at hadd
      rw [bind_get] at hadd
      obtain ⟨chunk, j', hchunk, hadd⟩ := bind_ok hadd
      rw [bind_get] at hadd
      split at hadd <;> cases hadd
      rfl
    intro r hr
    rcases ih h r hr with hr | hr
    · rcases Array.mem_push.mp hr with hr | rfl
      · exact Or.inl hr
      · exact Or.inr (by simp [hgroup])
    · exact Or.inr (List.mem_cons_of_mem _ hr)

theorem link_closed? (subs : Array Subroutine) (i : Instr) : (link subs i).closed? = i.closed? := by
  cases i <;> rfl

theorem link_marked {subs : Array Subroutine} {i : Instr} {undone : Array Bool} (h : i.Marked undone) :
    (link subs i).Marked undone := by
  cases i <;> exact h

theorem Tidy.linked (h : Tidy l i chunk i') (subs : Array Subroutine) :
    Tidy l i (chunk.map (link subs)) i' where
  marks := h.marks
  range instr hinstr mark hmark := by
    rw [Array.toList_map] at hinstr
    obtain ⟨k, hk, rfl⟩ := List.mem_map.mp hinstr
    exact h.range k hk mark (link_closed? subs k ▸ hmark)
  apart := by
    rw [Array.toList_map, List.pairwise_map]
    refine h.apart.imp fun hapart mark hmark => ?_
    rw [link_closed?] at hmark ⊢
    exact hapart mark hmark
  marked instr hinstr := by
    rw [Array.toList_map] at hinstr
    obtain ⟨k, hk, rfl⟩ := List.mem_map.mp hinstr
    exact link_marked (h.marked k hk)

end Compile

/-- Compiled programs are tidy as a whole, and what is called in them is restored. -/
theorem Compilation.ofTree_tidy {s : Pattern.Setting} {o : Options} {t : PatternTree Span}
    {p : Program} {a : Analyzed} (h : (Compilation.ofTree s o t).1 = .ok p)
    (ha : Analyzed.ofTree s.dialect s.encoding t = .ok a) :
    ∃ i i', Compile.Tidy (patternLayout a s o) i p.code i' ∧
      ∀ r ∈ p.tables.subroutines, a.calls.isCalled r.group = true := by
  obtain ⟨a', code, tables, ha', hgen, -, rfl⟩ := ofTree_ok h
  obtain rfl : a = a' := Except.ok.inj (ha.symm.trans ha')
  obtain ⟨subs, i, hcode, rfl⟩ := generate_ok hgen
  obtain ⟨main, j, raw, hmain, hsubs, rfl⟩ := programCode_parts hcode
  have hfirst : ∃ k, Compile.Tidy (patternLayout a s o) k main j := by
    split at hmain
    · exact ⟨_, callCode_tidy hmain⟩
    · exact ⟨_, nodeCode_tidies a.tree.root none _ _ _ _ hmain⟩
  obtain ⟨k, hfirst⟩ := hfirst
  refine ⟨k, i, Compile.Tidy.linked (addSubroutines_tidy (fun group hgroup body hbody => ?_) ?_ hsubs) _,
    fun r hr => ?_⟩
  · exact (undoneGroups_called _ _ (isCalled_of_mem hgroup) hbody).1
  · rw [← Array.append_singleton]
    exact hfirst.after (by simp [Instr.isPlain])
  · rcases addSubroutines_groups hsubs r hr with hr | hr
    · simp at hr
    · exact isCalled_of_mem hr

/-- The groups of which all instructions are so marked are restored. -/
theorem Compile.Tidy.restores {l : Layout} {i i' : Issued} {p : Program}
    (h : Compile.Tidy l i p.code i')
    {g : Nat} (hg : l.undone.getD g true = true) : p.Restores g := by
  intro x undo hx
  have hmarked : ∀ instr : Instr, p.code[x]? = some instr → instr.Marked l.undone := fun instr hinstr =>
    h.marked instr (Array.mem_toList_iff.mpr (Array.mem_of_getElem? hinstr))
  rcases hx with hx | hx <;> exact (hmarked _ hx).trans hg

/-- The groups of subroutines are restored. -/
theorem Compilation.sub_restores {s : Pattern.Setting} {o : Options} {t : PatternTree Span}
    {p : Program} {a : Analyzed} (h : (Compilation.ofTree s o t).1 = .ok p)
    (ha : Analyzed.ofTree s.dialect s.encoding t = .ok a) {r : Subroutine}
    (hr : r ∈ p.tables.subroutines) {body : Node Measured}
    (hbody : a.tree.root.calledBody? r.group = some body) {g : Nat}
    (hg : (r.group ≠ 0 ∧ g = r.group) ∨ g ∈ body.groupNumbers) : p.Restores g := by
  obtain ⟨i, i', htidy, hcalled⟩ := ofTree_tidy h ha
  obtain ⟨hgroup, hinside⟩ := undoneGroups_called a.tree.captures (o.has .captureHistory)
    (hcalled r hr) hbody
  rcases hg with ⟨hne, rfl⟩ | hg
  · exact htidy.restores (hgroup hne)
  · exact htidy.restores (hinside g hg)

end RegexMachine
