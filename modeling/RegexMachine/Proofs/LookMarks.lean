import RegexMachine.Proofs.Subroutines

/-!
Marks of look arounds. Every region has a mark of its own, so that a look around that is unwound is
never one that keeps what it has found.
-/
namespace RegexMachine
open Compile

/-- The mark of the look around that an instruction ends. -/
def Instr.closes? : Instr → Option Nat
  | lookEnd mark => some mark
  | unwind mark => some mark
  | _ => none

namespace Compile

/-- In a chunk that was written between two numbers of marks look arounds end with marks handed out
meanwhile; none is both kept and unwound. -/
structure Marked (first : Nat) (chunk : Chunk) (stop : Nat) : Prop where
  upto : first ≤ stop
  own : ∀ i ∈ chunk, ∀ mark, i.closes? = some mark → first ≤ mark ∧ mark < stop
  apart : ∀ mark, .lookEnd mark ∈ chunk → .unwind mark ∉ chunk

namespace Marked

variable {m n k : Nat} {a b : Chunk}

/-- Instructions that end no look around. -/
theorem plain (h : ∀ i ∈ a, i.closes? = none) : Marked m a m where
  upto := Nat.le_refl m
  own i hi _ hmark := nomatch (h i hi).symm.trans hmark
  apart _ hmark := nomatch h _ hmark

theorem empty : Marked m #[] m := plain fun _ hi => nomatch hi

theorem single {i : Instr} (h : i.closes? = none) : Marked m #[i] m :=
  plain fun _ hi => Array.mem_singleton.mp hi ▸ h

theorem pair {i j : Instr} (hi : i.closes? = none) (hj : j.closes? = none) : Marked m #[i, j] m := by
  refine plain fun x hx => ?_
  simp only [List.mem_toArray, List.mem_cons, List.not_mem_nil, or_false] at hx
  rcases hx with rfl | rfl
  · exact hi
  · exact hj

theorem append (h : Marked m a n) (h' : Marked n b k) : Marked m (a ++ b) k where
  upto := Nat.le_trans h.upto h'.upto
  own i hi mark hmark := by
    have hupto := h.upto
    have hupto' := h'.upto
    rcases Array.mem_append.mp hi with hi | hi
    · have := h.own i hi mark hmark
      omega
    · have := h'.own i hi mark hmark
      omega
  apart mark hend hunwind := by
    rcases Array.mem_append.mp hend with hend | hend <;>
      rcases Array.mem_append.mp hunwind with hunwind | hunwind
    · exact h.apart mark hend hunwind
    · have := h.own _ hend mark rfl
      have := h'.own _ hunwind mark rfl
      omega
    · have := h'.own _ hend mark rfl
      have := h.own _ hunwind mark rfl
      omega
    · exact h'.apart mark hend hunwind

/-- The end of a look around whose mark was handed out right before its body was written. -/
theorem close (h : Marked (m + 1) a n) {tail : Chunk}
    (htail : ∀ i ∈ tail, ∀ mark, i.closes? = some mark → mark = m)
    (hone : .lookEnd m ∈ tail → .unwind m ∉ tail) : Marked m (a ++ tail) n where
  upto := Nat.le_of_succ_le h.upto
  own i hi mark hmark := by
    have hupto := h.upto
    rcases Array.mem_append.mp hi with hi | hi
    · have := h.own i hi mark hmark
      omega
    · have := htail i hi mark hmark
      omega
  apart mark hend hunwind := by
    rcases Array.mem_append.mp hend with hend | hend <;>
      rcases Array.mem_append.mp hunwind with hunwind | hunwind
    · exact h.apart mark hend hunwind
    · have := h.own _ hend mark rfl
      have := htail _ hunwind mark rfl
      omega
    · have := htail _ hend mark rfl
      have := h.own _ hunwind mark rfl
      omega
    · obtain rfl := htail _ hend mark rfl
      exact hone hend hunwind

/-- Linking changes calls only. -/
theorem link (h : Marked m a n) (subs : Array Subroutine) :
    Marked m (a.map (Compile.link subs)) n where
  upto := h.upto
  own i hi mark hmark := by
    obtain ⟨j, hj, rfl⟩ := Array.mem_map.mp hi
    refine h.own j hj mark ?_
    cases j <;> exact hmark
  apart mark hend hunwind := by
    have unlinked {i j : Instr} (hi : i.closes? = some mark) (h : Compile.link subs j = i) : j = i := by
      cases j <;> subst h <;> first | rfl | cases hi
    obtain ⟨i, hi, heq⟩ := Array.mem_map.mp hend
    obtain ⟨j, hj, heq'⟩ := Array.mem_map.mp hunwind
    obtain rfl := unlinked rfl heq
    obtain rfl := unlinked rfl heq'
    exact h.apart mark hi hj

end Marked

/-- Chunks written one after another. -/
def MarkedAll (m : Nat) : List Chunk → Nat → Prop
  | [], n => n = m
  | b :: bs, n => ∃ k, Marked m b k ∧ MarkedAll k bs n

/-- What a writer writes has marks of its own. -/
def Marks (l : Layout) (w : Writer) : Prop :=
  ∀ p i i' chunk, w p l i = .ok chunk i' → Marked i.marks chunk i'.marks

variable {l : Layout} {i i' : Issued} {p : Place} {chunk : Chunk} {w no : Writer}

/-! ## Repeats -/

theorem guardCode_marked {depth : Nat} (h : guardCode depth p l i = .ok chunk i') :
    Marked i.marks chunk i'.marks := by
  obtain ⟨guarded, j, hg, h⟩ := bind_ok h
  obtain rfl : j = i := by
    cases hg
    rfl
  cases guarded with
  | false =>
    cases h
    exact .empty
  | true =>
    obtain ⟨id, k, hid, h⟩ := bind_ok h
    obtain ⟨rfl, rfl⟩ := freshGuard_ok hid
    cases h
    exact .single rfl

theorem offer_marked {m : Nat} (greedy : Bool) (x exit : Addr) : Marked m (offer greedy x exit) m := by
  cases greedy with
  | true => exact .single rfl
  | false => exact .pair rfl rfl

theorem loopBody_marks (info : Info) (hw : Marks l w) : Marks l (loopBody info w) := by
  intro p i i' chunk h
  unfold loopBody at h
  dsimp only at h
  split at h
  · exact hw _ _ _ _ h
  · obtain ⟨id, j, hid, h⟩ := bind_ok h
    obtain ⟨rfl, rfl⟩ := freshCheck_ok hid
    rw [bind_read] at h
    obtain ⟨code, k, hcode, h⟩ := bind_ok h
    cases h
    exact ((Marked.single rfl).append (hw _ _ _ _ hcode)).append (.single rfl)

theorem starCode_marks (greedy : Bool) (depth : Nat) (info : Info) (hw : Marks l w) :
    Marks l (starCode greedy depth info w) := by
  intro p i i' chunk h
  obtain ⟨guard, j, hguard, h⟩ := bind_ok h
  obtain ⟨code, k, hcode, h⟩ := bind_ok h
  cases h
  exact (((guardCode_marked hguard).append (offer_marked _ _ _)).append
    (loopBody_marks info hw _ _ _ _ hcode)).append (.single rfl)

theorem plusCode_marks (greedy : Bool) (depth : Nat) (info : Info) (hw : Marks l w) :
    Marks l (plusCode greedy depth info w) := by
  intro p i i' chunk h
  cases greedy with
  | true =>
    obtain ⟨guard, j, hguard, h⟩ := bind_ok h
    obtain ⟨code, k, hcode, h⟩ := bind_ok h
    cases h
    exact ((((Marked.single rfl).append (guardCode_marked hguard)).append (.single rfl)).append
      (loopBody_marks info hw _ _ _ _ hcode)).append (.single rfl)
  | false =>
    obtain ⟨guard, j, hguard, h⟩ := bind_ok h
    obtain ⟨code, k, hcode, h⟩ := bind_ok h
    cases h
    exact ((guardCode_marked hguard).append (loopBody_marks info hw _ _ _ _ hcode)).append
      (.single rfl)

theorem copies_marked (hw : Marks l w) (n : Nat) {done : Chunk} {m : Nat}
    (hdone : Marked m done i.marks) (h : copies w p done n l i = .ok chunk i') :
    Marked m chunk i'.marks := by
  induction n generalizing done i with
  | zero =>
    cases h
    exact hdone
  | succ n ih =>
    obtain ⟨code, j, hcode, h⟩ := bind_ok h
    exact ih (hdone.append (hw _ _ _ _ hcode)) h

theorem optionalBodies_marked (greedy : Bool) (hw : Marks l w) (n : Nat)
    {done bodies : Array Chunk} (h : optionalBodies greedy w p done n l i = .ok bodies i') :
    ∃ bs : List Chunk, bodies = done ++ bs.toArray ∧ MarkedAll i.marks bs i'.marks := by
  induction n generalizing p done i with
  | zero =>
    cases h
    exact ⟨[], by simp, rfl⟩
  | succ n ih =>
    obtain ⟨code, j, hcode, h⟩ := bind_ok h
    obtain ⟨bs, rfl, hbs⟩ := ih h
    exact ⟨code :: bs, by simp, j.marks, hw _ _ _ _ hcode, hbs⟩

theorem joinList_marked {m n : Nat} {bs : List Chunk} (h : MarkedAll m bs n) (greedy : Bool)
    (x exit : Addr) : Marked m (Built.joinList greedy x exit bs) n := by
  induction bs generalizing m x with
  | nil =>
    obtain rfl : n = m := h
    exact .empty
  | cons b bs ih =>
    obtain ⟨k, hb, hbs⟩ := h
    exact ((offer_marked _ _ _).append hb).append (ih hbs _)

theorem optionalCode_marks (greedy : Bool) (hw : Marks l w) (n : Nat) :
    Marks l (optionalCode greedy w n) := by
  intro p i i' chunk h
  obtain ⟨bodies, j, hbodies, h⟩ := bind_ok h
  cases h
  obtain ⟨bs, rfl, hbs⟩ := optionalBodies_marked greedy hw n hbodies
  rw [Array.empty_append, Built.joinOptional_eq]
  exact joinList_marked hbs _ _ _

theorem unrolledCode_marks (b : Bounds) (greedy : Bool) (depth : Nat) (info : Info)
    (hw : Marks l w) : Marks l (unrolledCode b greedy depth info w) := by
  intro p i i' chunk h
  unfold unrolledCode at h
  cases hmax : b.max with
  | none =>
    simp only [hmax] at h
    obtain ⟨front, j, hfront, h⟩ := bind_ok h
    obtain ⟨rest, k, hrest, h⟩ := bind_ok h
    cases h
    exact (copies_marked hw _ .empty hfront).append (plusCode_marks _ _ info hw _ _ _ _ hrest)
  | some max =>
    simp only [hmax] at h
    obtain ⟨front, j, hfront, h⟩ := bind_ok h
    obtain ⟨rest, k, hrest, h⟩ := bind_ok h
    cases h
    exact (copies_marked hw _ .empty hfront).append (optionalCode_marks _ hw _ _ _ _ _ hrest)

theorem countedCode_marks (b : Bounds) (greedy : Bool) (info : Info) (hw : Marks l w) :
    Marks l (countedCode b greedy info w) := by
  intro p i i' chunk h
  obtain ⟨id, j, hid, h⟩ := bind_ok h
  obtain ⟨rfl, rfl⟩ := loopId_ok hid
  obtain ⟨_, j', hadd, h⟩ := bind_ok h
  cases hadd
  obtain ⟨code, k, hcode, h⟩ := bind_ok h
  obtain ⟨_, k', hset, h⟩ := bind_ok h
  cases hset
  cases h
  exact ((Marked.single rfl).append (loopBody_marks info hw _ _ _ _ hcode)).append (.single rfl)

theorem repeatCode_marks (b : Bounds) (greedy : Bool) (depth : Nat) (plan : RepeatPlan)
    (info : Info) (hw : Marks l w) : Marks l (repeatCode b greedy depth plan info w) := by
  cases plan with
  | skip =>
    intro p i i' chunk h
    cases h
    exact .empty
  | optional => exact optionalCode_marks greedy hw 1
  | star => exact starCode_marks greedy depth info hw
  | plus => exact plusCode_marks greedy depth info hw
  | unroll => exact unrolledCode_marks b greedy depth info hw
  | counted => exact countedCode_marks b greedy info hw

/-! ## Regions, choices and groups -/

theorem atomicCode_marks (hw : Marks l w) : Marks l (atomicCode w) := by
  intro p i i' chunk h
  obtain ⟨mark, j, hmark, h⟩ := bind_ok h
  obtain ⟨rfl, rfl⟩ := freshMark_ok hmark
  obtain ⟨code, k, hcode, h⟩ := bind_ok h
  cases h
  have hbody := ((Marked.single (i := .atomicStart i.marks) rfl).append (hw _ _ _ _ hcode)).append
    (.single (i := .atomicEnd i.marks) rfl)
  exact ⟨Nat.le_of_succ_le hbody.upto,
    fun x hx mark hmark => ⟨Nat.le_of_succ_le (hbody.own x hx mark hmark).1,
      (hbody.own x hx mark hmark).2⟩, hbody.apart⟩

theorem lookCode_marks (k : Look) (info : Info) (hw : Marks l w) : Marks l (lookCode k info w) := by
  intro p i i' chunk h
  have hstep (n : Nat) : Marked n (Built.lookStep k info) n := by
    unfold Built.lookStep
    split
    · exact .single rfl
    · exact .empty
  have hcheck (n mark : Nat) : Marked n (Built.lookCheck k mark) n := by
    unfold Built.lookCheck
    split
    · exact .single rfl
    · exact .empty
  have key : ∀ mark j, (if k.negated = true then (do
        let code ← w (p.shift (2 + (Built.lookStep k info).size))
        let inner := #[.lookStart mark] ++ Built.lookStep k info ++ code ++ Built.lookCheck k mark
        return #[.fork (p.base + inner.size + 4)] ++ inner ++ #[.unwind mark, .drop, .fail] : Gen Chunk)
      else (do
        let code ← w (p.shift (1 + (Built.lookStep k info).size))
        return #[.lookStart mark] ++ Built.lookStep k info ++ code ++ Built.lookCheck k mark ++
          #[.lookEnd mark])) l j = .ok chunk i' →
      j.marks = mark + 1 → Marked mark chunk i'.marks := by
    intro mark j h hj
    split at h
    · obtain ⟨code, n, hcode, h⟩ := bind_ok h
      cases h
      have hinner := (((Marked.single (i := .lookStart mark) rfl).append (hstep _)).append
        (hw _ _ _ _ hcode)).append (hcheck _ mark)
      rw [hj] at hinner
      refine ((Marked.single rfl).append hinner).close (fun x hx m hm => ?_) (by simp)
      simp only [List.mem_toArray, List.mem_cons, List.not_mem_nil, or_false] at hx
      rcases hx with rfl | rfl | rfl <;> cases hm
      rfl
    · obtain ⟨code, n, hcode, h⟩ := bind_ok h
      cases h
      have hinner := (((Marked.single (i := .lookStart mark) rfl).append (hstep _)).append
        (hw _ _ _ _ hcode)).append (hcheck _ mark)
      rw [hj] at hinner
      refine hinner.close (fun x hx m hm => ?_) (by simp)
      obtain rfl := Array.mem_singleton.mp hx
      cases hm
      rfl
  obtain ⟨mark, j, hmark, h⟩ := bind_ok h
  obtain ⟨rfl, rfl⟩ := freshMark_ok hmark
  unfold Built.lookStep Built.lookCheck at key
  cases hb : k.behind with
  | true =>
    simp only [hb, ↓reduceIte] at h key
    obtain ⟨_, j, hadd, h⟩ := bind_ok h
    cases hadd
    exact key _ _ h rfl
  | false =>
    simp only [hb, Bool.false_eq_true, ↓reduceIte] at h key
    exact key _ _ h rfl

theorem absentCode_marks (hw : Marks l w) : Marks l (absentCode w) := by
  intro p i i' chunk h
  obtain ⟨_, j, hadd, h⟩ := bind_ok h
  cases hadd
  obtain ⟨code, k, hcode, h⟩ := bind_ok h
  cases h
  exact ((Marked.pair rfl rfl).append (hw _ _ _ _ hcode)).append (.single rfl)

theorem conditionalCode_marks (groups : List Nat) (hw : Marks l w) (hno : Marks l no) :
    Marks l (conditionalCode groups w no) := by
  intro p i i' chunk h
  obtain ⟨code, j, hcode, h⟩ := bind_ok h
  obtain ⟨noCode, k, hnoCode, h⟩ := bind_ok h
  cases h
  exact (((Marked.single rfl).append (hw _ _ _ _ hcode)).append (.single rfl)).append
    (hno _ _ _ _ hnoCode)

theorem callCode_marked {group : Nat} (h : callCode group l i = .ok chunk i') :
    Marked i.marks chunk i'.marks := by
  unfold callCode at h
  rw [bind_read] at h
  cases hsub : (l.subroutines[group]?).join with
  | none =>
    rw [hsub] at h
    cases h
  | some sub =>
    rw [hsub] at h
    cases h
    exact .single rfl

theorem captureCode_marks (group : Nat) (hw : Marks l w) : Marks l (captureCode group w) := by
  intro p i i' chunk h
  unfold captureCode at h
  rw [bind_read] at h
  dsimp only at h
  split at h
  · exact callCode_marked h
  · obtain ⟨code, j, hcode, h⟩ := bind_ok h
    cases h
    exact ((Marked.single rfl).append (hw _ _ _ _ hcode)).append (.single rfl)

theorem atomCode_marked {e : Encoding} {a : Atom} (h : atomCode e a l i = .ok chunk i') :
    Marked i.marks chunk i'.marks := by
  cases a with
  | call t group => exact callCode_marked h
  | literal bytes fold =>
    cases h
    unfold literalCode
    repeat' split
    all_goals first | exact .empty | exact .single rfl
  | empty =>
    cases h
    exact .empty
  | _ =>
    cases h
    exact .single rfl

/-! ## Trees -/

theorem repeatWriter_marks (b : Bounds) (mode : RepeatMode) (plan : RepeatPlan)
    (peek : Option UInt8) (n : Node Measured) (depth : Nat) (info : Info) (hw : Marks l w) :
    Marks l (repeatWriter b mode plan (anyCharsCode? mode plan peek n) depth info w) := by
  generalize hinstr : anyCharsCode? mode plan peek n = instr?
  have hloop : Marks l (loopWriter b mode plan instr? depth info w) := by
    intro p i i' chunk h
    obtain ⟨guarded, j, hg, h⟩ := bind_ok h
    obtain rfl : j = i := by
      cases hg
      rfl
    cases instr? with
    | none => exact repeatCode_marks b _ depth plan info hw _ _ _ _ h
    | some instr =>
      cases guarded with
      | true => exact repeatCode_marks b _ depth plan info hw _ _ _ _ h
      | false =>
        cases h
        refine .single ?_
        unfold anyCharsCode? at hinstr
        split at hinstr
        · split at hinstr
          · cases hinstr
          · split at hinstr <;> cases hinstr <;> rfl
        · cases hinstr
  unfold repeatWriter
  dsimp only
  split
  · exact atomicCode_marks hloop
  · exact hloop

theorem branchList_marked {m n : Nat} {bs : List Chunk} (h : MarkedAll m bs n) (x stop : Addr) :
    Marked m (Built.branchList x stop bs) n := by
  induction bs generalizing m x with
  | nil =>
    obtain rfl : n = m := h
    exact .empty
  | cons b bs ih =>
    obtain ⟨k, hb, hbs⟩ := h
    cases bs with
    | nil =>
      obtain rfl : n = k := hbs
      exact hb
    | cons b' bs =>
      exact (((Marked.single rfl).append hb).append (.single rfl)).append (ih hbs _)

mutual

theorem nodeCode_marks (l : Layout) :
    ∀ (n : Node Measured) (peek : Option UInt8), Marks l fun p => nodeCode peek p n
  | .atom _ a, peek => by
    intro p i i' chunk h
    dsimp only at h
    rw [nodeCode, bind_read] at h
    exact atomCode_marked h
  | .repeated note b mode body, peek => by
    intro p i i' chunk h
    dsimp only at h
    rw [nodeCode] at h
    exact repeatWriter_marks _ _ _ _ _ _ _ (nodeCode_marks l body none) p i i' chunk h
  | .group _ (.capture g _) body, peek => by
    intro p i i' chunk h
    dsimp only at h
    rw [nodeCode] at h
    exact captureCode_marks g (nodeCode_marks l body none) p i i' chunk h
  | .group _ .plain body, peek => by
    intro p i i' chunk h
    dsimp only at h
    rw [nodeCode] at h
    exact nodeCode_marks l body none p i i' chunk h
  | .group _ .atomic body, peek => by
    intro p i i' chunk h
    dsimp only at h
    rw [nodeCode] at h
    exact atomicCode_marks (nodeCode_marks l body none) p i i' chunk h
  | .group _ .absent body, peek => by
    intro p i i' chunk h
    dsimp only at h
    rw [nodeCode] at h
    exact absentCode_marks (nodeCode_marks l body none) p i i' chunk h
  | .conditional _ _ gs yes no, peek => by
    intro p i i' chunk h
    dsimp only at h
    rw [nodeCode] at h
    exact conditionalCode_marks gs (nodeCode_marks l yes none) (optionCode_marks l no) p i i' chunk h
  | .look _ k body, peek => by
    intro p i i' chunk h
    dsimp only at h
    rw [nodeCode] at h
    exact lookCode_marks k body.info (nodeCode_marks l body none) p i i' chunk h
  | .sequence _ items, peek => by
    intro p i i' chunk h
    dsimp only at h
    rw [nodeCode] at h
    exact sequenceCode_marked l items p #[] i i' chunk i.marks .empty h
  | .alternation _ branches, peek => by
    intro p i i' chunk h
    dsimp only at h
    rw [nodeCode] at h
    obtain ⟨chunks, j, hchunks, h⟩ := bind_ok h
    cases h
    obtain ⟨bs, rfl, hbs⟩ := branchChunks_marked l branches p #[] i i' chunks hchunks
    rw [Array.empty_append, Built.joinBranches_eq]
    exact branchList_marked hbs _ _

theorem optionCode_marks (l : Layout) :
    ∀ no : Option (Node Measured), Marks l fun p => optionCode p no
  | none => by
    intro p i i' chunk h
    dsimp only at h
    rw [optionCode] at h
    cases h
    exact .empty
  | some n => by
    intro p i i' chunk h
    dsimp only at h
    rw [optionCode] at h
    exact nodeCode_marks l n none p i i' chunk h

theorem sequenceCode_marked (l : Layout) :
    ∀ (ns : List (Node Measured)) (p : Place) (done : Chunk) (i i' : Issued) (chunk : Chunk)
      (m : Nat), Marked m done i.marks → sequenceCode p done ns l i = .ok chunk i' →
      Marked m chunk i'.marks
  | [] => by
    intro p done i i' chunk m hdone h
    rw [sequenceCode] at h
    cases h
    exact hdone
  | n :: ns => by
    intro p done i i' chunk m hdone h
    rw [sequenceCode] at h
    obtain ⟨code, j, hcode, h⟩ := bind_ok h
    exact sequenceCode_marked l ns p _ j i' chunk m
      (hdone.append (nodeCode_marks l n _ _ _ _ _ hcode)) h

theorem branchChunks_marked (l : Layout) :
    ∀ (ns : List (Node Measured)) (p : Place) (done : Array Chunk) (i i' : Issued)
      (chunks : Array Chunk), branchChunks p done ns l i = .ok chunks i' →
      ∃ bs : List Chunk, chunks = done ++ bs.toArray ∧ MarkedAll i.marks bs i'.marks
  | [] => by
    intro p done i i' chunks h
    rw [branchChunks] at h
    cases h
    exact ⟨[], by simp, rfl⟩
  | n :: ns => by
    intro p done i i' chunks h
    rw [branchChunks] at h
    obtain ⟨code, j, hcode, h⟩ := bind_ok h
    obtain ⟨bs, rfl, hbs⟩ := branchChunks_marked l ns _ _ j i' chunks h
    exact ⟨code :: bs, by simp, j.marks, nodeCode_marks l n none _ _ _ _ hcode, hbs⟩

end

/-! ## Programs -/

variable {root : Node Measured} {g : CallGraph}

theorem groupBody_marks (group : Nat) : Marks l (groupBody root g group) := by
  intro p i i' chunk h
  obtain ⟨body, -, hcode⟩ := groupBody_ok h
  split at hcode
  · exact nodeCode_marks l body none _ _ _ _ hcode
  · obtain ⟨code, last, hcode, rfl, hlast⟩ := hcode
    refine ((Marked.single rfl).append (nodeCode_marks l body none _ _ _ _ hcode)).append
      (.single ?_)
    rcases hlast with rfl | rfl <;> rfl

theorem addSubroutines_marked {called : List Nat} {code code' : Chunk}
    {subs subs' : Array Subroutine} {m : Nat} (hcode : Marked m code i.marks)
    (h : addSubroutines root g code subs called l i = .ok (code', subs') i') :
    Marked m code' i'.marks := by
  induction called generalizing code subs i with
  | nil =>
    cases h
    exact hcode
  | cons group rest ih =>
    obtain ⟨⟨code₁, r⟩, j, hadd, h⟩ := bind_ok h
    refine ih ?_ h
    unfold addSubroutine at hadd
    rw [bind_get] at hadd
    obtain ⟨body, j', hbody, hadd⟩ := bind_ok hadd
    rw [bind_get] at hadd
    split at hadd
    · cases hadd
    · cases hadd
      exact (hcode.append (groupBody_marks group _ _ _ _ hbody)).append (.single rfl)

/-- In the code of a program no look around is both kept and unwound. -/
theorem programCode_marked {called : List Nat} {code : Chunk} {subs : Array Subroutine}
    (h : programCode root g called l i = .ok (code, subs) i') : Marked i.marks code i'.marks := by
  obtain ⟨main, j, raw, hmain, hsubs, rfl⟩ := programCode_parts h
  refine (addSubroutines_marked (?_ : Marked i.marks _ j.marks) hsubs).link subs
  rw [← Array.append_singleton]
  refine Marked.append (n := j.marks) ?_ (.single rfl)
  split at hmain
  · exact callCode_marked hmain
  · exact nodeCode_marks l root none _ _ _ _ hmain

end Compile
end RegexMachine
