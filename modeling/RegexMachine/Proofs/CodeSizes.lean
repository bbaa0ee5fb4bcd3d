import Mathlib.Algebra.BigOperators.Ring.List
import Mathlib.Algebra.Order.BigOperators.Group.List
import Mathlib.Algebra.Order.Ring.Nat
import RegexMachine.Proofs.Definitions

/-!
How long programs are. A repeat is unrolled if its copies have few nodes, where a repeat in its body counts
as one node and its body once, however often that is written. So a program has a fixed number of
instructions for each node of its tree, times the limit of unrolling for each of the unrolled repeats that
stand inside one another.
-/
namespace RegexMachine
open Compile

namespace Compile

/-! ## Writing steps -/

/-- What a writing step comes to has a property, whatever was written before. -/
def Makes {α : Type} (l : Layout) (q : α → Prop) (x : Gen α) : Prop := ∀ i a j, x l i = .ok a j → q a

namespace Makes

variable {α β : Type} {l : Layout} {q : α → Prop} {q' : β → Prop}

theorem pure {a : α} (h : q a) : Makes l q (Pure.pure a) := fun _ _ _ hr => by
  cases hr
  exact h

theorem mono {x : Gen α} {p : α → Prop} (h : Makes l p x) (hq : ∀ a, p a → q a) : Makes l q x :=
  fun i a j hr => hq a (h i a j hr)

theorem bind {x : Gen α} {f : α → Gen β} (hx : Makes l q x) (hf : ∀ a, q a → Makes l q' (f a)) :
    Makes l q' (x >>= f) := fun i _ _ hr =>
  have ⟨a, j, ha, hb⟩ := bind_ok hr
  hf a (hx i a j ha) j _ _ hb

/-- Nothing need be known of what was written before. -/
theorem after {x : Gen α} {f : α → Gen β} (hf : ∀ a, Makes l q' (f a)) : Makes l q' (x >>= f) :=
  bind (q := fun _ => True) (fun _ _ _ _ => trivial) fun a _ => hf a

theorem read {f : Layout → Gen β} (h : Makes l q' (f l)) : Makes l q' (read >>= f) := h

theorem ite {p : Prop} [Decidable p] {x y : Gen α} (hx : p → Makes l q x) (hy : ¬ p → Makes l q y) :
    Makes l q (if p then x else y) := by
  split
  · exact hx ‹_›
  · exact hy ‹_›

theorem throw (e : CodeError) : Makes l q (throw e) := fun _ _ _ hr => nomatch hr

end Makes

/-! ## Writers -/

/-- The code of a writer has at most `k` instructions, with three to spare: those that open a group,
close it and return from it, or those that join a branch to others. -/
def Sized (l : Layout) (k : Nat) (w : Writer) : Prop := ∀ p, Makes l (·.size + 3 ≤ k) (w p)

variable {l : Layout} {w no : Writer} {j k : Nat}

theorem Sized.mono (h : Sized l j w) (hjk : j ≤ k) : Sized l k w := fun p =>
  (h p).mono fun _ hc => Nat.le_trans hc hjk

theorem guardCode_size (depth : Nat) (p : Place) : Makes l (·.size ≤ 1) (guardCode depth p) := by
  unfold guardCode
  refine .after fun guarded => .ite (fun _ => ?_) fun _ => .pure (Nat.zero_le _)
  exact .after fun _ => .after fun _ => .pure (Nat.le_refl _)

theorem size_between (first last : Instr) (code : Chunk) :
    (#[first] ++ code ++ #[last]).size = code.size + 2 := by
  simp only [Array.size_append, List.size_toArray, List.length_singleton]
  omega

theorem offerSize_le (greedy : Bool) : offerSize greedy ≤ 2 := by
  cases greedy <;> decide

theorem loopBody_sized (info : Info) (hw : Sized l k w) : Sized l (k + 2) (loopBody info w) := by
  intro p
  unfold loopBody
  refine .ite (fun _ => (hw _).mono fun _ hc => Nat.le_add_right_of_le hc) fun _ => ?_
  refine .after fun id => .read ((hw _).bind fun code hcode => .pure ?_)
  rw [size_between]
  omega

theorem starCode_sized (greedy : Bool) (depth : Nat) (info : Info) (hw : Sized l k w) :
    Sized l (k + 6) (starCode greedy depth info w) := by
  intro p
  refine (guardCode_size depth p).bind fun guard hguard => ?_
  refine (loopBody_sized info hw _).bind fun code hcode => .pure ?_
  have hoffer := offerSize_le greedy
  simp only [Array.size_append, Built.offer_size, List.size_toArray, List.length_singleton]
  omega

theorem plusCode_sized (greedy : Bool) (depth : Nat) (info : Info) (hw : Sized l k w) :
    Sized l (k + 6) (plusCode greedy depth info w) := by
  intro p
  unfold plusCode
  split
  all_goals
    refine (guardCode_size depth p).bind fun guard hguard => ?_
    refine (loopBody_sized info hw _).bind fun code hcode => .pure ?_
    simp only [Array.size_append, List.size_toArray, List.length_singleton]
    omega

theorem copies_size (hw : Sized l k w) (n : Nat) (p : Place) (done : Chunk) :
    Makes l (·.size ≤ done.size + n * k) (copies w p done n) := by
  induction n generalizing done with
  | zero => exact .pure (Nat.le_add_right _ _)
  | succ n ih =>
    refine (hw _).bind fun code hcode => (ih _).mono fun chunk hchunk => ?_
    rw [Array.size_append] at hchunk
    rw [Nat.succ_mul]
    omega

theorem optionalBodies_size (greedy : Bool) (hw : Sized l k w) (n : Nat) (p : Place)
    (done : Array Chunk) :
    Makes l (fun chunks => ∃ bs : List Chunk, chunks = done ++ bs.toArray ∧ bs.length = n ∧
      ∀ b ∈ bs, b.size + 3 ≤ k) (optionalBodies greedy w p done n) := by
  induction n generalizing p done with
  | zero => exact .pure ⟨[], by simp, rfl, nofun⟩
  | succ n ih =>
    refine (hw _).bind fun code hcode => (ih _ _).mono ?_
    rintro _ ⟨bs, rfl, rfl, hbs⟩
    exact ⟨code :: bs, by simp, rfl, List.forall_mem_cons.mpr ⟨hcode, hbs⟩⟩

theorem joinList_size_le (greedy : Bool) (x exit : Addr) {bs : List Chunk}
    (h : ∀ b ∈ bs, b.size + 3 ≤ k) :
    (Built.joinList greedy x exit bs).size ≤ bs.length * k := by
  induction bs generalizing x with
  | nil => exact Nat.zero_le _
  | cons b bs ih =>
    obtain ⟨hb, hbs⟩ := List.forall_mem_cons.mp h
    have hrest := ih (x + offerSize greedy + b.size) hbs
    have hoffer := offerSize_le greedy
    rw [Built.joinList, Array.size_append, Array.size_append, Built.offer_size, List.length_cons,
      Nat.succ_mul]
    omega

theorem optionalCode_sized (greedy : Bool) (hw : Sized l k w) (n : Nat) :
    Sized l (n * k + 3) (optionalCode greedy w n) := by
  intro p
  refine (optionalBodies_size greedy hw n p #[]).bind ?_
  rintro _ ⟨bs, rfl, rfl, hbs⟩
  refine .pure (Nat.add_le_add_right ?_ 3)
  rw [Array.empty_append, Built.joinOptional_eq]
  exact joinList_size_le _ _ _ hbs

/-- Number of times that a plan writes the body of a repeat. -/
def roundsWritten (b : Bounds) : RepeatPlan → Nat
  | .skip => 0
  | .unroll => b.max.getD b.min
  | _ => 1

theorem unrolledCode_sized {b : Bounds} (hb : b.max.all (b.min ≤ ·) = true)
    (hmin : b.max = none → 0 < b.min) (greedy : Bool) (depth : Nat) (info : Info)
    (hw : Sized l k w) : Sized l (b.max.getD b.min * k + 6) (unrolledCode b greedy depth info w) := by
  intro p
  unfold unrolledCode
  cases hmax : b.max with
  | none =>
    refine (copies_size hw _ p #[]).bind fun front hfront => ?_
    refine (plusCode_sized greedy depth info hw _).bind fun code hcode => .pure ?_
    obtain ⟨n, hn⟩ : ∃ n, b.min = n + 1 := ⟨b.min - 1, by have := hmin hmax; omega⟩
    simp only [hn, Nat.add_sub_cancel, List.size_toArray, List.length_nil] at hfront
    simp only [Option.getD_none, Array.size_append, hn, Nat.succ_mul]
    omega
  | some max =>
    rw [hmax] at hb
    refine (copies_size hw _ p #[]).bind fun front hfront => ?_
    refine (optionalCode_sized greedy hw _ _).bind fun code hcode => .pure ?_
    have hsum : b.min * k + (max - b.min) * k = max * k := by
      rw [← Nat.add_mul, Nat.add_sub_cancel' (by simpa using hb)]
    simp only [List.size_toArray, List.length_nil] at hfront
    simp only [Option.getD_some, Array.size_append]
    omega

theorem countedCode_sized (b : Bounds) (greedy : Bool) (info : Info) (hw : Sized l k w) :
    Sized l (k + 4) (countedCode b greedy info w) := by
  intro p
  refine .after fun id => .after fun _ => (loopBody_sized info hw _).bind fun code hcode =>
    .after fun _ => .pure ?_
  rw [size_between]
  omega

/-- Where a repeat is unrolled there is a round to write, also if it has no greatest number of rounds, and
the nodes of all copies of its body are within the limit. -/
theorem repeatPlan_unroll {b : Bounds} {body : Node Measured} (h : repeatPlan b body = .unroll) :
    (b.max = none → 0 < b.min) ∧ b.max.getD b.min * weight body ≤ unrollLimit := by
  unfold repeatPlan at h
  split at h
  · cases h
  · cases h
  · cases h
  · cases h
  · rename_i hstar _
    split at h
    · exact ⟨fun hnone => Nat.pos_of_ne_zero fun hzero => hstar hzero hnone, ‹_›⟩
    · cases h

theorem repeatCode_sized {b : Bounds} (hb : b.max.all (b.min ≤ ·) = true) (n : Node Measured)
    (greedy : Bool) (depth : Nat) (info : Info) (hw : Sized l k w) :
    Sized l (roundsWritten b (repeatPlan b n) * k + 6)
      (repeatCode b greedy depth (repeatPlan b n) info w) := by
  cases hplan : repeatPlan b n with
  | skip => exact fun _ => .pure (by simp)
  | optional => exact (optionalCode_sized greedy hw 1).mono (Nat.add_le_add_left (by decide) _)
  | star => exact (starCode_sized greedy depth info hw).mono (by simp [roundsWritten])
  | plus => exact (plusCode_sized greedy depth info hw).mono (by simp [roundsWritten])
  | unroll => exact unrolledCode_sized hb (repeatPlan_unroll hplan).1 greedy depth info hw
  | counted => exact (countedCode_sized b greedy info hw).mono (by simp [roundsWritten])

theorem atomicCode_sized (hw : Sized l k w) : Sized l (k + 2) (atomicCode w) := by
  intro p
  refine .after fun mark => (hw _).bind fun code hcode => .pure ?_
  rw [size_between]
  omega

theorem lookCode_sized (q : Look) (info : Info) (hw : Sized l k w) :
    Sized l (k + 8) (lookCode q info w) := by
  intro p
  have hrest (mark : Nat) {step check : Chunk} (hstep : step.size ≤ 1) (hcheck : check.size ≤ 1) :
      Makes l (·.size + 3 ≤ k + 8) (if q.negated = true then (do
        let code ← w (p.shift (2 + step.size))
        let inner := #[.lookStart mark] ++ step ++ code ++ check
        return #[.fork (p.base + inner.size + 4)] ++ inner ++ #[.unwind mark, .drop, .fail] : Gen Chunk)
      else (do
        let code ← w (p.shift (1 + step.size))
        return #[.lookStart mark] ++ step ++ code ++ check ++ #[.lookEnd mark])) := by
    refine .ite (fun _ => ?_) fun _ => ?_
    all_goals
      refine (hw _).bind fun code hcode => .pure ?_
      simp only [Array.size_append, List.size_toArray, List.length_cons, List.length_nil]
      omega
  unfold lookCode
  refine .after fun mark => ?_
  cases hb : q.behind with
  | true =>
    simp only [↓reduceIte]
    exact .after fun _ => hrest mark (Nat.le_refl 1) (Nat.le_refl 1)
  | false =>
    simp only [Bool.false_eq_true, ↓reduceIte]
    exact hrest mark (Nat.zero_le 1) (Nat.zero_le 1)

theorem absentCode_sized (hw : Sized l k w) : Sized l (k + 3) (absentCode w) := by
  intro p
  refine .after fun _ => (hw _).bind fun code hcode => .pure ?_
  simp only [Array.size_append, List.size_toArray, List.length_cons, List.length_nil]
  omega

theorem conditionalCode_sized (groups : List Nat) (hyes : Sized l k w)
    (hno : ∀ p, Makes l (·.size ≤ j) (no p)) :
    Sized l (k + j + 2) (conditionalCode groups w no) := by
  intro p
  refine (hyes _).bind fun yesCode hy => (hno _).bind fun noCode hn => .pure ?_
  simp only [Array.size_append, List.size_toArray, List.length_singleton]
  omega

theorem callCode_size (group : Nat) : Makes l (·.size = 1) (callCode group) := by
  unfold callCode
  refine .read ?_
  split
  · exact .pure rfl
  · exact .throw _

theorem captureCode_sized (group : Nat) (hw : Sized l k w) :
    Sized l (if l.calls.isCalled group then 4 else k + 2) (captureCode group w) := by
  intro p
  unfold captureCode
  refine .read (.ite (fun hcalled => ?_) fun hcalled => ?_)
  · rw [if_pos hcalled]
    exact (callCode_size group).mono fun c hc => by omega
  · rw [if_neg hcalled]
    refine (hw _).bind fun code hcode => .pure ?_
    rw [size_between]
    omega

theorem repeatWriter_sized {b : Bounds} (hb : b.max.all (b.min ≤ ·) = true) (mode : RepeatMode)
    (n : Node Measured) (instr : Option Instr) (depth : Nat) (info : Info) (hw : Sized l k w) :
    Sized l (roundsWritten b (repeatPlan b n) * k + 8)
      (repeatWriter b mode (repeatPlan b n) instr depth info w) := by
  have hloop : Sized l (roundsWritten b (repeatPlan b n) * k + 6)
      (loopWriter b mode (repeatPlan b n) instr depth info w) := by
    intro p
    unfold loopWriter
    refine .after fun guarded => ?_
    split
    · exact .ite (fun _ => repeatCode_sized hb n _ _ _ hw p) fun _ =>
        .pure (Nat.le_add_left_of_le (Nat.le_add_right 4 2))
    · exact repeatCode_sized hb n _ _ _ hw p
  unfold repeatWriter
  dsimp only
  split
  · exact atomicCode_sized hloop
  · exact hloop.mono (Nat.le_add_right _ 2)

end Compile

/-! ## Trees -/

namespace Node

mutual

/-- Number of nodes of what is written for a tree where it stands: those in the body of a repeat as often
as its plan writes the body, and none of those in a group that is called. -/
def written (g : CallGraph) : Node Measured → Nat
  | atom _ _ => 1
  | repeated _ b _ body => 1 + roundsWritten b (repeatPlan b body) * written g body
  | group _ (.capture k _) body => if g.isCalled k then 1 else 1 + written g body
  | group _ _ body => 1 + written g body
  | conditional _ _ _ yes no => 1 + written g yes + writtenOption g no
  | look _ _ body => 1 + written g body
  | sequence _ items => 1 + writtenAll g items
  | alternation _ branches => 1 + writtenAll g branches

def writtenOption (g : CallGraph) : Option (Node Measured) → Nat
  | none => 0
  | some n => written g n

def writtenAll (g : CallGraph) : List (Node Measured) → Nat
  | [] => 0
  | n :: ns => written g n + writtenAll g ns

end

end Node

namespace Compile
open Node

variable {l : Layout}

theorem atomCode_size (e : Encoding) (a : Atom) : Makes l (·.size ≤ 1) (atomCode e a) := by
  cases a with
  | call t group => exact (callCode_size group).mono fun _ hc => Nat.le_of_eq hc
  | literal bytes fold =>
    refine .pure ?_
    unfold literalCode
    repeat' split
    all_goals simp
  | keep => exact .after fun _ => .pure (Nat.le_refl 1)
  | empty => exact .pure (Nat.zero_le 1)
  | _ => exact .pure (Nat.le_refl 1)

theorem sequenceCode_size (ns : List (Node Measured))
    (hns : ∀ n ∈ ns, ∀ peek, Sized l (8 * n.written l.calls) fun p => nodeCode peek p n) (p : Place)
    (done : Chunk) :
    Makes l (·.size ≤ done.size + 8 * writtenAll l.calls ns) (sequenceCode p done ns) := by
  induction ns generalizing done with
  | nil =>
    rw [sequenceCode]
    exact .pure (Nat.le_add_right _ _)
  | cons n ns ih =>
    obtain ⟨hn, hrest⟩ := List.forall_mem_cons.mp hns
    rw [sequenceCode]
    refine (hn _ _).bind fun code hcode => (ih hrest _).mono fun chunk hchunk => ?_
    rw [Array.size_append] at hchunk
    rw [writtenAll, Nat.mul_add]
    omega

theorem branchChunks_size (ns : List (Node Measured))
    (hns : ∀ n ∈ ns, Sized l (8 * n.written l.calls) fun p => nodeCode none p n) (p : Place)
    (done : Array Chunk) :
    Makes l (fun chunks => ∃ bs : List Chunk, chunks = done ++ bs.toArray ∧
      (bs.map (·.size + 3)).sum ≤ 8 * writtenAll l.calls ns) (branchChunks p done ns) := by
  induction ns generalizing p done with
  | nil =>
    rw [branchChunks]
    exact .pure ⟨[], by simp, Nat.zero_le _⟩
  | cons n ns ih =>
    obtain ⟨hn, hrest⟩ := List.forall_mem_cons.mp hns
    rw [branchChunks]
    refine (hn _).bind fun code hcode => (ih hrest _ _).mono ?_
    rintro _ ⟨bs, rfl, hbs⟩
    refine ⟨code :: bs, by simp, ?_⟩
    rw [List.map_cons, List.sum_cons, writtenAll, Nat.mul_add]
    omega

/-- A branch takes two instructions more at most. -/
theorem branchList_size_le (x stop : Addr) (bs : List Chunk) :
    (Built.branchList x stop bs).size ≤ (bs.map (·.size + 3)).sum := by
  fun_induction Built.branchList x stop bs with
  | case1 => exact Nat.zero_le _
  | case2 => simp
  | case3 x b bs _ ih =>
    simp only [Array.size_append, List.size_toArray, List.length_singleton, List.map_cons,
      List.sum_cons]
    omega

/-- A tree has at most eight instructions for each node that is written. -/
theorem nodeCode_sized {n : Node Measured} (h : n.Ordered) (peek : Option UInt8) :
    Sized l (8 * n.written l.calls) fun p => nodeCode peek p n := by
  induction n using Node.induction generalizing peek with
  | step n ih =>
    have hpart : ∀ c ∈ n.children, Sized l (8 * c.written l.calls) fun p => nodeCode none p c :=
      fun c hc => ih c hc (h.child hc) none
    intro p
    cases n with
    | atom note a =>
      dsimp only
      rw [nodeCode, written]
      exact .read ((atomCode_size _ a).mono fun c hc => by omega)
    | repeated note b mode body =>
      dsimp only
      rw [nodeCode, written]
      refine (repeatWriter_sized h.self mode body _ _ _ (hpart body (by simp [children]))).mono
        (Nat.le_of_eq ?_) p
      rw [Nat.mul_left_comm, Nat.mul_add, Nat.add_comm]
    | group note kind body =>
      have hbody := hpart body (by simp [children])
      dsimp only
      cases kind with
      | capture g name =>
        rw [nodeCode, written]
        refine (captureCode_sized g hbody).mono ?_ p
        split <;> omega
      | plain =>
        rw [nodeCode, written]
        · exact hbody.mono (by omega) p
        · rintro _ _ ⟨⟩
      | atomic =>
        rw [nodeCode, written]
        · exact (atomicCode_sized hbody).mono (by omega) p
        · rintro _ _ ⟨⟩
      | absent =>
        rw [nodeCode, written]
        · exact (absentCode_sized hbody).mono (by omega) p
        · rintro _ _ ⟨⟩
    | conditional note t gs yes no =>
      dsimp only
      rw [nodeCode, written]
      refine (conditionalCode_sized gs (j := 8 * writtenOption l.calls no)
        (hpart yes (by simp [children])) fun q => ?_).mono (by omega) p
      cases no with
      | none =>
        rw [optionCode]
        exact .pure (Nat.zero_le _)
      | some no =>
        rw [optionCode, writtenOption]
        exact (hpart no (by simp [children]) q).mono fun c hc => by omega
    | look note k body =>
      dsimp only
      rw [nodeCode, written]
      exact (lookCode_sized k _ (hpart body (by simp [children]))).mono (by omega) p
    | sequence note items =>
      dsimp only
      rw [nodeCode, written]
      refine (sequenceCode_size items (fun n hn peek => ih n hn (h.child hn) peek) p #[]).mono
        fun c hc => ?_
      simp only [List.size_toArray, List.length_nil] at hc
      omega
    | alternation note branches =>
      dsimp only
      rw [nodeCode, written]
      refine (branchChunks_size branches hpart p #[]).bind ?_
      rintro _ ⟨bs, rfl, hbs⟩
      refine .pure ?_
      rw [Array.empty_append, Built.joinBranches_eq]
      exact Nat.le_trans (Nat.add_le_add_right (branchList_size_le _ _ bs) 3) (by omega)

/-! ## Copies of copies -/

theorem copies_fixed {w : Writer} {k : Nat} (hw : ∀ p, Makes l (·.size = k) (w p)) (n : Nat)
    (p : Place) (done : Chunk) : Makes l (·.size = done.size + n * k) (copies w p done n) := by
  induction n generalizing done with
  | zero => exact .pure (by simp)
  | succ n ih =>
    refine (hw _).bind fun code hcode => (ih _).mono fun chunk hchunk => ?_
    rw [hchunk, Array.size_append, hcode, Nat.succ_mul]
    omega

theorem repeatPlan_fixed {n : Nat} {body : Node Measured} (hn : 0 < n)
    (h : n * weight body ≤ unrollLimit) : repeatPlan ⟨n, some n⟩ body = .unroll := by
  obtain ⟨n, rfl⟩ : ∃ k, n = k + 1 := ⟨n - 1, by omega⟩
  unfold repeatPlan
  split
  · rename_i heq
    cases heq
  · rename_i hzero _
    cases hzero
  · rename_i heq
    cases heq
  · rename_i heq
    cases heq
  · exact if_pos h

/-- A repeat of a fixed number of rounds that is unrolled is nothing but its copies. -/
theorem nodeCode_fixed {n k : Nat} {body : Node Measured} (note : Measured) (hn : 0 < n)
    (h : n * weight body ≤ unrollLimit)
    (hbody : ∀ p, Makes l (·.size = k) (nodeCode none p body)) (peek : Option UInt8) (p : Place) :
    Makes l (·.size = n * k) (nodeCode peek p (.repeated note ⟨n, some n⟩ .greedy body)) := by
  have hplan := repeatPlan_fixed hn h
  have hinstr : anyCharsCode? .greedy .unroll peek body = none := by
    unfold anyCharsCode?
    split <;> rfl
  rw [nodeCode, hplan, hinstr]
  refine .after fun _ => (copies_fixed hbody n p #[]).bind fun front hfront => ?_
  refine .bind (q := (·.size = 0)) ?_ fun rest hrest => .pure ?_
  · rw [Nat.sub_self]
    intro i rest j hrest
    cases hrest
    rfl
  · rw [Array.size_append, hfront, hrest]
    simp

/-- Only the two nodes of the inner repeat are seen where the outer one is unrolled. So fifty copies of a
byte are written twenty-five times, for three nodes. -/
theorem stackedCopies_size (outer inner byte : Measured) (c : UInt8) (p : Place) :
    let n : Node Measured := .repeated outer ⟨25, some 25⟩ .greedy
      (.repeated inner ⟨50, some 50⟩ .greedy (.atom byte (.literal #[c] false)))
    weight n = 3 ∧ 8 * unrollLimit * weight n < 1250 ∧ Makes l (·.size = 1250) (nodeCode none p n) := by
  have hbyte (q : Place) : Makes l (·.size = 1) (nodeCode none q (.atom byte (.literal #[c] false))) := by
    rw [nodeCode]
    exact .read (.pure rfl)
  have hinner (q : Place) : Makes l (·.size = 50) (nodeCode none q
      (.repeated inner ⟨50, some 50⟩ .greedy (.atom byte (.literal #[c] false)))) :=
    nodeCode_fixed inner (by decide) (show 50 * 1 ≤ 50 by decide) hbyte none q
  exact ⟨rfl, show 8 * 50 * 3 < 1250 by decide,
    nodeCode_fixed outer (by decide) (show 25 * 2 ≤ 50 by decide) hinner none p⟩

/-! ## Programs -/

/-- Most instructions in the subroutine of a group. Two of those for the whole pattern are left for the
call of it and the end of the match. -/
def routineRoom (root : Node Measured) (g : CallGraph) (group : Nat) : Nat :=
  if group = 0 then 8 * root.written g - 2 else 8 * (root.calledBody? group).elim 0 (written g)

variable {root : Node Measured}

theorem groupBody_size (h : root.Ordered) (group : Nat) (p : Place) :
    Makes l (·.size + 1 ≤ routineRoom root l.calls group) (groupBody root l.calls group p) := by
  intro i chunk i' hchunk
  obtain ⟨body, hbody, hcode⟩ := groupBody_ok hchunk
  have hordered : body.Ordered := Everywhere.subtree h (calledBody?_mem_subtrees hbody)
  unfold routineRoom
  split at hcode
  · rename_i hzero
    obtain rfl : root = body := by simpa [calledBody?, hzero] using hbody
    have hle := nodeCode_sized hordered none _ i chunk i' hcode
    rw [if_pos hzero]
    omega
  · rename_i hzero
    obtain ⟨inner, last, hinner, rfl, -⟩ := hcode
    have hle := nodeCode_sized hordered none _ i inner i' hinner
    rw [if_neg hzero, hbody, Option.elim_some, size_between]
    omega

theorem addSubroutine_size (h : root.Ordered) (code : Chunk) (group : Nat) :
    Makes l (fun out => out.1.size ≤ code.size + routineRoom root l.calls group)
      (addSubroutine root l.calls code group) := by
  unfold addSubroutine
  refine .after fun issued => (groupBody_size h group _).bind fun body hbody => .after fun issued' => ?_
  have hlast (subs : Subroutine) : Makes l (fun out : Chunk × Subroutine =>
      out.1.size ≤ code.size + routineRoom root l.calls group)
      (Pure.pure (code ++ body ++ #[.ret], subs)) := by
    refine .pure ?_
    simp only [Array.size_append, List.size_toArray, List.length_singleton]
    omega
  exact .ite (fun _ => .after fun _ => hlast _) fun _ => hlast _

theorem addSubroutines_size (h : root.Ordered) (called : List Nat) (code : Chunk)
    (subs : Array Subroutine) :
    Makes l (fun out => out.1.size ≤ code.size + (called.map (routineRoom root l.calls)).sum)
      (addSubroutines root l.calls code subs called) := by
  induction called generalizing code subs with
  | nil => exact .pure (Nat.le_add_right _ _)
  | cons group rest ih =>
    refine (addSubroutine_size h code group).bind ?_
    rintro ⟨code', sub⟩ hcode
    dsimp only at hcode
    refine (ih code' (subs.push sub)).mono fun out hout => ?_
    rw [List.map_cons, List.sum_cons]
    omega

theorem programCode_size (h : root.Ordered) (called : List Nat) :
    Makes l (fun out => out.1.size ≤ (if l.calls.isCalled 0 then 2 else 8 * root.written l.calls - 2) +
      (called.map (routineRoom root l.calls)).sum) (programCode root l.calls called) := by
  rintro i ⟨code, subs⟩ i' hcode
  obtain ⟨main, j, raw, hmain, hsubs, rfl⟩ := programCode_parts hcode
  have hraw := addSubroutines_size h called (main.push .accept) #[] j _ i' hsubs
  rw [Array.size_push] at hraw
  dsimp only at hraw ⊢
  rw [Array.size_map]
  cases hcalled : l.calls.isCalled 0 with
  | true =>
    rw [hcalled] at hmain
    have hone : main.size = 1 := callCode_size 0 i main j hmain
    simp only [↓reduceIte]
    omega
  | false =>
    rw [hcalled] at hmain
    have hle := nodeCode_sized h none _ i main j hmain
    simp only [Bool.false_eq_true, ↓reduceIte]
    omega

end Compile

/-! ## Copies -/

namespace Node

mutual

/-- Largest number of unrolled repeats inside one another. -/
def unrollDepth : Node Measured → Nat
  | atom _ _ => 0
  | repeated _ b _ body => unrollDepth body + if repeatPlan b body = .unroll then 1 else 0
  | group _ _ body => unrollDepth body
  | conditional _ _ _ yes no => max (unrollDepth yes) (unrollDepthOption no)
  | look _ _ body => unrollDepth body
  | sequence _ items => unrollDepthAll items
  | alternation _ branches => unrollDepthAll branches

def unrollDepthOption : Option (Node Measured) → Nat
  | none => 0
  | some n => unrollDepth n

def unrollDepthAll : List (Node Measured) → Nat
  | [] => 0
  | n :: ns => max (unrollDepth n) (unrollDepthAll ns)

end

theorem le_unrollDepthAll {ns : List (Node Measured)} {n : Node Measured} (h : n ∈ ns) :
    n.unrollDepth ≤ unrollDepthAll ns := by
  induction h with
  | head ns => exact Nat.le_max_left _ _
  | tail m _ ih => exact Nat.le_trans ih (Nat.le_max_right _ _)

theorem unrollDepth_child {n c : Node Measured} (h : c ∈ n.children) :
    c.unrollDepth ≤ n.unrollDepth := by
  cases n with
  | atom note a => cases h
  | conditional note t gs yes no =>
    rcases List.mem_cons.mp h with rfl | h
    · exact Nat.le_max_left _ _
    · cases no with
      | none => cases h
      | some no =>
        obtain rfl := List.mem_singleton.mp h
        exact Nat.le_max_right _ _
  | sequence note items => exact le_unrollDepthAll h
  | alternation note branches => exact le_unrollDepthAll h
  | repeated note b mode body =>
    obtain rfl := List.mem_singleton.mp h
    exact Nat.le_add_right _ _
  | _ =>
    obtain rfl := List.mem_singleton.mp h
    exact Nat.le_refl _

/-! ### Numbers of nodes -/

mutual

theorem countNodes_eq (acc : Nat) : ∀ n : Node Measured, countNodes acc n = acc + weight n
  | atom _ _ => rfl
  | repeated _ _ _ body => by
    rw [weight, countNodes, countNodes, countNodes_eq (acc + 1), countNodes_eq (0 + 1)]
    omega
  | group _ _ body => by
    rw [weight, countNodes, countNodes, countNodes_eq (acc + 1), countNodes_eq (0 + 1)]
    omega
  | conditional _ _ _ yes no => by
    rw [weight, countNodes, countNodes, countNodesOption_eq, countNodesOption_eq,
      countNodes_eq (acc + 1), countNodes_eq (0 + 1)]
    omega
  | look _ _ body => by
    rw [weight, countNodes, countNodes, countNodes_eq (acc + 1), countNodes_eq (0 + 1)]
    omega
  | sequence _ items => by
    rw [weight, countNodes, countNodes, countNodesAll_eq (acc + 1), countNodesAll_eq (0 + 1)]
    omega
  | alternation _ branches => by
    rw [weight, countNodes, countNodes, countNodesAll_eq (acc + 1), countNodesAll_eq (0 + 1)]
    omega

theorem countNodesOption_eq (acc : Nat) :
    ∀ no : Option (Node Measured), countNodesOption acc no = acc + (no.toList.map weight).sum
  | none => rfl
  | some n => by simp [countNodesOption, countNodes_eq acc n]

theorem countNodesAll_eq (acc : Nat) :
    ∀ ns : List (Node Measured), countNodesAll acc ns = acc + (ns.map weight).sum
  | [] => rfl
  | n :: ns => by
    simp [countNodesAll, countNodesAll_eq _ ns, countNodes_eq acc n, Nat.add_assoc]

end

theorem weight_eq (n : Node Measured) : weight n = 1 + (n.children.map weight).sum := by
  cases n <;> simp [weight, countNodes, children, countNodes_eq (0 + 1),
    countNodesOption_eq, countNodesAll_eq, Nat.add_assoc]

/-- Number of nodes that are written for the subroutine of a group, if a node is a group that is
called. -/
def routineNodes (g : CallGraph) (n : Node Measured) : Nat :=
  n.captured?.elim 0 fun e => if g.isCalled e.1 then written g e.2 else 0

/-- Number of nodes that are written for a tree in all, where it stands and in the subroutines of its
groups. -/
def writtenInAll (g : CallGraph) (n : Node Measured) : Nat :=
  written g n + (n.subtrees.toList.map (routineNodes g)).sum

variable {g : CallGraph} {n : Node Measured}

theorem writtenInAll_eq (g : CallGraph) (n : Node Measured) :
    writtenInAll g n = written g n + routineNodes g n +
      (n.children.map fun c => (c.subtrees.toList.map (routineNodes g)).sum).sum := by
  have hparts (cs : List (Node Measured)) :
      ((cs.flatMap fun c => c.subtrees.toList).map (routineNodes g)).sum =
        (cs.map fun c => (c.subtrees.toList.map (routineNodes g)).sum).sum := by
    induction cs with
    | nil => rfl
    | cons c cs ih => simp [ih]
  rw [writtenInAll, subtrees_toList, List.map_cons, List.sum_cons, hparts, Nat.add_assoc]

/-- A node whose body is written once at most is written once, besides its parts. -/
theorem writtenInAll_le (h : ∀ note b mode body, n = repeated note b mode body →
      repeatPlan b body ≠ .unroll) :
    writtenInAll g n ≤ 1 + (n.children.map (writtenInAll g)).sum := by
  have hall (ns : List (Node Measured)) : (ns.map (writtenInAll g)).sum = writtenAll g ns +
      (ns.map fun c => (c.subtrees.toList.map (routineNodes g)).sum).sum := by
    induction ns with
    | nil => rfl
    | cons n ns ih =>
      simp only [List.map_cons, List.sum_cons, ih, writtenAll]
      rw [writtenInAll]
      omega
  rw [writtenInAll_eq, hall]
  have hself : written g n + routineNodes g n ≤ 1 + writtenAll g n.children := by
    cases n with
    | atom note a => simp [written, routineNodes, captured?]
    | repeated note b mode body =>
      have hrounds : roundsWritten b (repeatPlan b body) ≤ 1 := by
        have hplan := h note b mode body rfl
        cases hb : repeatPlan b body <;> simp_all [roundsWritten]
      have hbody := Nat.mul_le_mul_right (written g body) hrounds
      simp only [written, routineNodes, captured?, children, writtenAll, Option.elim_none]
      omega
    | group note kind body =>
      cases kind with
      | capture k name =>
        simp only [written, routineNodes, captured?, children, writtenAll, Option.elim_some]
        split <;> omega
      | _ => simp [written, routineNodes, captured?, children, writtenAll]
    | conditional note t gs yes no =>
      cases no <;> simp [written, writtenOption, writtenAll, children, routineNodes, captured?,
        Nat.add_assoc]
    | _ => simp [written, writtenAll, children, routineNodes, captured?]
  omega

/-- A repeat that is unrolled is written as often as its plan says, but its groups once only. -/
theorem writtenInAll_repeated (note : Measured) (b : Bounds) (mode : RepeatMode)
    (body : Node Measured) : writtenInAll g (repeated note b mode body) ≤
      1 + roundsWritten b (repeatPlan b body) * written g body + writtenInAll g body := by
  rw [writtenInAll_eq]
  simp only [written, routineNodes, captured?, children, Option.elim_none, List.map_cons,
    List.map_nil, List.sum_cons, List.sum_nil, writtenInAll]
  omega

theorem written_le (g : CallGraph) (n : Node Measured) : written g n ≤ writtenInAll g n :=
  Nat.le_add_right _ _

theorem written_pos (g : CallGraph) (n : Node Measured) : 0 < written g n := by
  cases n with
  | group note kind body =>
    cases kind with
    | capture k name =>
      rw [written]
      split <;> omega
    | _ => simp [written]
  | _ =>
    rw [written]
    omega

theorem weight_pos (n : Node Measured) : 0 < weight n := by
  rw [weight_eq]
  omega

/-- The body of an unrolled repeat is no larger than its copies may be, but what is unrolled in the body
has not been counted. So the limit comes in once for each unrolled repeat around another. -/
theorem writtenInAll_bound {depth : Nat} (h : n.unrollDepth ≤ depth) :
    writtenInAll g n ≤ unrollLimit ^ depth * weight n := by
  induction n using Node.induction generalizing depth with
  | step n ih =>
    have hpos : 0 < unrollLimit ^ depth := Nat.pow_pos (by decide)
    by_cases hplain : ∀ note b mode body, n = repeated note b mode body →
        repeatPlan b body ≠ .unroll
    · have hparts : (n.children.map (writtenInAll g)).sum ≤
          unrollLimit ^ depth * (n.children.map weight).sum := by
        rw [← List.sum_map_mul_left]
        exact List.sum_le_sum fun c hc => ih c hc (Nat.le_trans (unrollDepth_child hc) h)
      have hle := writtenInAll_le (g := g) hplain
      rw [weight_eq, Nat.mul_add]
      omega
    · -- the copies are within the limit if each node of the body is written once
      push Not at hplain
      obtain ⟨note, b, mode, body, rfl, hplan⟩ := hplain
      rw [unrollDepth, if_pos hplan] at h
      obtain ⟨inner, rfl⟩ : ∃ inner, depth = inner + 1 := ⟨depth - 1, by omega⟩
      have hbody : writtenInAll g body ≤ unrollLimit ^ inner * weight body :=
        ih body (List.mem_singleton.mpr rfl) (by omega)
      have hcopies : roundsWritten b .unroll * written g body ≤ unrollLimit ^ (inner + 1) := calc
        roundsWritten b .unroll * written g body
          ≤ roundsWritten b .unroll * (unrollLimit ^ inner * weight body) :=
            Nat.mul_le_mul_left _ (Nat.le_trans (written_le g body) hbody)
        _ = unrollLimit ^ inner * (roundsWritten b .unroll * weight body) := Nat.mul_left_comm ..
        _ ≤ unrollLimit ^ inner * unrollLimit :=
            Nat.mul_le_mul_left _ (repeatPlan_unroll hplan).2
        _ = unrollLimit ^ (inner + 1) := (Nat.pow_succ ..).symm
      have hle := writtenInAll_repeated (g := g) note b mode body
      have hgrow : 1 + unrollLimit ^ inner * weight body ≤ unrollLimit ^ (inner + 1) * weight body := by
        have hone : 1 ≤ unrollLimit ^ inner * weight body :=
          Nat.mul_pos (Nat.pow_pos (by decide)) (weight_pos body)
        rw [Nat.pow_succ, Nat.mul_right_comm]
        change _ ≤ unrollLimit ^ inner * weight body * 50
        omega
      rw [hplan] at hle
      rw [weight_eq, Nat.mul_add, Nat.mul_one]
      simp only [children, List.map_cons, List.map_nil, List.sum_cons, List.sum_nil, Nat.add_zero]
      omega

end Node

/-! ## All of a program -/

namespace Compile
open Node

variable {root : Node Measured} {g : CallGraph}

theorem sum_single_le {called : List Nat} (h : called.Nodup) (k x : Nat) :
    (called.map fun group => if group = k then x else 0).sum ≤ if k ∈ called then x else 0 := by
  induction called with
  | nil => exact Nat.zero_le _
  | cons group rest ih =>
    obtain ⟨hfirst, hrest⟩ := List.nodup_cons.mp h
    have hle := ih hrest
    rw [List.map_cons, List.sum_cons]
    by_cases hk : group = k
    · subst hk
      rw [if_neg hfirst] at hle
      rw [if_pos rfl, if_pos List.mem_cons_self]
      omega
    · simpa [hk, Ne.symm hk] using hle

/-- Every called group has one subroutine, that of its first definition. -/
theorem routines_le {called : List Nat} (h : called.Nodup)
    (hcalled : ∀ group ∈ called, g.isCalled group = true) (ns : List (Node Measured)) :
    (called.map fun group => ((ns.findSome? fun n => n.captured?.filter (·.1 == group)).map
      (·.2)).elim 0 (written g)).sum ≤ (ns.map (routineNodes g)).sum := by
  induction ns with
  | nil => simp
  | cons n ns ih =>
    have hfirst : (called.map fun group => (n.captured?.elim 0 fun e =>
        if group = e.1 then written g e.2 else 0)).sum ≤ routineNodes g n := by
      unfold routineNodes
      cases hn : n.captured? with
      | none => simp
      | some e =>
        refine Nat.le_trans (sum_single_le h e.1 (written g e.2)) ?_
        dsimp only [Option.elim_some]
        split
        · rw [if_pos (hcalled _ ‹_›)]
        · exact Nat.zero_le _
    rw [List.map_cons, List.sum_cons]
    refine Nat.le_trans ?_ (Nat.add_le_add hfirst ih)
    rw [← List.sum_map_add]
    refine List.sum_le_sum fun group _ => ?_
    rw [List.findSome?_cons]
    cases hn : n.captured? with
    | none => simp
    | some e =>
      by_cases he : e.1 = group
      · simp [he, Option.filter]
      · simp [he, Option.filter]

theorem calledGroups_nodup (g : CallGraph) : (calledGroups g).Nodup :=
  List.nodup_range.filter _

theorem routineRoom_sum (root : Node Measured) (g : CallGraph) :
    ((calledGroups g).map (routineRoom root g)).sum ≤
      (if g.isCalled 0 then 8 * root.written g - 2 else 0) +
        8 * (root.subtrees.toList.map (Node.routineNodes g)).sum := by
  have hwhole := sum_single_le (calledGroups_nodup g) 0 (8 * root.written g - 2)
  have hrest := routines_le (calledGroups_nodup g) (fun _ => isCalled_of_mem) root.subtrees.toList
  calc ((calledGroups g).map (routineRoom root g)).sum
      ≤ ((calledGroups g).map fun group => (if group = 0 then 8 * root.written g - 2 else 0) +
          8 * ((root.subtrees.toList.findSome? fun n => n.captured?.filter (·.1 == group)).map
            (·.2)).elim 0 (written g)).sum := ?_
    _ ≤ _ := ?_
  · refine List.sum_le_sum fun group _ => ?_
    unfold routineRoom calledBody?
    split
    · exact Nat.le_add_right _ _
    · rw [Array.findSome?_toList, Nat.zero_add]
  · rw [List.sum_map_add, List.sum_map_mul_left]
    refine Nat.add_le_add (Nat.le_trans hwhole ?_) (Nat.mul_le_mul_left 8 hrest)
    split
    · rw [if_pos (isCalled_of_mem ‹_›)]
    · exact Nat.zero_le _

/-- The program of a tree has at most eight instructions for each node that is written. -/
theorem programCode_le {l : Layout} (h : root.Ordered) :
    Makes l (·.1.size ≤ 8 * writtenInAll l.calls root)
      (programCode root l.calls (calledGroups l.calls)) := by
  refine (programCode_size h _).mono fun out hout => ?_
  have hsum := routineRoom_sum root l.calls
  have hroot : 0 < root.written l.calls := written_pos l.calls root
  rw [writtenInAll]
  cases hcalled : l.calls.isCalled 0 <;> rw [hcalled] at hout hsum <;>
    simp only [↓reduceIte, Bool.false_eq_true] at hout hsum <;> omega

end Compile

/-! ## Patterns -/

theorem Compilation.ofTree_written {s : Pattern.Setting} {o : Options}
    {properties : PropertyRegistry} {t : PatternTree Span} {p : Program}
    (ht : (Pattern.parse s o properties).1 = .ok t) (h : (Compilation.ofTree s o t).1 = .ok p) :
    ∃ a, Analyzed.ofTree s.dialect s.encoding t = .ok a ∧
      p.size ≤ 8 * a.tree.root.writtenInAll a.calls := by
  obtain ⟨a, code, tables, ha, hgen, -, rfl⟩ := ofTree_ok h
  obtain ⟨subs, i, hcode, -⟩ := generate_ok hgen
  have hordered := Analyzed.ofTree_ordered ha (Pattern.parse_ordered ht)
  exact ⟨a, ha, programCode_le (l := patternLayout a s o) hordered _ _ i hcode⟩

/-- A program has at most eight instructions for each node of the analyzed tree, times the limit for
each of the unrolled repeats that stand inside one another. Where none stands inside another, the limit
comes in once. -/
theorem Compilation.ofPattern_size {s : Pattern.Setting} {options : Options}
    {properties : PropertyRegistry} {p : Program}
    (h : (Compilation.ofPattern s options properties).result = .ok p) :
    ∃ o t a, s.dialect.effectiveOptions options = .ok o ∧
      (Pattern.parse s o properties).1 = .ok t ∧ Analyzed.ofTree s.dialect s.encoding t = .ok a ∧
      p.size ≤ 8 * unrollLimit ^ a.tree.root.unrollDepth * weight a.tree.root ∧
      (a.tree.root.unrollDepth ≤ 1 → p.size ≤ 8 * unrollLimit * weight a.tree.root) := by
  obtain ⟨o, t, ho, ht, htree⟩ := ofPattern_ok h
  obtain ⟨a, ha, hsize⟩ := ofTree_written ht htree
  have hbound {depth : Nat} (hdepth : a.tree.root.unrollDepth ≤ depth) :
      p.size ≤ 8 * unrollLimit ^ depth * weight a.tree.root := by
    rw [Nat.mul_assoc]
    exact Nat.le_trans hsize (Nat.mul_le_mul_left 8 (Node.writtenInAll_bound hdepth))
  refine ⟨o, t, a, ho, ht, ha, hbound (Nat.le_refl _), fun hdepth => ?_⟩
  simpa using hbound hdepth

end RegexMachine
