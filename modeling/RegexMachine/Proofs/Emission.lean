import RegexMachine.Proofs.Writers

/-!
The code of a tree has the layout of the tree.
-/
namespace RegexMachine
open Compile

namespace Node

mutual

/-- Whether loops of a tree may have guards: it has no regions, conditionals or counted loops. -/
def guardable : Node Measured → Bool
  | atom _ _ => true
  | repeated _ b mode body =>
    mode != .possessive && repeatPlan b body != .counted && guardable body
  | group _ (.capture _ _) body => guardable body
  | group _ .plain body => guardable body
  | group _ .atomic _ => false
  | group _ .absent _ => false
  | conditional _ _ _ _ _ => false
  | look _ _ _ => false
  | sequence _ items => guardableAll items
  | alternation _ branches => guardableAll branches

def guardableAll : List (Node Measured) → Bool
  | [] => true
  | n :: ns => guardable n && guardableAll ns

end

end Node

namespace Built

variable {B : Built}

/-- What one instruction at most takes between two addresses. -/
def InstrAt (B : Built) (instr? : Option Instr) (x y : Addr) : Prop :=
  match instr? with
  | none => x = y
  | some i => B.code[x]? = some i ∧ y = x + 1

theorem atomCode_writes (a : Atom) {e : Encoding} (he : e = B.layout.encoding) :
    B.Writes (fun _ => atomCode e a) (fun _ _ _ x y => B.AtomAt a x y) := by
  subst he
  intro p i i' chunk h
  -- Other atoms than calls are at most one instruction, which linking leaves as it is.
  have single (hgrow : i.Grows i') (hchunk : chunk = (atomInstr? B.layout.encoding a).toArray)
      (hlink : ∀ i, atomInstr? B.layout.encoding a = some i → link B.subs i = i) :
      B.Spells (fun _ _ _ => B.InstrAt (atomInstr? B.layout.encoding a)) p i i' chunk := by
    subst hchunk
    refine ⟨hgrow, fun hp _ _ => ⟨fun _ _ => True, fun _ _ _ _ => ?_⟩⟩
    cases hi : atomInstr? B.layout.encoding a with
    | none => exact rfl
    | some instr =>
      rw [hi] at hp
      exact ⟨hp.instr rfl (hlink _ hi), rfl⟩
  unfold AtomAt
  cases a with
  | call t group =>
    obtain ⟨rfl, hcall⟩ := callCode_at (x := p.base) h
    exact ⟨.refl _, fun hp _ _ => ⟨fun _ _ => True, fun _ _ _ _ => hcall hp⟩⟩
  | literal bytes fold =>
    cases h
    refine single (.refl _) ?_ fun instr hi => ?_
    · simp only [atomInstr?, literalCode]
      repeat' split
      all_goals rfl
    · simp only [atomInstr?, literalCode] at hi
      repeat' split at hi
      all_goals cases hi <;> rfl
  | keep =>
    cases h
    exact single (.feature _ (by decide)) rfl
      fun _ h => by cases h; rfl
  | empty =>
    cases h
    exact single (.refl _) rfl fun _ h => by cases h
  | charClass ranges negated =>
    cases h
    exact single (.refl _) rfl fun _ h => by cases h; rfl
  | charType t negated ascii =>
    cases h
    exact single (.refl _) rfl fun _ h => by cases h; rfl
  | anyChar multiline =>
    cases h
    exact single (.refl _) rfl fun _ h => by cases h; rfl
  | anchor a =>
    cases h
    exact single (.refl _) rfl fun _ h => by cases h; rfl
  | backref t groups fold =>
    cases h
    exact single (.refl _) rfl fun _ h => by cases h; rfl

theorem anyCharsCode?_link {mode : RepeatMode} {plan : RepeatPlan} {peek : Option UInt8}
    {n : Node Measured} {i : Instr} (h : anyCharsCode? mode plan peek n = some i)
    (subs : Array Subroutine) : link subs i = i := by
  unfold anyCharsCode? at h
  split at h
  · split at h
    · cases h
    · split at h <;> cases h <;> rfl
  · cases h

theorem repeatWriter_writes (b : Bounds) (mode : RepeatMode) (plan : RepeatPlan)
    (peek : Option UInt8) (n : Node Measured) (depth : Nat) (f : Way) {w : Writer} {part : Part}
    (hw : B.Writes w part)
    (hbare : B.layout.guardDepth = 0 ∨ (mode ≠ .possessive ∧ plan ≠ .counted)) :
    let loop := B.LoopAt (anyCharsCode? mode plan peek n)
      (B.RepeatAt b (mode != .lazy) plan n.info f part)
    B.Writes (repeatWriter b mode plan (anyCharsCode? mode plan peek n) depth n.info w)
      (if mode == .possessive then B.AtomicAt loop else loop) := by
  intro loop
  have hcode := repeatCode_writes b (mode != .lazy) depth plan n.info f hw fun hc =>
    hbare.elim id fun h => absurd hc h.2
  have hloop : B.Writes (loopWriter b mode plan (anyCharsCode? mode plan peek n) depth n.info w) loop := by
    intro p i i' chunk hrun
    obtain ⟨guarded, j, hg, h⟩ := bind_ok hrun
    have hj : j = i := by
      cases hg
      rfl
    subst hj
    generalize hi : anyCharsCode? mode plan peek n = instr? at h
    cases instr? with
    | none =>
      obtain ⟨hgrow, hspell⟩ := hcode _ _ _ _ h
      refine ⟨hgrow, fun hp hl later => ?_⟩
      obtain ⟨found, hfound⟩ := hspell hp hl later
      exact ⟨found, fun φ hk z hz => Or.inr ⟨fun _ => hi, hfound φ hk z hz⟩⟩
    | some instr =>
      cases guarded with
      | true =>
        have hgreedy : (mode != .lazy) = true := by
          unfold anyCharsCode? at hi
          split at hi
          · split at hi
            · cases hi
            · rename_i hm
              simp only [Bool.or_eq_true, beq_iff_eq, not_or] at hm
              simpa using hm.1
          · cases hi
        simp only [↓reduceIte] at h
        rw [← hgreedy] at h
        obtain ⟨hgrow, hspell⟩ := hcode _ _ _ _ h
        have hdeep : 0 < B.layout.guardDepth := by
          injection hg with hd
          simp only [Bool.and_eq_true, decide_eq_true_eq] at hd
          exact hd.1
        refine ⟨hgrow, fun hp hl later => ?_⟩
        obtain ⟨found, hfound⟩ := hspell hp hl later
        refine ⟨found, fun φ hk z hz => Or.inr ⟨fun hφ => ?_, hfound φ hk z hz⟩⟩
        obtain ⟨-, hz⟩ | ⟨ψ, hψ, -⟩ := hk
        · exact absurd hz (Nat.ne_of_gt hdeep)
        · exact absurd (hψ.symm.trans hφ) (Option.some_ne_none ψ)
      | false =>
        cases h
        exact ⟨.refl _, fun hp _ _ => ⟨fun _ _ => True, fun _ _ _ _ =>
          Or.inl ⟨instr, hi, hp.instr rfl (anyCharsCode?_link hi _), rfl⟩⟩⟩
  unfold repeatWriter
  dsimp only
  split
  · refine atomicCode_writes hloop (hbare.elim id fun h => absurd ?_ h.1)
    simpa using ‹(mode == RepeatMode.possessive) = true›
  · exact hloop

/-! ## Branches -/

/-- Branches up to the address where they end: each but the last leaves an alternative. -/
def branchList (x stop : Addr) : List Chunk → Chunk
  | [] => #[]
  | [b] => b
  | b :: bs =>
    #[.fork (x + b.size + 2)] ++ b ++ #[.jump stop] ++ branchList (x + b.size + 2) stop bs

theorem joinBranches_eq (x stop : Addr) (bs : List Chunk) :
    joinBranches x stop bs.toArray = branchList x stop bs := by
  have key : ∀ (acc : Chunk) (bs : List Chunk),
      (bs.foldl
        (fun (acc : Chunk × Nat) b =>
          if acc.2 ≤ 1 then (acc.1 ++ b, 0)
          else (acc.1 ++ #[.fork (x + acc.1.size + b.size + 2)] ++ b ++ #[.jump stop],
            acc.2 - 1))
        (acc, bs.length)).1 = acc ++ branchList (x + acc.size) stop bs := by
    intro acc bs
    induction bs generalizing acc with
    | nil => simp [branchList]
    | cons b bs ih =>
      cases bs with
      | nil => simp [branchList]
      | cons b' bs =>
        rw [List.foldl_cons]
        have hlen : ¬ (b :: b' :: bs).length ≤ 1 := by simp
        simp only [hlen, ↓reduceIte]
        rw [show (b :: b' :: bs).length - 1 = (b' :: bs).length by simp, ih]
        simp only [branchList, Array.append_assoc, Array.size_append]
        congr 4
        grind
  simpa [joinBranches] using key #[] bs

theorem branchList_size (x stop : Addr) (bs : List Chunk) :
    (branchList x stop bs).size =
      bs.toArray.foldl (fun n c => n + c.size) 0 + 2 * (bs.toArray.size - 1) := by
  have hsum : ∀ (n : Nat) (bs : List Chunk),
      bs.foldl (fun n c => n + c.size) n = n + (bs.map Array.size).sum := by
    intro n bs
    induction bs generalizing n with
    | nil => simp
    | cons b bs ih => simp [ih]; omega
  have key : (branchList x stop bs).size = (bs.map Array.size).sum + 2 * (bs.length - 1) := by
    induction bs generalizing x with
    | nil => rfl
    | cons b bs ih =>
      cases bs with
      | nil => simp [branchList]
      | cons b' bs =>
        have := ih (x + b.size + 2)
        simp only [branchList, Array.size_append, this]
        simp
        omega
  rw [key, List.foldl_toArray, hsum]
  simp

/-- What branches have been written, and where they have the shape of a choice. -/
def SpellsBranches (B : Built) (ns : List (Node Measured)) (p : Place) (i i' : Issued)
    (bs : List Chunk) : Prop :=
  i.Grows i' ∧ bs.length = ns.length ∧
    ∀ stop : Nat, stop = p.base + (branchList p.base stop bs).size →
      B.Placed p.base (branchList p.base stop bs) → B.HasLoops i i' →
      ∀ later, ∃ found, ∀ φ, B.Keeps φ found i i' → ∀ z, FitsZone z p i →
        B.BranchesAt ns φ later z p.base stop

/-! ## Trees -/

/-- Loops have no guards, or may have them. -/
def Sparing (B : Built) (ok : Bool) : Prop := B.layout.guardDepth = 0 ∨ ok = true

mutual

theorem nodeCode_writes (B : Built) :
    ∀ (n : Node Measured) (peek : Option UInt8), Sparing B n.guardable →
      B.Writes (fun p => nodeCode peek p n) (B.NodeAt peek n)
  | .atom _ a, peek, _ => by
    intro p i i' chunk h
    dsimp only at h
    rw [nodeCode, bind_read] at h
    exact atomCode_writes a rfl p i i' chunk h
  | .repeated note b mode body, peek, hs => by
    have hparts : B.layout.guardDepth = 0 ∨ ((mode ≠ .possessive ∧ repeatPlan b body ≠ .counted) ∧
        body.guardable = true) := by
      rcases hs with h | h
      · exact Or.inl h
      · simp only [Node.guardable, Bool.and_eq_true, bne_iff_ne, ne_eq] at h
        exact Or.inr h
    have hbody := nodeCode_writes B body none (hparts.imp id And.right)
    have := repeatWriter_writes b mode (repeatPlan b body) peek body note.info.depth
      (B.scene.ways body) hbody (hparts.imp id And.left)
    intro p i i' chunk h
    dsimp only at h
    rw [nodeCode] at h
    rw [NodeAt]
    exact this p i i' chunk h
  | .group _ (.capture g _) body, peek, hs => by
    have hbody := nodeCode_writes B body none hs
    intro p i i' chunk h
    dsimp only at h
    rw [nodeCode] at h
    rw [NodeAt]
    exact captureCode_writes g hbody p i i' chunk h
  | .group _ .plain body, peek, hs => by
    have hbody := nodeCode_writes B body none hs
    intro p i i' chunk h
    dsimp only at h
    rw [nodeCode] at h
    rw [NodeAt]
    exact hbody p i i' chunk h
  | .group _ .atomic body, peek, hs => by
    have hbare : B.layout.guardDepth = 0 := hs.elim id fun h => nomatch h
    have hbody := nodeCode_writes B body none (Or.inl hbare)
    intro p i i' chunk h
    dsimp only at h
    rw [nodeCode] at h
    rw [NodeAt]
    exact atomicCode_writes hbody hbare p i i' chunk h
  | .group _ .absent body, peek, hs => by
    have hbare : B.layout.guardDepth = 0 := hs.elim id fun h => nomatch h
    have hbody := nodeCode_writes B body none (Or.inl hbare)
    intro p i i' chunk h
    dsimp only at h
    rw [nodeCode] at h
    rw [NodeAt]
    exact absentCode_writes hbody hbare p i i' chunk h
  | .conditional _ _ gs yes no, peek, hs => by
    have hbare : B.layout.guardDepth = 0 := hs.elim id fun h => nomatch h
    have hyes := nodeCode_writes B yes none (Or.inl hbare)
    have hno := optionCode_writes B no hbare
    intro p i i' chunk h
    dsimp only at h
    rw [nodeCode] at h
    rw [NodeAt]
    exact conditionalCode_writes gs hyes hno hbare p i i' chunk h
  | .look _ k body, peek, hs => by
    have hbare : B.layout.guardDepth = 0 := hs.elim id fun h => nomatch h
    have hbody := nodeCode_writes B body none (Or.inl hbare)
    intro p i i' chunk h
    dsimp only at h
    rw [nodeCode] at h
    rw [NodeAt]
    exact lookCode_writes k body.info hbody hbare p i i' chunk h
  | .sequence _ items, peek, hs => by
    intro p i i' chunk h
    dsimp only at h
    rw [nodeCode] at h
    rw [NodeAt]
    obtain ⟨code, hchunk, hspell⟩ := sequenceCode_spells B items hs p #[] i i' chunk h
    rw [hchunk, Array.empty_append]
    exact hspell
  | .alternation _ branches, peek, hs => by
    intro p i i' chunk hrun
    dsimp only at hrun
    rw [nodeCode] at hrun
    obtain ⟨chunks, j, hchunks, h⟩ := bind_ok hrun
    obtain ⟨bs, hbs, hgrow, -, hspell⟩ := branchChunks_spells B branches hs p #[] i j chunks hchunks
    cases h
    rw [NodeAt]
    rw [Array.empty_append] at hbs
    subst hbs
    refine ⟨hgrow, fun hp hl later => ?_⟩
    rw [joinBranches_eq] at hp ⊢
    rw [branchList_size]
    exact hspell _ (by rw [branchList_size]) hp hl later

theorem optionCode_writes (B : Built) :
    ∀ no : Option (Node Measured), B.layout.guardDepth = 0 →
      B.Writes (fun p => optionCode p no) (B.OptionAt no)
  | none, _ => by
    intro p i i' chunk h
    dsimp only at h
    rw [optionCode] at h
    cases h
    rw [OptionAt]
    exact ⟨.refl _, fun _ _ _ => ⟨fun _ _ => True, fun _ _ _ _ => rfl⟩⟩
  | some n, hbare => by
    have hn := nodeCode_writes B n none (Or.inl hbare)
    intro p i i' chunk h
    dsimp only at h
    rw [optionCode] at h
    rw [OptionAt]
    exact hn p i i' chunk h

theorem sequenceCode_spells (B : Built) :
    ∀ (ns : List (Node Measured)), Sparing B (Node.guardableAll ns) →
      ∀ (p : Place) (done : Chunk) (i i' : Issued) (chunk : Chunk),
        sequenceCode p done ns B.layout i = .ok chunk i' →
          ∃ code, chunk = done ++ code ∧
            B.Spells (B.SequenceAt ns) (p.shift done.size) i i' code
  | [], _ => by
    intro p done i i' chunk h
    rw [sequenceCode] at h
    cases h
    rw [SequenceAt]
    exact ⟨#[], by simp, .refl _, fun _ _ _ => ⟨fun _ _ => True, fun _ _ _ _ => rfl⟩⟩
  | n :: ns, hs => by
    have hparts : B.layout.guardDepth = 0 ∨ (n.guardable = true ∧ Node.guardableAll ns = true) := by
      rcases hs with h | h
      · exact Or.inl h
      · simp only [Node.guardableAll, Bool.and_eq_true] at h
        exact Or.inr h
    have hn := nodeCode_writes B n (peekByte? ns) (hparts.imp id And.left)
    have hns := sequenceCode_spells B ns (hparts.imp id And.right)
    intro p done i i' chunk hrun
    rw [sequenceCode] at hrun
    obtain ⟨code, j, hcode, h⟩ := bind_ok hrun
    obtain ⟨rest, hchunk, hrest⟩ := hns p (done ++ code) j i' chunk h
    refine ⟨code ++ rest, by rw [hchunk, Array.append_assoc], ?_⟩
    rw [SequenceAt]
    have hplace : p.shift (done ++ code).size = (p.shift done.size).shift code.size := by
      simp [Place.shift, Nat.add_assoc]
    rw [hplace] at hrest
    exact (hn _ _ _ _ hcode).andThen hrest (leads (B.scene.waysAll ns))

theorem branchChunks_spells (B : Built) :
    ∀ (ns : List (Node Measured)), Sparing B (Node.guardableAll ns) →
      ∀ (p : Place) (done : Array Chunk) (i i' : Issued) (chunks : Array Chunk),
        branchChunks p done ns B.layout i = .ok chunks i' →
          ∃ bs : List Chunk, chunks = done ++ bs.toArray ∧ SpellsBranches B ns p i i' bs
  | [], _ => by
    intro p done i i' chunks h
    rw [branchChunks] at h
    cases h
    refine ⟨[], by simp, .refl _, rfl, fun stop he _ _ _ => ⟨fun _ _ => True, fun _ _ _ _ => ?_⟩⟩
    rw [BranchesAt]
    exact he.symm
  | n :: ns, hs => by
    have hparts : B.layout.guardDepth = 0 ∨ (n.guardable = true ∧ Node.guardableAll ns = true) := by
      rcases hs with h | h
      · exact Or.inl h
      · simp only [Node.guardableAll, Bool.and_eq_true] at h
        exact Or.inr h
    have hn := nodeCode_writes B n none (hparts.imp id And.left)
    have hns := branchChunks_spells B ns (hparts.imp id And.right)
    intro p done i i' chunks hrun
    rw [branchChunks] at hrun
    obtain ⟨code, j, hcode, h⟩ := bind_ok hrun
    obtain ⟨bs, hchunks, hgrow', hlen, hrest⟩ := hns _ _ _ _ _ h
    obtain ⟨hgrow, hspell⟩ := hn _ _ _ _ hcode
    refine ⟨code :: bs, by simp [hchunks], hgrow.trans hgrow', by simp [hlen], ?_⟩
    intro stop he hp hl later
    cases ns with
    | nil =>
      obtain rfl : bs = [] := List.length_eq_zero_iff.mp hlen
      obtain ⟨a, ha⟩ := hspell hp (hl.left hgrow') later
      refine ⟨joined j.guards a a, fun φ hk z hz => ?_⟩
      have := ha φ (hk.left hgrow') z (hz.shift _)
      rw [he]
      simpa [BranchesAt, branchList] using this
    | cons m ms =>
      obtain ⟨b', bs, rfl⟩ : ∃ b' bs', bs = b' :: bs' := by
        cases bs with
        | nil => simp at hlen
        | cons b' bs => exact ⟨b', bs, rfl⟩
      obtain ⟨hp, hp'⟩ := Placed.append hp
      obtain ⟨hp, hjump⟩ := hp.append
      obtain ⟨hfork, hp⟩ := hp.append
      obtain ⟨a, ha⟩ := hspell hp (hl.left hgrow') later
      have hbase : p.base + code.size + 2 = (p.shift (1 + code.size + 1)).base := by
        simp only [shift_base]
        change @Eq Nat _ _
        omega
      rw [hbase] at hp'
      obtain ⟨b, hb⟩ := hrest stop (by grind [branchList]) (hp'.moved (by grind [shift_base]))
        (hl.right hgrow) later
      refine ⟨joined j.guards a b, fun φ hk z hz => ?_⟩
      rw [BranchesAt]
      refine ⟨p.base + 1 + code.size, hfork.instr rfl (by grind [link]),
        ha φ (hk.left hgrow') z (hz.shift _), hjump.instr (by grind) rfl, ?_⟩
      have := hb φ (hk.right hgrow) z ((hz.grow hgrow).move rfl)
      grind [shift_base]

end

end Built
end RegexMachine
