import RegexMachine.Proofs.Apart
import RegexMachine.Proofs.Numbered

/-!
Groups of a pattern stand apart. Reading gives a group a number beyond those of all groups before it,
only the branches of a branch reset begin from the same number, and numbering the groups anew gives no
number twice.
-/
namespace RegexMachine

namespace Node

variable {lo mid hi lo' hi' : Nat} {n : Node Span}

/-- A tree whose groups stand apart and have got numbers beyond the first one given, up to the second. -/
structure Fresh (lo hi : Nat) (n : Node Span) : Prop where
  separate : n.Separate
  numbers : ∀ k ∈ n.groupNumbers, lo < k ∧ k ≤ hi

theorem Fresh.mono (h : n.Fresh lo hi) (hlo : lo' ≤ lo) (hhi : hi ≤ hi') : n.Fresh lo' hi' :=
  ⟨h.separate, fun k hk => ⟨Nat.lt_of_le_of_lt hlo (h.numbers k hk).1,
    Nat.le_trans (h.numbers k hk).2 hhi⟩⟩

/-- A node that is no group has the groups of its parts. -/
theorem fresh_of_children (hself : n.isApart (fun _ => false) = true) (hnumber : n.number? = none)
    (h : ∀ c ∈ n.children, c.Fresh lo hi) : n.Fresh lo hi := by
  refine ⟨everywhere_of_children hself fun c hc => (h c hc).separate, fun k hk => ?_⟩
  rw [groupNumbers_eq, hnumber] at hk
  obtain ⟨c, hc, hk⟩ := List.mem_flatMap.mp hk
  exact (h c hc).numbers k hk

theorem fresh_atom (span : Span) (a : Atom) : (atom span a).Fresh lo hi :=
  fresh_of_children rfl rfl nofun

theorem fresh_ofAtoms : Pattern.OfAtoms (Fresh lo hi) where
  atom := fresh_atom
  newline e span := by
    refine fresh_of_children rfl rfl fun c hc => ?_
    obtain rfl := List.mem_singleton.mp hc
    refine fresh_of_children rfl rfl fun c hc => ?_
    simp only [children, List.mem_cons, List.not_mem_nil, or_false] at hc
    rcases hc with rfl | rfl <;> exact fresh_atom _ _
  choice span as _ := by
    refine fresh_of_children rfl rfl fun c hc => ?_
    obtain ⟨a, -, rfl⟩ := List.mem_map.mp hc
    exact fresh_atom _ _

/-- Two trees have no groups in common. -/
def Foreign (m n : Node Span) : Prop := ∀ k ∈ m.groupNumbers, k ∉ n.groupNumbers

theorem Foreign.symm {m n : Node Span} (h : Foreign m n) : Foreign n m :=
  fun k hk hk' => h k hk' hk

/-- Trees in a row have no groups in common. -/
structure Row (lo hi : Nat) (ns : List (Node Span)) : Prop where
  fresh : ∀ n ∈ ns, n.Fresh lo hi
  foreign : ns.Pairwise Foreign

theorem row_nil : Row lo hi [] := ⟨nofun, .nil⟩

theorem Row.cons {ns : List (Node Span)} (h : Row lo mid ns) (hn : n.Fresh mid hi) (hlo : lo ≤ mid)
    (hhi : mid ≤ hi) : Row lo hi (n :: ns) := by
  refine ⟨List.forall_mem_cons.mpr ⟨hn.mono hlo (Nat.le_refl _),
    fun m hm => (h.fresh m hm).mono (Nat.le_refl _) hhi⟩, List.pairwise_cons.mpr ⟨fun m hm k hk hkm => ?_, h.foreign⟩⟩
  have hlt := (hn.numbers k hk).1
  have hle := ((h.fresh m hm).numbers k hkm).2
  omega

/-- A sequence of trees in a row. -/
theorem Row.sequence {ns : List (Node Span)} (h : Row lo hi ns) (span : Span) :
    (Node.sequence span ns.reverse).Fresh lo hi := by
  refine fresh_of_children ?_ rfl fun c hc => h.fresh c (List.mem_reverse.mp hc)
  rw [isApart_sequence, List.pairwise_reverse]
  exact h.foreign.imp fun hab => Or.inr (Or.inr hab.symm)

end Node

namespace Pattern
open Node

variable {lo mid hi : Nat} {n : Node Span}

/-! ## Trees that are put together -/

theorem splitLastChar_fresh (e : Encoding) (h : n.Fresh lo hi) :
    (∀ m ∈ (splitLastChar e n).1, m.groupNumbers = [] ∧ m.Fresh lo hi) ∧
      (splitLastChar e n).2.Fresh lo hi := by
  unfold splitLastChar
  split
  · dsimp only
    split
    · exact ⟨nofun, h⟩
    · refine ⟨fun m hm => ?_, fresh_atom _ _⟩
      obtain rfl := Option.mem_some.mp hm
      exact ⟨groupNumbers_atom _ _, fresh_atom _ _⟩
  · exact ⟨nofun, h⟩

theorem repeatedNode_fresh (e : Encoding) (h : n.Fresh lo hi) (start stop : Nat) (b : Bounds)
    (mode : RepeatMode) : (repeatedNode e n start stop b mode).Fresh lo hi := by
  obtain ⟨hhead, hbody⟩ := splitLastChar_fresh e h
  unfold repeatedNode
  cases hs : splitLastChar e n with
  | mk head body =>
    rw [hs] at hhead hbody
    have hr : (Node.repeated ⟨body.note.start, stop⟩ b mode body).Fresh lo hi :=
      fresh_of_children rfl rfl fun c hc => List.mem_singleton.mp hc ▸ hbody
    cases head with
    | none => exact hr
    | some m =>
      obtain ⟨hnone, hm⟩ := hhead m rfl
      have hrow : Row lo hi [Node.repeated ⟨body.note.start, stop⟩ b mode body, m] := by
        refine ⟨by simpa using ⟨hr, hm⟩, List.pairwise_pair.mpr fun k _ hk => ?_⟩
        rw [hnone] at hk
        cases hk
      exact hrow.sequence ⟨start, stop⟩

theorem readRepeats_fresh (h : n.Fresh lo hi) (start : Nat) (again : Bool) (fuel : Nat) :
    Ensures (Fresh lo hi) (readRepeats n start again fuel) := by
  induction fuel generalizing n again with
  | zero => exact .stall
  | succ fuel ih =>
    unfold readRepeats
    refine .after fun _ => .after fun _ => .after fun r => ?_
    split
    · exact .pure h
    · exact .after fun _ => .after fun _ => .after fun _ => .after fun _ =>
        ih (repeatedNode_fresh _ h _ _ _ _) true

/-- The number of a group is below those of the groups in its body. -/
theorem closeFrame_fresh {frame : Frame} {body : Node Span} (hframe : ∀ k ∈ frame.numbers, lo < k ∧ k ≤ mid)
    (hbody : body.Fresh mid hi) (hlo : lo ≤ mid) (hhi : mid ≤ hi) (start : Nat) :
    Ensures (Fresh lo hi) (closeFrame frame body start) := by
  have hb : body.Fresh lo hi := hbody.mono hlo (Nat.le_refl _)
  have hsingle : ∀ {m : Node Span}, m.children = [body] → ∀ c ∈ m.children, c.Fresh lo hi :=
    fun hm c hc => List.mem_singleton.mp (hm ▸ hc) ▸ hb
  unfold closeFrame
  refine .after fun stop => ?_
  split
  · rename_i kind
    refine .pure ?_
    cases kind with
    | capture raw name =>
      have hraw := hframe raw (List.mem_singleton.mpr rfl)
      refine ⟨everywhere_of_children ?_ fun c hc => (hsingle rfl c hc).separate, fun k hk => ?_⟩
      · rw [isApart_capture]
        intro hin
        have := (hbody.numbers raw hin).1
        omega
      · rw [groupNumbers_eq, List.mem_append] at hk
        rcases hk with hk | hk
        · obtain rfl : k = raw := by simpa [Node.number?, captured?] using hk
          exact ⟨hraw.1, Nat.le_trans hraw.2 hhi⟩
        · obtain ⟨c, hc, hk⟩ := List.mem_flatMap.mp hk
          exact (hsingle rfl c hc).numbers k hk
    | _ => exact fresh_of_children rfl rfl (hsingle rfl)
  · exact .pure (fresh_of_children rfl rfl (hsingle rfl))
  · have hbranches : Ensures (fun r => ∀ c ∈ r.1 :: r.2.toList, c.Fresh lo hi)
        (conditionBranches start body) := by
      unfold conditionBranches
      split
      · refine .pure fun c hc => ⟨hb.separate.child hc, fun k hk => ?_⟩
        exact hb.numbers k (Node.groupNumbers_child hc k hk)
      · exact .rejectSince _ _
      · exact .pure fun c hc => List.mem_singleton.mp hc ▸ hb
    exact hbranches.bind fun r hr => .pure (fresh_of_children rfl rfl hr)

/-- Items that are put in front of others have their groups. -/
theorem pushItem_row {done : List (Node Span)} (h : Row lo hi (n :: done)) :
    Row lo hi (pushItem done n) ∧ ∀ k ∈ numbersOf (pushItem done n), k ∈ numbersOf (n :: done) := by
  unfold pushItem
  split
  · split
    · rename_i rest _
      have hrest : Row lo hi rest := ⟨fun m hm => h.fresh m (by simp [hm]), h.foreign.of_cons.of_cons⟩
      refine ⟨⟨List.forall_mem_cons.mpr ⟨fresh_atom _ _, hrest.fresh⟩,
        List.pairwise_cons.mpr ⟨fun m _ k hk => ?_, hrest.foreign⟩⟩, fun k hk => ?_⟩
      · rw [groupNumbers_atom] at hk
        cases hk
      · simpa [numbersOf, groupNumbers_atom] using hk
    · exact ⟨h, fun _ hk => hk⟩
  · exact ⟨⟨fun m hm => h.fresh m (List.mem_cons_of_mem _ hm), h.foreign.of_cons⟩,
      fun k hk => mem_numbersOf_cons.mpr (Or.inr hk)⟩
  · exact ⟨h, fun _ hk => hk⟩

theorem sequenceNode_fresh (start stop : Nat) {items : List (Node Span)} (h : Row lo hi items) :
    (sequenceNode start stop items).Fresh lo hi := by
  have hdone : Row lo hi (items.foldr (fun n done => pushItem done n) []) ∧
      ∀ k ∈ numbersOf (items.foldr (fun n done => pushItem done n) []), k ∈ numbersOf items := by
    induction items with
    | nil => exact ⟨row_nil, fun _ hk => hk⟩
    | cons n items ih =>
      obtain ⟨hforeign, hitems⟩ := List.pairwise_cons.mp h.foreign
      obtain ⟨hrow, hsub⟩ := ih ⟨fun m hm => h.fresh m (List.mem_cons_of_mem _ hm), hitems⟩
      have hcons : Row lo hi (n :: items.foldr (fun n done => pushItem done n) []) := by
        refine ⟨List.forall_mem_cons.mpr ⟨h.fresh n (by simp), hrow.fresh⟩,
          List.pairwise_cons.mpr ⟨fun m hm k hk hkm => ?_, hrow.foreign⟩⟩
        obtain ⟨i, hi, hki⟩ := mem_numbersOf.mp (hsub k (mem_numbersOf.mpr ⟨m, hm, hkm⟩))
        exact hforeign i hi k hk hki
      obtain ⟨hpush, hnumbers⟩ := pushItem_row hcons
      exact ⟨hpush, fun k hk => mem_numbersOf_cons.mpr
        ((mem_numbersOf_cons.mp (hnumbers k hk)).imp id (hsub k))⟩
  unfold sequenceNode
  split
  · exact fresh_atom _ _
  · rename_i heq
    exact hdone.1.fresh _ (heq ▸ List.mem_singleton.mpr rfl)
  · exact hdone.1.sequence ⟨start, stop⟩

/-! ## Whole patterns -/

/-- The number up to which the branches read so far have groups: in a branch reset the largest one
given, elsewhere the last one. -/
def reached (reset : Bool) (highest last : Nat) : Nat := if reset then highest else last

/-- What a piece has groups for. -/
def Piece.Fresh (last : Nat) (p : Piece) (next : Nat) : Prop :=
  last ≤ next ∧ ∀ n, p = .node n → n.Fresh last next

/-- Branches, sequences and pieces have groups of their own, each being read with less fuel than what
it is part of. -/
theorem read_fresh (fuel : Nat) :
    (∀ lo last start base highest reset done, lo ≤ base → lo ≤ reached reset highest last →
      (∀ m ∈ done, m.Fresh lo (reached reset highest last)) →
      Counts last (readBranches start base highest reset done fuel) fun n next =>
        lo ≤ next ∧ n.Fresh lo next) ∧
    (∀ lo last start done, lo ≤ last → Row lo last done →
      Counts last (readSequence start done fuel) fun n next => last ≤ next ∧ n.Fresh lo next) ∧
    ∀ last sign, Counts last (readPiece sign fuel) (Piece.Fresh last) := by
  induction fuel with
  | zero => exact ⟨fun _ _ _ _ _ _ _ _ _ _ => .stall, fun _ _ _ _ _ _ => .stall, fun _ _ => .stall⟩
  | succ fuel ih =>
    obtain ⟨hbranches, hsequence, hpiece⟩ := ih
    refine ⟨fun lo last start base highest reset done hbase hreached hdone => ?_,
      fun lo last start done hlo hrow => ?_, fun last sign => ?_⟩
    · rw [readBranches_succ]
      -- a branch from where it begins to count
      have hrest : ∀ first, lo ≤ first → (reset = false → ∀ m ∈ done, m.Fresh lo first) →
          Counts first (readOnward start base highest reset done fuel)
            fun n next => lo ≤ next ∧ n.Fresh lo next := by
        intro first hfirst hplain
        refine .after here_steady fun pos => (hsequence lo first pos [] hfirst row_nil).bind
          fun branch next hbranch => .get fun c hc => .after peekSign_steady fun sign => ?_
        subst hc
        obtain ⟨hle, hbranch⟩ := hbranch
        have hlo' : lo ≤ reached reset (max highest c.groupCount) c.groupCount := by
          unfold reached
          split <;> omega
        have hall : ∀ m ∈ branch :: done,
            m.Fresh lo (reached reset (max highest c.groupCount) c.groupCount) := by
          refine List.forall_mem_cons.mpr ⟨hbranch.mono (Nat.le_refl _) ?_, fun m hm => ?_⟩
          · unfold reached
            split <;> omega
          · cases reset with
            | true => exact (hdone m hm).mono (Nat.le_refl _) (Nat.le_max_left _ _)
            | false => exact (hplain rfl m hm).mono (Nat.le_refl _) hle
        have hlast : Counts (reached reset (max highest c.groupCount) c.groupCount) (do
            if done.isEmpty then return branch
            return .alternation ⟨start, ← here⟩ (branch :: done).reverse : Parse (Node Span))
            fun n next => lo ≤ next ∧ n.Fresh lo next :=
          .ite (.pure ⟨hlo', hall branch (by simp)⟩) (.after here_steady fun stop => .pure ⟨hlo',
            fresh_of_children rfl rfl fun m hm => hall m (List.mem_reverse.mp hm)⟩)
        split
        · exact .after (skip_steady _) fun _ => hbranches lo _ _ _ _ _ _ hbase hlo' hall
        · cases reset with
          | true => exact .set hlast
          | false => exact hlast
      cases reset with
      | true => exact .set (hrest base hbase (by simp))
      | false => exact hrest last hreached fun _ => hdone
    · unfold readSequence
      refine .after skipExtended_steady fun _ => .after peekSign_steady fun sign =>
        .after here_steady fun first => .after (endsSequence_steady _) fun _ =>
          .ite (.pure ⟨Nat.le_refl _, sequenceNode_fresh _ _ hrow⟩)
            ((hpiece last sign).bind fun piece next hp => ?_)
      obtain ⟨hle, hfresh⟩ := hp
      have hgrown : Row lo next done :=
        ⟨fun m hm => (hrow.fresh m hm).mono (Nat.le_refl _) hle, hrow.foreign⟩
      split
      · exact (hsequence lo next _ _ (Nat.le_trans hlo hle) hgrown).mono fun n next' h =>
          ⟨Nat.le_trans hle h.1, h.2⟩
      · refine .after (.modify fun _ => ⟨rfl, rfl⟩) fun _ => .after here_steady fun pos =>
          .get fun c hc => ?_
        subst hc
        refine (hbranches c.groupCount c.groupCount pos c.groupCount c.groupCount false []
          (Nat.le_refl _) (Nat.le_refl _) (by simp)).bind fun n next' hn => .after here_steady fun stop => .pure ?_
        exact ⟨Nat.le_trans hle hn.1, sequenceNode_fresh _ _
          (hgrown.cons hn.2 (Nat.le_trans hlo hle) hn.1)⟩
      · rename_i n
        refine .after .read fun s => .knowing (readRepeats_steady _ _ _ _)
          (readRepeats_fresh (hfresh n rfl) _ _ _) fun m hm => ?_
        exact (hsequence lo next _ _ (Nat.le_trans hlo hle) (hrow.cons hm hlo hle)).mono
          fun n next' h => ⟨Nat.le_trans hle h.1, h.2⟩
    · unfold readPiece
      split
      · rename_i len
        have hopening : ∀ start, Counts last (readOpening start len) fun o next =>
            (last ≤ next ∧ ∀ k ∈ o.numbers, last < k ∧ k ≤ next) ∧
              Opening.Whole (fun n => ∀ lo hi, n.Fresh lo hi) o := fun start =>
          (Opens.readOpening start len).and (readOpening_ensures
            ⟨fun span a _ _ => fresh_atom span a, fun e span _ _ => fresh_ofAtoms.newline e span,
              fun span as hne _ _ => fresh_ofAtoms.choice span as hne⟩ start len)
        refine .after here_steady fun start => (hopening start).bind fun o next ho => ?_
        obtain ⟨⟨hle, hnumbers⟩, hwhole⟩ := ho
        split
        · exact .pure ⟨hle, by rintro _ ⟨⟩⟩
        · exact .pure ⟨hle, by rintro _ ⟨⟩⟩
        · rename_i n
          exact .pure ⟨hle, fun m hm => Piece.node.inj hm ▸ hwhole n rfl _ _⟩
        · rename_i frame reset options
          refine .after (descend_steady _) fun _ => .after .get fun outer =>
            .after (.modify fun _ => ⟨rfl, rfl⟩) fun _ => .after here_steady fun pos => .get fun c hc => ?_
          subst hc
          have hself : c.groupCount ≤ reached reset c.groupCount c.groupCount := by
            unfold reached
            split <;> exact Nat.le_refl _
          refine (hbranches c.groupCount c.groupCount pos c.groupCount c.groupCount reset []
            (Nat.le_refl _) hself (by simp)).bind fun body next' hbody => .after (closeGroup_steady _) fun _ =>
              .after (.modify fun _ => ⟨rfl, rfl⟩) fun _ => .after ascend_steady fun _ =>
                .knowing (closeFrame_steady _ _ _)
                  (closeFrame_fresh hnumbers hbody.2 hle hbody.1 _) fun n hn => .pure ?_
          exact ⟨Nat.le_trans hle hbody.1, fun m hm => Piece.node.inj hm ▸ hn⟩
      · exact .knowing (readAtom_steady _) (readAtom_ensures fresh_ofAtoms _) fun n hn =>
          .pure ⟨Nat.le_refl _, fun m hm => Piece.node.inj hm ▸ hn⟩

theorem readPattern_separate {s : Setting} {o : Options} {properties : PropertyRegistry}
    {root : Node Span} {c : Cursor}
    (h : readPattern s.reading (Cursor.start o properties) = .ok root c) : root.Separate := by
  have hcounts : Counts 0 readPattern fun n next => n.Fresh 0 next := by
    refine .after .read fun s => ?_
    refine ((read_fresh _).1 0 0 0 0 0 false [] (Nat.le_refl _) (Nat.le_refl _) nofun).bind
      fun n next hn => .after atEnd_steady fun _ => .ite (.pure hn.2) .stall
  exact (hcounts _ _ _ _ rfl h).separate

/-! ## Numbering -/

namespace Numbering

/-- No number is given twice. -/
def Injective (n : Numbering) : Prop :=
  ∀ i j g : Nat, n.numbers[i]? = some (some g) → n.numbers[j]? = some (some g) → i = j

theorem injective_add {n : Numbering} (hb : n.Bounded) (h : n.Injective) (only : Bool) (d : GroupDef) :
    (n.add only d).Injective := by
  have hnew : ∀ i, n.numbers[i]? ≠ some (some (n.count + 1)) := fun i hi =>
    absurd (hb _ (Array.mem_of_getElem? hi)).2 (Nat.not_succ_le_self _)
  unfold add
  split
  · intro i j g hi hj
    rw [Array.getElem?_push] at hi hj
    split at hi <;> split at hj <;> simp_all
    exact h i j g hi hj
  · intro i j g hi hj
    dsimp only at hi hj
    rw [Array.getElem?_push] at hi hj
    split at hi <;> split at hj
    · omega
    · cases hi
      exact absurd hj (hnew j)
    · cases hj
      exact absurd hi (hnew i)
    · exact h i j g hi hj

theorem injective_ofDefs (only : Bool) (defs : Array GroupDef) : (ofDefs only defs).Injective :=
  (Array.foldl_induction (motive := fun _ (n : Numbering) => n.Bounded ∧ n.Injective)
    ⟨fun _ h => by simp [empty] at h, fun _ _ _ h => by simp [empty] at h⟩ fun _ _ h =>
      ⟨bounded_add h.1 only _, injective_add h.1 h.2 only _⟩).2

theorem Injective.number? {n : Numbering} (h : n.Injective) {a b g : Nat} (ha : n.number? a = some g)
    (hb : n.number? b = some g) : a = b := by
  unfold Numbering.number? at ha hb
  split at ha
  · cases ha
  · split at hb
    · cases hb
    · have := h _ _ g (Option.join_eq_some_iff.mp ha) (Option.join_eq_some_iff.mp hb)
      omega

/-- What has no groups in common before it is bound has none in common after that. -/
theorem foreign_bound {n : Numbering} (hn : n.Injective) {ms bs : List (Node Span)}
    (h : List.Forall₂ (fun m b => bind n m = .ok b) ms bs) (hms : ms.Pairwise Foreign) :
    bs.Pairwise Foreign := by
  induction h with
  | nil => exact .nil
  | @cons m b ms bs hb hbs ih =>
    obtain ⟨hm, hms⟩ := List.pairwise_cons.mp hms
    refine List.pairwise_cons.mpr ⟨fun b' hb' g hg hg' => ?_, ih hms⟩
    obtain ⟨m', hm', hbind⟩ : ∃ m' ∈ ms, bind n m' = .ok b' := by
      obtain ⟨i, hi, rfl⟩ := List.getElem_of_mem hb'
      have hlt : i < ms.length := hbs.length_eq ▸ hi
      exact ⟨ms[i], List.getElem_mem hlt, hbs.get hlt hi⟩
    obtain ⟨raw, hraw, hnumber⟩ := bind_groups hb g hg
    obtain ⟨raw', hraw', hnumber'⟩ := bind_groups hbind g hg'
    obtain rfl := hn.number? hnumber hnumber'
    exact hm m' hm' raw hraw hraw'

/-- Numbering groups anew keeps them apart. -/
theorem bind_separate {n : Numbering} (hn : n.Injective) {m r : Node Span} (h : bind n m = .ok r)
    (hm : m.Separate) : r.Separate := by
  induction m using Node.induction generalizing r with
  | step m ih =>
    refine everywhere_of_children ?_ fun c hc => ?_
    · cases hr : r with
      | group s k body' =>
        cases k with
        | capture g name =>
          subst hr
          obtain ⟨raw, hraw, hnumber⟩ := bind_number? h rfl
          obtain ⟨⟨raw', body⟩, hcaptured, rfl⟩ := Option.map_eq_some_iff.mp hraw
          obtain ⟨note, name', rfl⟩ := captured?_some hcaptured
          have hself := hm.self
          rw [isApart_capture] at hself ⊢
          obtain ⟨-, hparts⟩ := bind_ok h
          obtain ⟨k, hk, hbind⟩ := hparts body' (List.mem_singleton.mpr rfl)
          obtain rfl := List.mem_singleton.mp hk
          intro hin
          obtain ⟨raw, hin, hnumber'⟩ := bind_groups hbind g hin
          rw [← hn.number? hnumber hnumber'] at hin
          exact hself hin
        | _ => rfl
      | sequence s items' =>
        subst hr
        cases m with
        | sequence s items =>
          simp only [bind, Bind.bind, Except.bind] at h
          split at h
          · cases h
          · rename_i rs hrs
            cases h
            obtain ⟨bs, rfl, hbs⟩ := bindAll_forall₂ hrs
            have hself := hm.self
            rw [isApart_sequence] at hself ⊢
            have hforeign := foreign_bound hn hbs (hself.imp fun hab =>
              (hab.resolve_left Bool.false_ne_true).resolve_left Bool.false_ne_true)
            exact hforeign.imp fun hab => Or.inr (Or.inr hab)
        | _ =>
          simp only [bind, Bind.bind, Except.bind] at h
          repeat' split at h
          all_goals cases h
      | _ => rfl
    · obtain ⟨-, hparts⟩ := bind_ok h
      obtain ⟨k, hk, hbind⟩ := hparts c hc
      exact ih k hk hbind (hm.child hk)

end Numbering

/-- The groups of a pattern stand apart. -/
theorem parse_separate {s : Setting} {o : Options} {properties : PropertyRegistry}
    {t : PatternTree Span} (h : (parse s o properties).1 = .ok t) : t.root.Separate := by
  obtain ⟨root, c, hread, hresolve⟩ := parse_ok h
  obtain ⟨hbind, -, -⟩ := resolve_ok hresolve
  exact Numbering.bind_separate (Numbering.injective_ofDefs _ c.groups) hbind
    (readPattern_separate hread)

end Pattern
end RegexMachine
