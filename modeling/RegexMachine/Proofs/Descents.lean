import RegexMachine.Proofs.FullReadings
import RegexMachine.Proofs.References

/-!
How deep the trees of patterns are. The limit on nesting counts groups, lookarounds and brackets. On a
way down a tree every one of these makes room for four nodes: a choice, a sequence, a repeat and the
next group. Nodes that stand in each other without a level of their own, such as repeats of repeats and
the rest of a group after a change of options, come on top.
-/
namespace RegexMachine

namespace Node

variable {α : Type}

/-- Where a node stands among the nodes of its level. -/
inductive Tier where
  | branches | items | rounds | unit
deriving DecidableEq, Repr

/-- Number of the other nodes of its level that a node of a tier can stand in. -/
def Tier.rank : Tier → Nat
  | branches => 0
  | items => 1
  | rounds => 2
  | unit => 3

def tier : Node α → Tier
  | atom _ _ => .unit
  | repeated _ _ _ _ => .rounds
  | group _ _ _ => .unit
  | conditional _ _ _ _ _ => .unit
  | look _ _ _ => .unit
  | sequence _ _ => .items
  | alternation _ _ => .branches

/-- Room that a node takes anew in a level when it stands in a node of a tier that comes after its own
or is the same. -/
def Tier.regrowth : Tier → Tier → Nat
  | .branches, .branches => 1
  | .items, .branches => 2
  | .items, .items => 1
  | .rounds, .items => 2
  | .rounds, .rounds => 1
  | _, _ => 0

/-- A way down a tree, node by node. -/
inductive Descent : Node α → List (Node α) → Prop
  | stop (n : Node α) : Descent n [n]
  | down {n c : Node α} {way : List (Node α)} (hc : c ∈ n.children) (h : Descent c way) :
    Descent n (n :: way)

/-- The way that goes on to the parts at certain places. -/
def follow : List Nat → Node α → Option (List (Node α))
  | [], n => some [n]
  | i :: places, n => (n.children[i]?).bind fun c => (follow places c).map (n :: ·)

/-- Room on a way that no level of nesting accounts for. -/
def surplus : List (Node α) → Nat
  | n :: c :: way => n.tier.regrowth c.tier + surplus (c :: way)
  | _ => 0

/-- Ways down a tree have at most `k` nodes besides those that come on top. -/
def Fits (k : Nat) (n : Node α) : Prop := ∀ way, Descent n way → way.length ≤ k + surplus way

theorem descent_of_follow {places : List Nat} {n : Node α} {way : List (Node α)}
    (h : follow places n = some way) : Descent n way := by
  induction places generalizing n way with
  | nil =>
    cases h
    exact .stop n
  | cons i places ih =>
    obtain ⟨c, hc, h⟩ := Option.bind_eq_some_iff.mp h
    obtain ⟨rest, hrest, rfl⟩ := Option.map_eq_some_iff.mp h
    exact .down (List.mem_of_getElem? hc) (ih hrest)

theorem Descent.surplus_cons {n c : Node α} {way : List (Node α)} (h : Descent c way) :
    surplus (n :: way) = n.tier.regrowth c.tier + surplus way := by
  cases h <;> rfl

theorem Fits.mono {j k : Nat} {n : Node α} (h : n.Fits j) (hjk : j ≤ k) : n.Fits k :=
  fun way hway => Nat.le_trans (h way hway) (Nat.add_le_add_right hjk _)

/-- One node more on every way down to a part. -/
theorem fits_of_children {k : Nat} {n : Node α}
    (h : ∀ c ∈ n.children, c.Fits (k + n.tier.regrowth c.tier)) : n.Fits (k + 1) := by
  intro way hway
  cases hway with
  | stop => exact Nat.le_add_right_of_le (Nat.le_add_left 1 k)
  | down hc hway =>
    have hrest := h _ hc _ hway
    rw [hway.surplus_cons, List.length_cons]
    omega

theorem Fits.child {k : Nat} {n c : Node α} (h : n.Fits (k + 1)) (hc : c ∈ n.children) :
    c.Fits (k + n.tier.regrowth c.tier) := by
  intro way hway
  have hall := h _ (.down hc hway)
  rw [hway.surplus_cons, List.length_cons] at hall
  omega

theorem fits_leaf {k : Nat} {n : Node α} (h : n.children = []) : n.Fits (k + 1) :=
  fits_of_children fun c hc => by
    rw [h] at hc
    cases hc

/-! ## Levels -/

/-- Nodes on a way through `levels` levels inside one another. The last two are those of a line break,
which is a choice in an atomic group of its own. -/
def roof (levels : Nat) : Nat := 4 * (levels + 1) + 2

/-- A tree with no more than `levels` levels inside one another, and room above it for what it can
stand in on its own level. -/
def Shallow (levels : Nat) (n : Node α) : Prop := n.Fits (roof levels - n.tier.rank)

/-- A tree that can be a part of any node of its level. -/
def Compact (levels : Nat) (n : Node α) : Prop := n.Fits (roof levels - 3)

variable {levels : Nat} {n : Node α}

theorem le_roof (levels : Nat) : 6 ≤ roof levels := Nat.le_add_left 6 (4 * levels)

theorem Tier.rank_le (t : Tier) : t.rank ≤ 3 := by
  cases t <;> decide

theorem Compact.shallow (h : n.Compact levels) : n.Shallow levels :=
  h.mono (Nat.sub_le_sub_left n.tier.rank_le _)

theorem Shallow.fits (h : n.Shallow levels) : n.Fits (roof levels) := h.mono (Nat.sub_le _ _)

/-- A level more leaves room for a group and for everything in it. -/
theorem compact_of_children
    (h : ∀ c ∈ n.children, c.Fits (roof levels)) : n.Compact (levels + 1) := by
  refine (fits_of_children (k := roof levels) fun c hc => (h c hc).mono (Nat.le_add_right _ _)).mono ?_
  simp only [roof]
  omega

/-- On one level a node stands in another if its tier comes later, or else room is taken anew. -/
theorem shallow_of_children (h : ∀ c ∈ n.children,
      c.Shallow levels ∧ n.tier.rank < c.tier.rank + n.tier.regrowth c.tier) :
    n.Shallow levels := by
  have hrank := n.tier.rank_le
  have hroof := le_roof levels
  refine (fits_of_children (k := roof levels - n.tier.rank - 1) fun c hc => ?_).mono (by omega)
  obtain ⟨hfits, hlt⟩ := h c hc
  exact Fits.mono hfits (by omega)

theorem shallow_sequence (note : α) {items : List (Node α)} (h : ∀ c ∈ items, c.Shallow levels) :
    (sequence note items).Shallow levels :=
  shallow_of_children fun c hc => ⟨h c hc, by cases hc' : c.tier <;> simp [tier, Tier.rank, Tier.regrowth]⟩

theorem shallow_alternation (note : α) {branches : List (Node α)}
    (h : ∀ c ∈ branches, c.Shallow levels) : (alternation note branches).Shallow levels :=
  shallow_of_children fun c hc => ⟨h c hc, by cases hc' : c.tier <;> simp [tier, Tier.rank, Tier.regrowth]⟩

theorem compact_atom (note : α) (a : Atom) : (atom note a).Compact levels := fits_leaf rfl

/-- What a repeat operator can apply to. -/
def Repeatable (levels : Nat) (n : Node α) : Prop :=
  n.Compact levels ∨ n.Shallow levels ∧ n.tier ≠ .branches

theorem Repeatable.shallow (h : n.Repeatable levels) : n.Shallow levels := h.elim Compact.shallow And.left

theorem shallow_repeated (note : α) (b : Bounds) (mode : RepeatMode) (h : n.Repeatable levels) :
    (repeated note b mode n).Shallow levels := by
  have hroof := le_roof levels
  rcases h with h | ⟨h, htier⟩
  · refine (fits_of_children (k := roof levels - 3) fun c hc => ?_).mono ?_
    · obtain rfl := List.mem_singleton.mp hc
      exact h.mono (Nat.le_add_right _ _)
    · have hrank : (repeated note b mode n).tier.rank = 2 := rfl
      omega
  · refine shallow_of_children fun c hc => ?_
    obtain rfl := List.mem_singleton.mp hc
    refine ⟨h, ?_⟩
    cases hc' : c.tier <;> simp_all [tier, Tier.rank, Tier.regrowth]

/-- The branches of a choice are no deeper than the choice. -/
theorem Shallow.branch {note : α} {branches : List (Node α)} {c : Node α}
    (h : (alternation note branches).Shallow levels) (hc : c ∈ branches) :
    c.Fits (roof levels) := by
  refine (Fits.child (k := roof levels - 1) (h.mono ?_) hc).mono ?_
  · simp only [roof, tier, Tier.rank]
    omega
  · cases hc' : c.tier <;> simp only [roof, tier, Tier.regrowth] <;> omega

/-! ## Trees as they are read -/

theorem compact_ofAtoms (levels : Nat) : Pattern.OfAtoms (Compact (α := Span) levels) where
  atom := compact_atom
  newline e span := by
    have hroof := le_roof levels
    refine Fits.mono (j := 3) (fits_of_children fun c hc => ?_) (by omega)
    obtain rfl := List.mem_singleton.mp hc
    refine fits_of_children fun c hc => ?_
    simp only [children, List.mem_cons, List.not_mem_nil, or_false] at hc
    rcases hc with rfl | rfl <;> exact fits_leaf rfl
  choice span as _ := by
    have hroof := le_roof levels
    refine Fits.mono (j := 2) (fits_of_children fun c hc => ?_) (by omega)
    obtain ⟨a, -, rfl⟩ := List.mem_map.mp hc
    exact (fits_leaf rfl).mono (Nat.le_add_right _ _)

end Node

namespace Pattern
open Node

variable {levels : Nat}

/-- A repeat stands in no choice of its own, so that it can be repeated again. -/
theorem repeatedNode_repeatable (e : Encoding) {n : Node Span} (h : n.Repeatable levels)
    (start stop : Nat) (b : Bounds) (mode : RepeatMode) :
    (repeatedNode e n start stop b mode).Repeatable levels := by
  obtain ⟨hhead, hbody⟩ := splitLastChar_of (fun _ _ => .inl (compact_atom _ _)) e h
  unfold repeatedNode
  cases hs : splitLastChar e n with
  | mk head body =>
    rw [hs] at hhead hbody
    have hr := shallow_repeated ⟨body.note.start, stop⟩ b mode hbody
    cases head with
    | none => exact .inr ⟨hr, nofun⟩
    | some m =>
      refine .inr ⟨shallow_sequence _ fun c hc => ?_, nofun⟩
      simp only [List.mem_cons, List.not_mem_nil, or_false] at hc
      rcases hc with rfl | rfl
      · exact (hhead _ rfl).shallow
      · exact hr

theorem readRepeats_shallow {n : Node Span} (h : n.Repeatable levels) (start : Nat) (again : Bool)
    (fuel : Nat) : Ensures (Shallow levels) (readRepeats n start again fuel) := by
  induction fuel generalizing n again with
  | zero => exact .stall
  | succ fuel ih =>
    unfold readRepeats
    refine .after fun _ => .after fun _ => .after fun r => ?_
    split
    · exact .pure h.shallow
    · exact .after fun _ => .after fun _ => .after fun _ => .after fun _ =>
        ih (repeatedNode_repeatable _ h _ _ _ _) true

theorem closeFrame_compact (frame : Frame) {body : Node Span} (h : body.Shallow levels)
    (start : Nat) : Ensures (Compact (levels + 1)) (closeFrame frame body start) := by
  have hbody : ∀ c ∈ [body], c.Fits (roof levels) := fun c hc => List.mem_singleton.mp hc ▸ h.fits
  unfold closeFrame
  refine .after fun _ => ?_
  split
  · exact .pure (compact_of_children hbody)
  · exact .pure (compact_of_children hbody)
  · have hbranches : Ensures (fun r => ∀ c ∈ r.1 :: r.2.toList, c.Fits (roof levels))
        (conditionBranches start body) := by
      unfold conditionBranches
      split
      · exact .pure fun c hc => h.branch hc
      · exact .rejectSince _ _
      · exact .pure hbody
    exact hbranches.bind fun r hr => .pure (compact_of_children hr)

theorem sequenceNode_shallow (start stop : Nat) {items : List (Node Span)}
    (h : ∀ m ∈ items, m.Shallow levels) : (sequenceNode start stop items).Shallow levels :=
  sequenceNode_of (fun _ _ => (compact_atom _ _).shallow) (fun _ _ => shallow_sequence _) start stop h

/-! ## Whole patterns -/

section
variable {s : Reading} {c c' : Cursor} {fuel : Nat}

theorem Lands.ensures {α : Type} {x : Parse α} {Q : α → Cursor → Prop} {P : α → Prop}
    (h : Lands s c x Q) (hx : Ensures P x) : Lands s c x fun a c' => Q a c' ∧ P a := by
  unfold Lands at *
  split
  · rename_i a c₁ hr
    rw [hr] at h
    exact ⟨h, hx s c a c₁ hr⟩
  · trivial
  · rename_i e c₁ hreject hr
    rw [hr] at h
    cases e with
    | rejected e => exact hreject e rfl
    | _ => exact h

/-- From a cursor `levels` more levels can be entered. -/
def Cursor.Leaves (s : Reading) (levels : Nat) (c : Cursor) : Prop :=
  c.depth + levels = s.parseDepth

theorem Cursor.Leaves.onward {k : Nat} (h : c.Leaves s levels) (hc : c.Onward s k c') :
    c'.Leaves s levels := by
  rw [Leaves, hc.depth]
  exact h

/-- With enough fuel for what is left of the pattern, what is read has no more levels inside one another
than can be entered. -/
structure GrammarNests (fuel : Nat) : Prop where
  branches : ∀ {s c levels} start base highest reset {done}, c.pos ≤ s.pattern.size →
    3 * (s.pattern.size - c.pos) + 2 ≤ fuel → c.Leaves s levels →
    (∀ m ∈ done, Node.Shallow levels m) →
    Lands s c (readBranches start base highest reset done fuel) fun n _ => n.Shallow levels
  sequence : ∀ {s c levels} start {done}, c.pos ≤ s.pattern.size →
    3 * (s.pattern.size - c.pos) + 1 ≤ fuel → c.Leaves s levels →
    (∀ m ∈ done, Node.Shallow levels m) →
    Lands s c (readSequence start done fuel) fun n _ => n.Shallow levels
  piece : ∀ {s c levels}, c.pos < s.pattern.size → 3 * (s.pattern.size - c.pos) ≤ fuel →
    c.Leaves s levels →
    Lands s c (readPiece (s.signAt c.pos) fuel) fun p _ => ∀ n, p = .node n → n.Compact levels

/-- The body of a group has one level less to enter. -/
theorem GrammarNests.piece_succ (h : GrammarNests fuel) (hc : c.pos < s.pattern.size)
    (hfuel : 3 * (s.pattern.size - c.pos) ≤ fuel + 1) (hleaves : c.Leaves s levels) :
    Lands s c (readPiece (s.signAt c.pos) (fuel + 1)) fun p _ =>
      ∀ n, p = .node n → n.Compact levels := by
  simp only [readPiece]
  split
  · rename_i len hsign
    obtain ⟨hlen, hin⟩ := Reading.signAt_bounds hsign
    simp only [lands_bind, lands_here]
    refine ((readOpening_lands c.pos hlen hin).ensures
      (readOpening_ensures (compact_ofAtoms levels) _ _)).mono fun opening c₁ h₁ => ?_
    obtain ⟨h₁, hwhole⟩ := h₁
    cases opening with
    | comment => rintro _ ⟨⟩
    | rest options => rintro _ ⟨⟩
    | whole n =>
      rintro _ ⟨⟩
      exact hwhole n rfl
    | body frame reset options =>
      simp only [lands_bind, lands_descend, lands_get, lands_modify, lands_here, lands_ascend,
        lands_pure]
      intro hroom
      obtain ⟨inner, rfl⟩ : ∃ inner, levels = inner + 1 := ⟨levels - 1, by grind [Cursor.Leaves]⟩
      have hinner : { c₁ with depth := c₁.depth + 1, options := options }.Leaves s inner := by
        grind [Cursor.Leaves]
      have hcursor := (grammarLands fuel).branches c₁.pos c₁.groupCount c₁.groupCount reset []
        (c := { c₁ with depth := c₁.depth + 1, options := options }) (s := s) (by grind) (by grind)
      refine (hcursor.and (h.branches c₁.pos c₁.groupCount c₁.groupCount reset (by grind) (by grind)
        hinner (List.forall_mem_nil _))).mono fun body c₂ h₂ => ?_
      obtain ⟨⟨hreach, -⟩, hbody⟩ := h₂
      refine (closeGroup_takes c.pos).then hreach.inside fun _ c₃ h₃ => ?_
      refine ((closeFrame_lands frame body c.pos).ensures (closeFrame_compact frame hbody c.pos)).mono
        fun n c₄ h₄ => ?_
      rintro _ ⟨⟩
      exact h₄.2
  · simp only [lands_bind, lands_pure]
    refine ((readAtom_lands rfl hc).ensures (readAtom_ensures (compact_ofAtoms levels) _)).mono ?_
    rintro n c₁ ⟨-, hn⟩ _ ⟨⟩
    exact hn

/-- The rest of a group under other options is an item of the sequence that it goes on with. -/
theorem GrammarNests.sequence_succ (h : GrammarNests fuel) (start : Nat) {done : List (Node Span)}
    (hc : c.pos ≤ s.pattern.size) (hfuel : 3 * (s.pattern.size - c.pos) + 1 ≤ fuel + 1)
    (hleaves : c.Leaves s levels) (hdone : ∀ m ∈ done, Node.Shallow levels m) :
    Lands s c (readSequence start done (fuel + 1)) fun n _ => n.Shallow levels := by
  simp only [readSequence, lands_bind]
  refine skipExtended_takes.then hc fun _ c₁ h₁ => ?_
  simp only [lands_peekSign, lands_here]
  refine (endsSequence_lands h₁.inside).mono fun ends c₂ h₂ => ?_
  obtain ⟨rfl, hends⟩ := h₂
  cases ends with
  | true => exact sequenceNode_shallow _ _ hdone
  | false =>
    have hlt : c₂.pos < s.pattern.size := hends
    have hleaves₂ := hleaves.onward h₁
    simp only [Bool.false_eq_true, if_false, lands_bind]
    refine (((grammarLands fuel).piece hlt (by grind)).and
      (h.piece hlt (by grind) hleaves₂)).mono fun piece c₃ h₃ => ?_
    obtain ⟨h₃, hpiece⟩ := h₃
    have hleaves₃ := hleaves₂.onward h₃
    cases piece with
    | nothing => exact h.sequence start h₃.inside (by grind) hleaves₃ hdone
    | node n =>
      simp only [lands_bind, lands_read]
      refine ((readRepeats_lands n c₂.pos false _ h₃.inside (by omega)).ensures
        (readRepeats_shallow (.inl (hpiece n rfl)) _ _ _)).mono fun m c₄ h₄ => ?_
      obtain ⟨h₄, hm⟩ := h₄
      exact h.sequence start h₄.inside (by grind) (hleaves₃.onward h₄)
        (List.forall_mem_cons.mpr ⟨hm, hdone⟩)
    | rest options =>
      simp only [lands_bind, lands_modify, lands_here, lands_get, lands_pure]
      have hleaves₄ : { c₃ with options := options }.Leaves s levels := hleaves₃
      refine (h.branches c₃.pos c₃.groupCount c₃.groupCount false (by grind) (by grind) hleaves₄
        (List.forall_mem_nil _)).mono fun n c₄ hn => ?_
      exact sequenceNode_shallow _ _ (List.forall_mem_cons.mpr ⟨hn, hdone⟩)

/-- Branches are on the level of the choice between them. -/
theorem GrammarNests.branches_succ (h : GrammarNests fuel) (start base highest : Nat) (reset : Bool)
    {done : List (Node Span)} (hc : c.pos ≤ s.pattern.size)
    (hfuel : 3 * (s.pattern.size - c.pos) + 2 ≤ fuel + 1) (hleaves : c.Leaves s levels)
    (hdone : ∀ m ∈ done, Node.Shallow levels m) :
    Lands s c (readBranches start base highest reset done (fuel + 1)) fun n _ =>
      n.Shallow levels := by
  simp only [readBranches]
  refine .prepared (P := c.Onward s 0) (fun _ => ?_) (by grind) fun c₁ h₁ => ?_
  · rw [lands_setGroupCount]
    grind
  have hleaves₁ := hleaves.onward h₁
  simp only [lands_bind, lands_here, lands_get, lands_peekSign]
  refine (((grammarLands fuel).sequence c₁.pos [] h₁.inside (by grind)).and
    (h.sequence c₁.pos h₁.inside (by grind) hleaves₁ (List.forall_mem_nil _))).mono
    fun branch c₂ h₂ => ?_
  obtain ⟨⟨hreach, -⟩, hbranch⟩ := h₂
  have hall : ∀ m ∈ branch :: done, m.Shallow levels := List.forall_mem_cons.mpr ⟨hbranch, hdone⟩
  split
  · rename_i len hsign
    have hin := Reading.signAt_bounds hsign
    have h₃ : c₁.Onward s 0 { c₂ with pos := c₂.pos + len } := by
      have h₂ := hreach.onward_of_bar hsign
      grind
    simp only [lands_bind, lands_skip]
    have hadvance := hreach.advance
    exact h.branches start base _ reset h₃.inside (by grind) (hleaves₁.onward h₃) hall
  · refine .prepared (P := fun _ => True) (fun _ => trivial) trivial fun c₃ _ => ?_
    refine .ite (fun _ => hbranch) fun _ => ?_
    exact shallow_alternation _ fun m hm => hall m (List.mem_reverse.mp hm)

theorem grammarNests : ∀ fuel, GrammarNests fuel
  | 0 => ⟨fun _ _ _ _ _ _ => by omega, fun _ _ _ => by omega, fun _ _ => by omega⟩
  | fuel + 1 =>
    have ih := grammarNests fuel
    ⟨ih.branches_succ, ih.sequence_succ, ih.piece_succ⟩

theorem readPattern_shallow (hpos : c.pos = 0) (hdepth : c.depth = 0) :
    Lands s c readPattern fun n _ => n.Shallow s.parseDepth := by
  have hleaves : c.Leaves s s.parseDepth := by simp [Cursor.Leaves, hdepth]
  simp only [readPattern, lands_bind, lands_read]
  refine (((grammarLands _).branches 0 0 0 false [] (by omega) (by omega)).and
    ((grammarNests _).branches 0 0 0 false (by omega) (by omega) hleaves (List.forall_mem_nil _))).mono
    fun n c₁ h₁ => ?_
  obtain ⟨⟨hreach, hcloses⟩, hn⟩ := h₁
  have hend : s.pattern.size ≤ c₁.pos :=
    hcloses.resolve_right fun hopen => hopen.1 (hreach.depth.trans hdepth)
  simp only [lands_atEnd, decide_eq_true hend, if_true, lands_pure]
  exact hn

end

namespace Numbering

theorem bind_tier {n : Numbering} {m r : Node Span} (h : bind n m = .ok r) : r.tier = m.tier := by
  cases m with
  | conditional s t gs yes no =>
    simp only [bind, Bind.bind, Except.bind] at h
    repeat (split at h; · cases h)
    cases h
    rfl
  | _ =>
    simp only [bind, Bind.bind, Except.bind] at h
    split at h
    · cases h
    · cases h
      rfl

/-- Every way down a tree with its references bound is one down the tree as it was read. -/
theorem bind_descent {n : Numbering} {m r : Node Span} {way : List (Node Span)}
    (h : bind n m = .ok r) (hway : Descent r way) :
    ∃ way', Descent m way' ∧ way'.length = way.length ∧ surplus way' = surplus way := by
  induction hway generalizing m with
  | stop r => exact ⟨[m], .stop m, rfl, rfl⟩
  | down hc hway ih =>
    obtain ⟨k, hk, hbind⟩ := (bind_ok h).2 _ hc
    obtain ⟨way', hway', hlength, hsurplus⟩ := ih hbind
    refine ⟨m :: way', .down hk hway', congrArg (· + 1) hlength, ?_⟩
    rw [hway'.surplus_cons, hway.surplus_cons, hsurplus, bind_tier h, bind_tier hbind]

theorem bind_fits {n : Numbering} {k : Nat} {m r : Node Span} (h : bind n m = .ok r)
    (hm : m.Fits k) : r.Fits k := by
  intro way hway
  obtain ⟨way', hway', hlength, hsurplus⟩ := bind_descent h hway
  rw [← hlength, ← hsurplus]
  exact hm way' hway'

end Numbering

/-- A way down the tree of a pattern has at most four nodes for each level of nesting that the limit
allows, the whole pattern being one more, and two for a line break. Nodes that stand in each other
without a level between them come on top: one for a repeat of a repeat, two for a repeat of a sequence,
one for a sequence and two for a choice in a sequence, and one for a choice in a choice. -/
theorem parse_descents {s : Setting} {o : Options} {properties : PropertyRegistry}
    {t : PatternTree Span} {way : List (Node Span)} (h : (parse s o properties).1 = .ok t)
    (hway : Descent t.root way) :
    way.length ≤ 4 * (s.limits.parseDepth + 1) + 2 + surplus way := by
  obtain ⟨root, c, hread, hresolve⟩ := parse_ok h
  have hroot := readPattern_shallow (s := s.reading) (c := Cursor.start o properties) rfl rfl
  unfold Lands at hroot
  rw [hread] at hroot
  exact Numbering.bind_fits (resolve_ok hresolve).1 hroot.fits way hway

/-- A way down the tree of a pattern, found by its places and tested. -/
theorem exists_descent (s : Setting) (places : List Nat) (test : List (Node Span) → Bool)
    (h : ((parse s .empty .empty).1.toOption.bind fun t => follow places t.root).any test = true) :
    ∃ t way, (parse s .empty .empty).1 = .ok t ∧ Descent t.root way ∧ test way = true := by
  cases hparse : (parse s .empty .empty).1 with
  | error e =>
    rw [hparse] at h
    cases h
  | ok t =>
    rw [hparse] at h
    change (follow places t.root).any test = true at h
    cases hway : follow places t.root with
    | none =>
      rw [hway] at h
      cases h
    | some way =>
      rw [hway] at h
      exact ⟨t, way, rfl, descent_of_follow hway, h⟩

/-- The pattern `a|b\R*`, to be read without any nesting. -/
def lineBreaks : Setting :=
  ⟨Bytes.ofString "a|b\\R*", .native, .utf8, { CompileLimits.standard with parseDepth := 0 }⟩

/-- A line break, in a repeat in a sequence in a choice, takes all the room there is. -/
theorem lineBreaks_descent : ∃ t way, (parse lineBreaks .empty .empty).1 = .ok t ∧
    Descent t.root way ∧ way.length = 4 * (0 + 1) + 2 ∧ surplus way = 0 ∧
      way.length ≤ 4 * (lineBreaks.limits.parseDepth + 1) + 2 + surplus way := by
  obtain ⟨t, way, hparse, hway, htest⟩ := exists_descent lineBreaks [1, 1, 0, 0, 0]
    (fun way => way.length == 6 && surplus way == 0) (by decide +kernel)
  simp only [Bool.and_eq_true, beq_iff_eq] at htest
  exact ⟨t, way, hparse, hway, htest.1, htest.2, parse_descents hparse hway⟩

/-- The pattern `a****`, to be read without any nesting. -/
def stackedStars : Setting :=
  ⟨Bytes.ofString "a****", .native, .utf8, { CompileLimits.standard with parseDepth := 0 }⟩

/-- Repeats of repeats are not counted: four of them and what they repeat are five nodes. -/
theorem stackedStars_descent : ∃ t way, (parse stackedStars .empty .empty).1 = .ok t ∧
    Descent t.root way ∧ 4 * (stackedStars.limits.parseDepth + 1) < way.length := by
  obtain ⟨t, way, hparse, hway, htest⟩ := exists_descent stackedStars [0, 0, 0, 0]
    (fun way => way.length == 5) (by decide +kernel)
  refine ⟨t, way, hparse, hway, ?_⟩
  rw [beq_iff_eq.mp htest]
  decide

end Pattern
end RegexMachine
