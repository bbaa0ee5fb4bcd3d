import RegexMachine.Pattern.Tree
import RegexMachine.Proofs.Nodes

/-!
Patterns are read into trees whose bounds are in order, a repeat whose least number of rounds is
larger than the greatest being rejected, and whose choices have branches.
-/
namespace RegexMachine
open Node

namespace Node

theorem proper_atom {α : Type} (note : α) (a : Atom) : (atom note a).Proper :=
  proper_of_children rfl fun _ h => nomatch h

theorem proper_group {α : Type} (note : α) (k : Grouping) {body : Node α} (h : body.Proper) :
    (group note k body).Proper :=
  proper_of_children rfl fun _ hc => List.mem_singleton.mp hc ▸ h

theorem proper_look {α : Type} (note : α) (k : Look) {body : Node α} (h : body.Proper) :
    (look note k body).Proper :=
  proper_of_children rfl fun _ hc => List.mem_singleton.mp hc ▸ h

theorem proper_repeated {α : Type} (note : α) {b : Bounds} (mode : RepeatMode) {body : Node α}
    (hb : b.max.all (b.min ≤ ·) = true) (h : body.Proper) : (repeated note b mode body).Proper := by
  refine proper_of_children ?_ fun _ hc => List.mem_singleton.mp hc ▸ h
  rw [isProper, hasOrder, hb]
  rfl

theorem proper_alternation {α : Type} (note : α) {branches : List (Node α)}
    (hne : branches ≠ []) (h : ∀ c ∈ branches, c.Proper) : (alternation note branches).Proper := by
  refine proper_of_children ?_ h
  simpa [isProper, hasOrder, hasBranches] using hne

end Node

namespace Pattern

/-- What is read has a property, whenever reading succeeds. -/
def Ensures {α : Type} (P : α → Prop) (x : Parse α) : Prop :=
  ∀ s c a c', x s c = .ok a c' → P a

namespace Ensures

variable {α β : Type} {P : α → Prop} {Q : β → Prop}

theorem pure {a : α} (h : P a) : Ensures P (pure a) := fun _ _ _ _ hr => by
  cases hr
  exact h

theorem bind {x : Parse α} {f : α → Parse β} (hx : Ensures P x)
    (hf : ∀ a, P a → Ensures Q (f a)) : Ensures Q (x >>= f) := by
  intro s c b c' h
  change EStateM.bind (x s) (fun a => f a s) c = .ok b c' at h
  unfold EStateM.bind at h
  split at h
  · rename_i a c₁ hr
    exact hf a (hx s c a c₁ hr) s c₁ b c' h
  · cases h

/-- Nothing need be known of what was read before. -/
theorem after {x : Parse α} {f : α → Parse β} (hf : ∀ a, Ensures Q (f a)) :
    Ensures Q (x >>= f) :=
  bind (P := fun _ => True) (fun _ _ _ _ _ => trivial) fun a _ => hf a

theorem ite {p : Prop} [Decidable p] {x y : Parse α} (hx : Ensures P x) (hy : Ensures P y) :
    Ensures P (if p then x else y) := by
  split
  · exact hx
  · exact hy

theorem reject (flaw : Flaw) (start stop : Nat) : Ensures P (Pattern.reject flaw start stop) :=
  fun _ _ _ _ h => nomatch h

theorem rejectSince (flaw : Flaw) (start : Nat) : Ensures P (Pattern.rejectSince flaw start) :=
  after fun _ => .reject _ _ _

theorem stall : Ensures P Pattern.stall := fun _ _ _ _ h => nomatch h

end Ensures

/-! ## Atoms -/

/-- What holds of atoms, and of the nodes that are put together from atoms alone. -/
structure OfAtoms (P : Node Span → Prop) : Prop where
  atom : ∀ span a, P (.atom span a)
  newline : ∀ e span, P (newlineNode e span)
  choice : ∀ span (as : List Atom), as ≠ [] → P (.alternation span (as.map (.atom span)))

/-- What has been read of a group as a whole has a property. -/
def Opening.Whole (P : Node Span → Prop) (o : Opening) : Prop := ∀ n, o = .whole n → P n

section
variable {P : Node Span → Prop}

theorem plainBody_ensures (frame : Frame) : Ensures (Opening.Whole P) (plainBody frame) :=
  .after fun _ => .pure nofun

theorem openCapture_ensures (name : Option String) (start : Nat) :
    Ensures (Opening.Whole P) (openCapture name start) := .after fun _ => plainBody_ensures _

theorem openNamed_ensures (close : Char) (start : Nat) :
    Ensures (Opening.Whole P) (openNamed close start) :=
  .after fun _ => .after fun _ => openCapture_ensures _ _

theorem readRemark_ensures (start : Nat) : Ensures (Opening.Whole P) (readRemark start) :=
  .after fun _ => .after fun _ => .after fun _ => .after fun _ =>
    .ite (.after fun _ => .pure nofun) (.pure nofun)

theorem whole_ensures {x : Parse (Node Span)} (h : Ensures P x) :
    Ensures (Opening.Whole P) (return .whole (← x)) :=
  h.bind fun _ hn => .pure fun _ hm => Opening.whole.inj hm ▸ hn

theorem openCondition_ensures (start : Nat) : Ensures (Opening.Whole P) (openCondition start) := by
  unfold openCondition
  refine .after fun _ => .after fun _ => .after fun c => ?_
  have hrest (target : Target) (first : Nat) : Ensures (Opening.Whole P) (do
      noteNumbered target first
      plainBody (.condition target)) := .after fun _ => plainBody_ensures _
  dsimp only
  split
  · exact .after fun _ => hrest _ _
  · exact .after fun _ => hrest _ _
  · exact .after fun _ => hrest _ _
  · exact .after fun _ => hrest _ _
  · exact .ite (.after fun _ => hrest _ _) (.after fun _ => .after fun _ => hrest _ _)

theorem readOptions_ensures (start : Nat) (off : Bool) (o : Options) (fuel : Nat) :
    Ensures (Opening.Whole P) (readOptions start off o fuel) := by
  induction fuel generalizing off o with
  | zero => exact .stall
  | succ fuel ih =>
    unfold readOptions
    refine .after fun c => ?_
    split
    · exact .rejectSince _ _
    · refine .after fun _ => .ite (.pure nofun) (.ite (.pure nofun) (.ite (ih _ _) ?_))
      refine .after fun d => ?_
      split
      · exact ih _ _
      · exact .rejectSince _ _

variable (hP : OfAtoms P)
include hP

theorem literalNode_ensures (bytes : Bytes) (start : Nat) :
    Ensures P (literalNode bytes start) :=
  .after fun _ => .after fun _ => .pure (hP.atom _ _)

theorem signLiteral_ensures (start len : Nat) : Ensures P (signLiteral start len) :=
  .after fun _ => .after fun _ => literalNode_ensures hP _ _

theorem atomNode_ensures (a : Atom) (start : Nat) : Ensures P (atomNode a start) :=
  .after fun _ => .after fun _ => .pure (hP.atom _ _)

theorem referenceNode_ensures (target : Target) (start : Nat) :
    Ensures P (referenceNode target start) :=
  .after fun _ => .after fun _ => .after fun _ => .pure (hP.atom _ _)

theorem callNode_ensures (target : Target) (start : Nat) :
    Ensures P (callNode target start) := by
  unfold callNode
  split
  · exact .after fun _ => .after fun _ => .pure (hP.atom _ _)
  · exact .after fun _ => .after fun _ => .pure (hP.atom _ _)

theorem readNamedTarget_ensures (close : Char) (start : Nat) (isCall : Bool) :
    Ensures P (readNamedTarget close start isCall) := by
  refine .after fun _ => .after fun target => .ite ?_ ?_
  · exact callNode_ensures hP _ _
  · exact referenceNode_ensures hP _ _

theorem readCharEscape_ensures (start : Nat) : Ensures P (readCharEscape start) := by
  refine .after fun r => ?_
  split
  · exact literalNode_ensures hP _ _
  · refine .after fun _ => ?_
    split
    · exact literalNode_ensures hP _ _
    · exact .rejectSince _ _

theorem readDecimalReference_ensures (start : Nat) :
    Ensures (∀ n ∈ ·, P n) (readDecimalReference start) := by
  have hnone : ∀ n : Node Span, n ∈ (none : Option (Node Span)) → P n := nofun
  refine .after fun _ => .ite (.pure hnone) (.after fun _ => .after fun digits => .after fun _ => ?_)
  refine .ite ?_ (.after fun _ => .pure hnone)
  have hrest : Ensures (∀ n ∈ ·, P n) (do
      return some (← referenceNode (.number (digits.getD 0)) start)) :=
    (referenceNode_ensures hP _ _).bind fun n hn => .pure fun m hm => Option.mem_some.mp hm ▸ hn
  exact .after fun _ => .ite (.after fun _ => hrest) hrest

theorem readQuote_ensures (start : Nat) : Ensures P (readQuote start) :=
  .after fun _ => .after fun _ => .after fun _ => .after fun _ => .after fun _ => .after fun _ =>
    literalNode_ensures hP _ _

theorem readEscape_ensures : Ensures P readEscape := by
  unfold readEscape
  refine .after fun start => .after fun d => .after fun s => .after fun _ => .after fun c => ?_
  split
  · exact .after fun _ => .reject _ _ _
  · rename_i c
    refine .after fun next => ?_
    have hchar := readCharEscape_ensures hP start
    dsimp only
    split
    · exact atomNode_ensures hP _ _
    refine .after fun _ => .ite (.after fun _ => .after fun _ => .pure (hP.atom _ _)) ?_
    split
    · exact atomNode_ensures hP _ _
    refine .ite (atomNode_ensures hP _ _) (.ite ?_ (.ite (atomNode_ensures hP _ _) ?_))
    · exact .after fun _ => .after fun _ => .after fun _ => .pure (hP.newline _ _)
    have hdigits {b : Bool} {f : Option (Node Span) → Parse (Node Span)}
        (hsome : ∀ n, f (some n) = pure n) (hnone : f none = readCharEscape start) :
        Ensures P (if b then readDecimalReference start >>= f else readCharEscape start) := by
      refine .ite ((readDecimalReference_ensures hP start).bind fun n hn => ?_) hchar
      cases n with
      | none => exact hnone ▸ hchar
      | some n => exact hsome n ▸ .pure (hn n rfl)
    refine .ite (.after fun _ => .after fun _ => ?_) ?_
    all_goals
      refine .ite (.after fun _ => readQuote_ensures hP _) ?_
      split
      · exact .ite (readNamedTarget_ensures hP _ _ _)
          (.ite (readNamedTarget_ensures hP _ _ _) (hdigits (fun _ => rfl) rfl))
      · exact hdigits (fun _ => rfl) rfl

theorem readClass_ensures : Ensures P readClass := by
  unfold readClass
  refine .after fun _ => .after fun _ => .after fun _ => .after fun r => .after fun _ => ?_
  have hset (span : Span) (set : CodeSet) (texts : List (List UInt8)) : Ensures P (do
      let node := Node.atom span (.charClass set.toRanges r.2)
      if texts.isEmpty then return node
      let literals := texts.map fun t => Node.atom span (.literal t.toArray true)
      return .alternation span (literals ++ [node])) := by
    refine .ite (.pure (hP.atom _ _)) (.pure ?_)
    have hchoice := hP.choice span (texts.map (fun t => .literal t.toArray true) ++
      [.charClass set.toRanges r.2]) (by simp)
    rwa [List.map_append, List.map_map] at hchoice
  exact .after fun _ => .after fun _ => hset _ _ _

theorem readLooseRepeat_ensures (invalid : Bool) (start len : Nat) :
    Ensures P (readLooseRepeat invalid start len) :=
  .ite (.after fun _ => signLiteral_ensures hP _ _) (signLiteral_ensures hP _ _)

theorem readPlainAtom_ensures (start : Nat) : Ensures P (readPlainAtom start) := by
  unfold readPlainAtom
  refine .after fun _ => .after fun _ => .after fun c => ?_
  refine .ite (readClass_ensures hP) (.ite (atomNode_ensures hP _ _) (.ite (atomNode_ensures hP _ _)
    (.ite (atomNode_ensures hP _ _) (.ite (readEscape_ensures hP) ?_))))
  exact .after fun _ => literalNode_ensures hP _ _

theorem readAtom_ensures (sign : Option (Sign × Nat)) : Ensures P (readAtom sign) := by
  unfold readAtom
  refine .after fun _ => .after fun _ => ?_
  split
  · exact .after fun _ => readLooseRepeat_ensures hP _ _ _
  · exact signLiteral_ensures hP _ _
  · exact .after fun _ => readLooseRepeat_ensures hP _ _ _
  · exact .after fun _ => readLooseRepeat_ensures hP _ _ _
  · exact .after fun _ => readLooseRepeat_ensures hP _ _ _
  · exact readPlainAtom_ensures hP _

/-! ## Beginnings of groups -/

theorem openNamedByP_ensures (start : Nat) : Ensures (Opening.Whole P) (openNamedByP start) := by
  unfold openNamedByP
  refine .after fun _ => .after fun c => ?_
  split
  · exact openNamed_ensures _ _
  · exact .after fun _ => .after fun _ => whole_ensures (referenceNode_ensures hP _ _)
  · exact .after fun _ => .after fun _ => whole_ensures (callNode_ensures hP _ _)
  · exact .rejectSince _ _

theorem readPerlCall_ensures (start : Nat) : Ensures (Opening.Whole P) (readPerlCall start) := by
  unfold readPerlCall
  refine .after fun c => ?_
  split
  · exact .after fun _ => .after fun _ => .ite
      (.after fun _ => whole_ensures (callNode_ensures hP _ _)) (whole_ensures (callNode_ensures hP _ _))
  · exact .after fun _ => .after fun _ => whole_ensures (callNode_ensures hP _ _)
  · exact .after fun _ => whole_ensures (callNode_ensures hP _ _)

theorem readExtension_ensures (start : Nat) : Ensures (Opening.Whole P) (readExtension start) := by
  unfold readExtension
  have hplain (n : Nat) (frame : Frame) : Ensures (Opening.Whole P) (do
      skip n
      plainBody frame) := .after fun _ => plainBody_ensures _
  refine .after fun _ => .after fun _ => .after fun c => ?_
  split
  · exact .rejectSince _ _
  · refine .ite (hplain _ _) (.ite (hplain _ _) (.ite (hplain _ _) (.ite (hplain _ _) ?_)))
    refine .ite (openNamed_ensures _ _) (.ite (openNamed_ensures _ _)
      (.ite (readRemark_ensures _) (.ite ?_ ?_)))
    · exact .after fun _ => .after fun _ => .ite
        (.after fun _ => .after fun _ => plainBody_ensures _) (plainBody_ensures _)
    refine .ite (.after fun _ => .after fun _ => .pure nofun) (.ite (openCondition_ensures _)
      (.ite (openNamedByP_ensures hP _) (.ite (readPerlCall_ensures hP _)
        (.ite (readPerlCall_ensures hP _) ?_))))
    exact .after fun _ => .after fun _ => readOptions_ensures _ _ _ _

theorem readOpening_ensures (start len : Nat) :
    Ensures (Opening.Whole P) (readOpening start len) := by
  refine .after fun _ => .after fun _ => .after fun _ => .ite ?_ ?_
  · exact .after fun _ => readExtension_ensures hP _
  · exact .after fun _ => .ite (plainBody_ensures _) (openCapture_ensures _ _)

end

theorem proper_ofAtoms : OfAtoms Proper where
  atom := proper_atom
  newline e span := by
    refine proper_group _ _ (proper_of_children rfl fun c hc => ?_)
    simp only [children, List.mem_cons, List.not_mem_nil, or_false] at hc
    rcases hc with rfl | rfl <;> exact proper_atom _ _
  choice span as hne := by
    refine proper_alternation _ (by simpa using hne) fun c hc => ?_
    obtain ⟨a, -, rfl⟩ := List.mem_map.mp hc
    exact proper_atom _ _

/-! ## Repeats -/

/-- An interval is rejected unless its bounds are in order. -/
theorem readInterval_proper (len : Nat) :
    Ensures (∀ r ∈ ·, r.bounds.max.all (r.bounds.min ≤ ·) = true) (readInterval len) := by
  have hnone : ∀ r : RepeatSign, r ∈ (none : Option RepeatSign) →
      r.bounds.max.all (r.bounds.min ≤ ·) = true := nofun
  unfold readInterval
  refine .after fun _ => .after fun _ => .after fun body => ?_
  split
  · have hinvalid (start : Nat) : Ensures (∀ r ∈ ·, r.bounds.max.all (r.bounds.min ≤ ·) = true)
        (rejectSince .invalidInterval start : Parse (Option RepeatSign)) := .rejectSince _ _
    exact .after fun _ => .ite (.after fun _ => .pure hnone)
      (.after fun _ => .ite (.after fun _ => hinvalid _) (hinvalid _))
  · rename_i bounds
    have hlast (start : Nat) : Ensures (∀ r ∈ ·, r.bounds.max.all (r.bounds.min ≤ ·) = true) (do
        if bounds.max.any (· < bounds.min) then rejectSince .boundsReversed start
        return some (⟨bounds, true⟩ : RepeatSign) : Parse (Option RepeatSign)) := by
      split
      · exact (Ensures.rejectSince (P := fun _ => False) _ _).bind fun _ h => h.elim
      · rename_i hany
        refine .pure fun r hr => ?_
        obtain rfl := Option.mem_some.mp hr
        cases hmax : bounds.max with
        | none => rfl
        | some max => simpa [hmax] using hany
    exact .after fun _ => .ite (.after fun _ => hlast _) (hlast _)

theorem readRepeatSign_proper :
    Ensures (∀ r ∈ ·, r.bounds.max.all (r.bounds.min ≤ ·) = true) readRepeatSign := by
  have hsimple (len : Nat) (b : Bounds) (hb : b.max.all (b.min ≤ ·) = true) :
      Ensures (∀ r ∈ ·, r.bounds.max.all (r.bounds.min ≤ ·) = true) (do
        skip len
        return some (⟨b, false⟩ : RepeatSign)) :=
    .after fun _ => .pure fun r hr => Option.mem_some.mp hr ▸ hb
  unfold readRepeatSign
  refine .after fun _ => ?_
  split
  · exact hsimple _ _ rfl
  · exact hsimple _ _ rfl
  · exact hsimple _ _ rfl
  · exact readInterval_proper _
  · exact .pure fun _ h => nomatch h

/-- Splitting a literal makes atoms. -/
theorem splitLastChar_of {P : Node Span → Prop} (hatom : ∀ span a, P (.atom span a)) (e : Encoding)
    {n : Node Span} (h : P n) : (∀ m ∈ (splitLastChar e n).1, P m) ∧ P (splitLastChar e n).2 := by
  unfold splitLastChar
  split
  · dsimp only
    split
    · exact ⟨nofun, h⟩
    · exact ⟨fun m hm => Option.mem_some.mp hm ▸ hatom _ _, hatom _ _⟩
  · exact ⟨nofun, h⟩

theorem repeatedNode_proper (e : Encoding) {n : Node Span} (h : n.Proper) (start stop : Nat)
    {b : Bounds} (hb : b.max.all (b.min ≤ ·) = true) (mode : RepeatMode) :
    (repeatedNode e n start stop b mode).Proper := by
  obtain ⟨hhead, hbody⟩ := splitLastChar_of proper_atom e h
  unfold repeatedNode
  cases hs : splitLastChar e n with
  | mk head body =>
    rw [hs] at hhead hbody
    have hr : (Node.repeated ⟨body.note.start, stop⟩ b mode body).Proper :=
      proper_repeated _ mode hb hbody
    cases head with
    | none => exact hr
    | some m =>
      refine proper_of_children rfl fun c hc => ?_
      simp only [children, List.mem_cons, List.not_mem_nil, or_false] at hc
      rcases hc with rfl | rfl
      · exact hhead _ rfl
      · exact hr

theorem readRepeats_proper {n : Node Span} (h : n.Proper) (start : Nat) (again : Bool)
    (fuel : Nat) : Ensures Proper (readRepeats n start again fuel) := by
  induction fuel generalizing n again with
  | zero => exact .stall
  | succ fuel ih =>
    unfold readRepeats
    refine .after fun _ => .after fun _ => readRepeatSign_proper.bind fun r hr => ?_
    split
    · exact .pure h
    · rename_i r
      exact .after fun _ => .after fun _ => .after fun _ => .after fun _ =>
        ih (repeatedNode_proper _ h _ _ (hr r rfl) _) true

/-! ## Groups and sequences -/

theorem closeFrame_proper (frame : Frame) {body : Node Span} (h : body.Proper) (start : Nat) :
    Ensures Proper (closeFrame frame body start) := by
  unfold closeFrame
  refine .after fun _ => ?_
  split
  · exact .pure (proper_group _ _ h)
  · exact .pure (proper_look _ _ h)
  · have hbranches : Ensures (fun r => ∀ c ∈ r.1 :: r.2.toList, c.Proper)
        (conditionBranches start body) := by
      unfold conditionBranches
      split
      · exact .pure fun c hc => h.child hc
      · exact .rejectSince _ _
      · exact .pure fun c hc => List.mem_singleton.mp hc ▸ h
    exact hbranches.bind fun r hr => .pure (proper_of_children rfl hr)

/-- Items that are put in front of others are the items there were, or atoms. -/
theorem pushItem_of {P : Node Span → Prop} (hatom : ∀ span a, P (.atom span a))
    {done : List (Node Span)} {n : Node Span} (hdone : ∀ m ∈ done, P m) (hn : P n) :
    ∀ m ∈ pushItem done n, P m := by
  have hcons : ∀ m ∈ n :: done, P m := List.forall_mem_cons.mpr ⟨hn, hdone⟩
  unfold pushItem
  split
  · split
    · exact List.forall_mem_cons.mpr
        ⟨hatom _ _, fun m hm => hdone m (List.mem_cons_of_mem _ hm)⟩
    · exact hcons
  · exact hdone
  · exact hcons

theorem sequenceNode_of {P : Node Span → Prop} (hatom : ∀ span a, P (.atom span a))
    (hsequence : ∀ span items, (∀ m ∈ items, P m) → P (.sequence span items)) (start stop : Nat)
    {items : List (Node Span)} (h : ∀ m ∈ items, P m) : P (sequenceNode start stop items) := by
  have hdone : ∀ m ∈ items.foldr (fun n done => pushItem done n) [], P m := by
    induction items with
    | nil => exact nofun
    | cons n items ih =>
      exact pushItem_of hatom (ih fun m hm => h m (List.mem_cons_of_mem _ hm)) (h n (by simp))
  unfold sequenceNode
  split
  · exact hatom _ _
  · rename_i heq
    exact hdone _ (heq ▸ List.mem_singleton.mpr rfl)
  · exact hsequence _ _ fun c hc => hdone c (List.mem_reverse.mp hc)

theorem sequenceNode_proper (start stop : Nat) {items : List (Node Span)}
    (h : ∀ m ∈ items, m.Proper) : (sequenceNode start stop items).Proper :=
  sequenceNode_of proper_atom (fun _ _ hitems => proper_of_children rfl hitems) start stop h

/-- A branch and what comes after it, once the count of groups has been set. -/
def readOnward (start base highest : Nat) (reset : Bool) (done : List (Node Span)) (fuel : Nat) :
    Parse (Node Span) := do
  let first ← here
  let branch ← readSequence first [] fuel
  let highest := max highest (← get).groupCount
  match ← peekSign with
  | some (.bar, len) =>
    skip len
    readBranches start base highest reset (branch :: done) fuel
  | _ =>
    if reset then setGroupCount highest
    if done.isEmpty then return branch
    return .alternation ⟨start, ← here⟩ (branch :: done).reverse

theorem readBranches_succ (start base highest : Nat) (reset : Bool) (done : List (Node Span))
    (fuel : Nat) : readBranches start base highest reset done (fuel + 1) =
      if reset then setGroupCount base >>= fun _ => readOnward start base highest reset done fuel
      else readOnward start base highest reset done fuel := rfl

/-- What a piece gives is in order. -/
def Piece.Proper (p : Piece) : Prop := ∀ n, p = .node n → n.Proper

/-- Branches, sequences and pieces are in order, each being read with less fuel than what it is
part of. -/
theorem read_proper (fuel : Nat) :
    (∀ start base highest reset done, (∀ m ∈ done, m.Proper) →
      Ensures Proper (readBranches start base highest reset done fuel)) ∧
    (∀ start done, (∀ m ∈ done, m.Proper) → Ensures Proper (readSequence start done fuel)) ∧
    ∀ sign, Ensures Piece.Proper (readPiece sign fuel) := by
  induction fuel with
  | zero => exact ⟨fun _ _ _ _ _ _ => .stall, fun _ _ _ => .stall, fun _ => .stall⟩
  | succ fuel ih =>
    obtain ⟨hbranches, hsequence, hpiece⟩ := ih
    refine ⟨fun start base highest reset done hdone => ?_, fun start done hdone => ?_,
      fun sign => ?_⟩
    · rw [readBranches_succ]
      have hrest : Ensures Proper (readOnward start base highest reset done fuel) := by
        refine .after fun _ => (hsequence _ _ (List.forall_mem_nil _)).bind fun branch hbranch => .after fun _ =>
          .after fun _ => ?_
        have hall : ∀ m ∈ branch :: done, m.Proper := List.forall_mem_cons.mpr ⟨hbranch, hdone⟩
        have hlast : Ensures Proper (do
            if done.isEmpty then return branch
            return .alternation ⟨start, ← here⟩ (branch :: done).reverse) :=
          .ite (.pure hbranch) (.after fun _ => .pure
            (proper_alternation _ (by simp) fun c hc => hall c (List.mem_reverse.mp hc)))
        split
        · exact .after fun _ => hbranches _ _ _ _ _ hall
        · exact .ite (.after fun _ => hlast) hlast
      exact .ite (.after fun _ => hrest) hrest
    · unfold readSequence
      refine .after fun _ => .after fun sign => .after fun first => .after fun _ =>
        .ite (.pure (sequenceNode_proper _ _ hdone)) ((hpiece sign).bind fun piece hp => ?_)
      split
      · exact hsequence _ _ hdone
      · exact .after fun _ => .after fun _ => .after fun _ =>
          (hbranches _ _ _ _ _ (List.forall_mem_nil _)).bind fun n hn => .after fun _ =>
            .pure (sequenceNode_proper _ _ (List.forall_mem_cons.mpr ⟨hn, hdone⟩))
      · rename_i n
        exact .after fun _ => (readRepeats_proper (hp n rfl) _ _ _).bind fun m hm =>
          hsequence _ _ (List.forall_mem_cons.mpr ⟨hm, hdone⟩)
    · unfold readPiece
      split
      · refine .after fun _ => (readOpening_ensures proper_ofAtoms _ _).bind fun o ho => ?_
        split
        · exact .pure (by rintro _ ⟨⟩)
        · exact .pure (by rintro _ ⟨⟩)
        · rename_i n
          exact .pure fun m hm => Piece.node.inj hm ▸ ho n rfl
        · refine .after fun _ => .after fun _ => .after fun _ => .after fun _ => .after fun _ =>
            (hbranches _ _ _ _ _ (List.forall_mem_nil _)).bind fun body hbody => .after fun _ => .after fun _ =>
              .after fun _ => (closeFrame_proper _ hbody _).bind fun n hn =>
                .pure fun m hm => Piece.node.inj hm ▸ hn
      · exact (readAtom_ensures proper_ofAtoms _).bind fun n hn => .pure fun m hm => Piece.node.inj hm ▸ hn

theorem readPattern_proper : Ensures Proper readPattern :=
  .after fun _ => ((read_proper _).1 _ _ _ _ _ (List.forall_mem_nil _)).bind fun _ hn =>
    .after fun _ => .ite (.pure hn) .stall

/-! ## Binding -/

namespace Numbering

theorem bindAll_ok {n : Numbering} {ms done rs : List (Node Span)}
    (h : bindAll n ms done = .ok rs) :
    rs.length = done.length + ms.length ∧
      ∀ c ∈ rs, c ∈ done ∨ ∃ m ∈ ms, bind n m = .ok c := by
  induction ms generalizing done with
  | nil =>
    cases h
    exact ⟨List.length_reverse, fun c hc => Or.inl (List.mem_reverse.mp hc)⟩
  | cons m ms ih =>
    simp only [bindAll, Bind.bind, Except.bind] at h
    split at h
    · cases h
    · rename_i b hb
      obtain ⟨hlength, hall⟩ := ih h
      refine ⟨?_, fun c hc => ?_⟩
      · simp only [List.length_cons] at hlength ⊢
        omega
      rcases hall c hc with hc | ⟨k, hk, hc⟩
      · rcases List.mem_cons.mp hc with rfl | hc
        · exact Or.inr ⟨m, by simp, hb⟩
        · exact Or.inl hc
      · exact Or.inr ⟨k, List.mem_cons_of_mem _ hk, hc⟩

/-- Binding rebuilds a tree node by node. -/
theorem bind_ok {n : Numbering} {m r : Node Span} (h : bind n m = .ok r) :
    r.isProper = m.isProper ∧ ∀ c ∈ r.children, ∃ k ∈ m.children, bind n k = .ok c := by
  have single {body r' : Node Span} (hb : bind n body = .ok r') :
      ∀ c ∈ [r'], ∃ k ∈ [body], bind n k = .ok c := by
    simpa using hb
  cases m with
  | atom s a =>
    simp only [bind, Bind.bind, Except.bind] at h
    split at h
    · cases h
    · cases h
      exact ⟨rfl, nofun⟩
  | conditional s t gs yes no =>
    simp only [bind, Bind.bind, Except.bind] at h
    split at h
    · cases h
    · split at h
      · cases h
      · rename_i yes' hyes
        split at h
        · cases h
        · rename_i no' hno
          cases h
          refine ⟨rfl, fun c hc => ?_⟩
          rcases List.mem_cons.mp hc with rfl | hc
          · exact ⟨yes, by simp [children], hyes⟩
          · cases no with
            | none =>
              cases hno
              cases hc
            | some b =>
              simp only [bindOption, Bind.bind, Except.bind] at hno
              split at hno
              · cases hno
              · rename_i b' hb
                cases hno
                obtain rfl := List.mem_singleton.mp hc
                exact ⟨b, by simp [children], hb⟩
  | sequence s items =>
    simp only [bind, Bind.bind, Except.bind] at h
    split at h
    · cases h
    · rename_i rs hrs
      cases h
      exact ⟨rfl, fun c hc => ((bindAll_ok hrs).2 c hc).resolve_left List.not_mem_nil⟩
  | alternation s branches =>
    simp only [bind, Bind.bind, Except.bind] at h
    split at h
    · cases h
    · rename_i rs hrs
      cases h
      obtain ⟨hlength, hall⟩ := bindAll_ok hrs
      refine ⟨?_, fun c hc => (hall c hc).resolve_left List.not_mem_nil⟩
      simp only [List.length_nil, Nat.zero_add] at hlength
      cases rs <;> cases branches <;> first | rfl | simp at hlength
  | _ =>
    simp only [bind, Bind.bind, Except.bind] at h
    split at h
    · cases h
    · rename_i hb
      cases h
      exact ⟨rfl, single hb⟩

theorem bind_proper {n : Numbering} {m r : Node Span} (h : bind n m = .ok r)
    (hm : m.Proper) : r.Proper := by
  induction m using Node.induction generalizing r with
  | step m ih =>
    obtain ⟨hself, hparts⟩ := bind_ok h
    refine proper_of_children (hself.trans hm.self) fun c hc => ?_
    obtain ⟨k, hk, hbind⟩ := hparts c hc
    exact ih k hk hbind (hm.child hk)

end Numbering

theorem resolve_root {d : Dialect} {c : Cursor} {root : Node Span} {t : PatternTree Span}
    (h : resolve d c root = .ok t) : ∃ n : Numbering, n.bind root = .ok t.root := by
  have hlast {only : Bool} (h : (do
      let n := Numbering.ofDefs only c.groups
      return ⟨← n.bind root, n.count, n.names, c.callsWhole⟩ :
        Except PatternError (PatternTree Span)) = .ok t) :
      ∃ n : Numbering, n.bind root = .ok t.root := by
    simp only [Bind.bind, Except.bind] at h
    split at h
    · cases h
    · rename_i hb
      cases h
      exact ⟨_, hb⟩
  unfold resolve at h
  dsimp only at h
  split at h
  · split at h
    · cases h
    · exact hlast h
  · exact hlast h

/-- In a tree that was read from a pattern bounds are in order and choices have branches. -/
theorem parse_proper {s : Setting} {o : Options} {properties : PropertyRegistry}
    {t : PatternTree Span} (h : (parse s o properties).1 = .ok t) : t.root.Proper := by
  unfold parse at h
  split at h
  · cases h
  · rename_i root c hread
    have hroot := readPattern_proper s.reading _ root c hread
    cases hr : resolve s.dialect c root with
    | error e =>
      rw [hr] at h
      cases h
    | ok t' =>
      rw [hr] at h
      cases h
      obtain ⟨n, hn⟩ := resolve_root hr
      exact Numbering.bind_proper hn hroot

/-- The bounds in a tree that was read from a pattern are in order. -/
theorem parse_ordered {s : Setting} {o : Options} {properties : PropertyRegistry}
    {t : PatternTree Span} (h : (parse s o properties).1 = .ok t) : t.root.Ordered :=
  (parse_proper h).ordered

end Pattern
end RegexMachine
