import Mathlib.Data.List.Forall2
import RegexMachine.Proofs.Counting

/-!
Every group of a pattern is defined somewhere in its tree. The reader gives numbers in order and
keeps what it has read, so that the groups it knows in the end are those that the tree defines;
numbering the groups anew leaves no number out.
-/
namespace RegexMachine

namespace Node

variable {α : Type}

/-- Numbers of the groups of some trees. -/
def numbersOf (ns : List (Node Span)) : List Nat := ns.flatMap groupNumbers

theorem mem_numbersOf {ns : List (Node Span)} {k : Nat} :
    k ∈ numbersOf ns ↔ ∃ n ∈ ns, k ∈ n.groupNumbers := List.mem_flatMap

theorem mem_numbersOf_cons {n : Node Span} {ns : List (Node Span)} {k : Nat} :
    k ∈ numbersOf (n :: ns) ↔ k ∈ n.groupNumbers ∨ k ∈ numbersOf ns := by
  rw [numbersOf, List.flatMap_cons, List.mem_append]
  rfl

theorem groupNumbers_atom (span : Span) (a : Atom) : (atom span a).groupNumbers = [] := by
  rw [groupNumbers_eq]
  rfl

/-- Number and name that a node gives to a group, if it is one. -/
def definition? : Node α → Option (Nat × Option String)
  | group _ (.capture g name) _ => some (g, name)
  | _ => none

/-- All that is defined in a tree, in pattern order. -/
def definitions (n : Node α) : List (Nat × Option String) := n.subtrees.toList.filterMap definition?

theorem definitions_eq (n : Node α) :
    n.definitions = n.definition?.toList ++ n.children.flatMap definitions := by
  have hparts : (n.children.flatMap fun c => c.subtrees.toList).filterMap definition? =
      n.children.flatMap definitions := by
    induction n.children with
    | nil => rfl
    | cons c cs ih => rw [List.flatMap_cons, List.filterMap_append, ih, List.flatMap_cons]; rfl
  rw [definitions, subtrees_toList, List.filterMap_cons, hparts]
  cases n.definition? <;> rfl

theorem number?_eq (n : Node α) : n.number? = n.definition?.map (·.1) := by
  cases n with
  | group note kind body => cases kind <;> rfl
  | _ => rfl

theorem groupNumbers_definitions (n : Node α) : n.groupNumbers = n.definitions.map (·.1) := by
  rw [groupNumbers, definitions, List.map_filterMap]
  exact congrArg (n.subtrees.toList.filterMap ·) (funext number?_eq)

/-- What trees define that have been read, given last first. -/
def definedIn (done : List (Node Span)) : List (Nat × Option String) :=
  done.reverse.flatMap definitions

theorem definedIn_cons (n : Node Span) (done : List (Node Span)) :
    definedIn (n :: done) = definedIn done ++ n.definitions := by
  rw [definedIn, List.reverse_cons, List.flatMap_append, List.flatMap_singleton]
  rfl

@[simp]
theorem definitions_atom (span : Span) (a : Atom) : (atom span a).definitions = [] := by
  rw [definitions_eq]
  rfl

end Node

namespace Pattern
open Node

/-- The groups that come of defining some of them one after the other, each with a number that is at
most the next one. -/
inductive Recorded : List (Nat × Option String) → Array GroupDef → Prop where
  | empty : Recorded [] #[]
  | define {defs : List (Nat × Option String)} {groups : Array GroupDef} {raw : Nat}
      {name : Option String} (h : Recorded defs groups) (hpos : 0 < raw)
      (hnext : raw ≤ groups.size + 1) : Recorded (defs ++ [(raw, name)]) (defineGroup groups raw name)

/-- The groups that have been opened are those defined so far, and the last number belongs to one. At
least `floor` groups have been opened. -/
structure Cursor.Accounts (c : Cursor) (floor : Nat) (defs : List (Nat × Option String)) : Prop where
  floor : floor ≤ c.groups.size
  count : c.groupCount ≤ c.groups.size
  recorded : Recorded defs c.groups

theorem Cursor.Accounts.mono {c : Cursor} {m n : Nat} {defs : List (Nat × Option String)}
    (h : c.Accounts n defs) (hmn : m ≤ n) : c.Accounts m defs :=
  ⟨Nat.le_trans hmn h.floor, h.count, h.recorded⟩

/-- Reading accounts for the groups that are opened on the way. -/
def Tracks {α : Type} (floor : Nat) (p : List (Nat × Option String)) (x : Parse α)
    (q : α → List (Nat × Option String)) : Prop :=
  ∀ s c a c', x s c = .ok a c' → c.Accounts floor p → c'.Accounts floor (q a)

namespace Tracks

variable {α β : Type} {floor : Nat} {p : List (Nat × Option String)}
  {q : α → List (Nat × Option String)} {r : β → List (Nat × Option String)}

theorem pure {a : α} (h : p = q a) : Tracks floor p (pure a : Parse α) q := fun _ _ _ _ hr hc => by
  cases hr
  exact h ▸ hc

theorem bind {x : Parse α} {f : α → Parse β} (hx : Tracks floor p x q)
    (hf : ∀ a, Tracks floor (q a) (f a) r) : Tracks floor p (x >>= f) r := by
  intro s c b c' h hc
  obtain ⟨a, c₁, ha, hb⟩ := parse_bind_ok h
  exact hf a s c₁ b c' hb (hx s c a c₁ ha hc)

/-- The same account, written differently. -/
theorem cast {x : Parse α} {p' : List (Nat × Option String)} {q' : α → List (Nat × Option String)}
    (h : Tracks floor p x q) (hp : p' = p) (hq : ∀ a, q a = q' a) : Tracks floor p' x q' := by
  obtain rfl : q = q' := funext hq
  exact hp ▸ h

theorem ite {b : Prop} [Decidable b] {x y : Parse α} (hx : Tracks floor p x q)
    (hy : Tracks floor p y q) : Tracks floor p (if b then x else y) q := by
  split
  · exact hx
  · exact hy

/-- Where no groups are opened. -/
theorem steady {x : Parse α} (hx : Steady x) : Tracks floor p x fun _ => p := by
  intro s c a c' hr hc
  obtain ⟨hgroups, hcount⟩ := hx s c a c' hr
  exact ⟨hgroups ▸ hc.floor, hgroups ▸ hcount ▸ hc.count, hgroups ▸ hc.recorded⟩

theorem after {x : Parse α} {f : α → Parse β} (hx : Steady x) (hf : ∀ a, Tracks floor p (f a) r) :
    Tracks floor p (x >>= f) r := bind (steady hx) hf

/-- Something may be known of what was read with its groups. -/
theorem ensuring {P : α → Prop} {x : Parse α} {f : α → Parse β} (hx : Tracks floor p x q)
    (hP : Ensures P x) (hf : ∀ a, P a → Tracks floor (q a) (f a) r) : Tracks floor p (x >>= f) r := by
  intro s c b c' h hc
  obtain ⟨a, c₁, ha, hb⟩ := parse_bind_ok h
  exact hf a (hP s c a c₁ ha) s c₁ b c' hb (hx s c a c₁ ha hc)

/-- After what opens no groups, something may be known of what was read. -/
theorem knowing {P : α → Prop} {x : Parse α} {f : α → Parse β} (hx : Steady x) (hP : Ensures P x)
    (hf : ∀ a, P a → Tracks floor p (f a) r) : Tracks floor p (x >>= f) r :=
  (steady hx).ensuring hP hf

/-- The last number belongs to a group that has been opened. -/
theorem get {f : Cursor → Parse β} (hf : ∀ c : Cursor, Tracks (max floor c.groupCount) p (f c) r) :
    Tracks floor p (get >>= f) r := by
  intro s c b c' h hc
  have hlast : c.Accounts (max floor c.groupCount) p :=
    ⟨Nat.max_le.mpr ⟨hc.floor, hc.count⟩, hc.count, hc.recorded⟩
  exact (hf c s c b c' h hlast).mono (Nat.le_max_left _ _)

theorem stall : Tracks floor p Pattern.stall q := fun _ _ _ _ h => nomatch h

end Tracks

/-! ## Beginnings of groups -/

theorem Recorded.mem_of_le {defs : List (Nat × Option String)} {groups : Array GroupDef}
    (h : Recorded defs groups) {k : Nat} (hk : 0 < k) (hle : k ≤ groups.size) :
    k ∈ defs.map (·.1) := by
  induction h with
  | empty => exact absurd hk (Nat.not_lt.mpr hle)
  | define h hpos hnext ih =>
    rw [size_defineGroup hnext hpos] at hle
    rw [List.map_append, List.mem_append]
    rename_i defs groups raw name
    by_cases hold : k ≤ groups.size
    · exact Or.inl (ih hold)
    · exact Or.inr (List.mem_singleton.mpr (by dsimp only; omega))

/-- A group that is opened gets the next number. -/
theorem openGroup_tracks {floor : Nat} {p : List (Nat × Option String)} (name : Option String)
    (start : Nat) : Tracks floor p (openGroup name start) fun raw => p ++ [(raw, name)] := by
  intro s c raw c' h hc
  obtain ⟨rfl, hcount, hgroups⟩ := openGroup_ok h
  have hbound := hc.count
  have hfloor := hc.floor
  have hsize : c'.groups.size = max c.groups.size (c.groupCount + 1) := by
    rw [hgroups]
    exact size_defineGroup (by omega) (Nat.succ_pos _)
  refine ⟨by omega, by omega, ?_⟩
  rw [hgroups]
  exact hc.recorded.define (Nat.succ_pos _) (by omega)

/-- What a frame defines. -/
def Frame.definitions : Frame → List (Nat × Option String)
  | .group (.capture raw name) => [(raw, name)]
  | _ => []

/-- What the beginning of a group defines. -/
def Opening.definitions : Opening → List (Nat × Option String)
  | .body frame _ _ => frame.definitions
  | _ => []

theorem Opening.definitions_eq_nil {o : Opening} (h : o.numbers = []) : o.definitions = [] := by
  cases o with
  | body frame reset options =>
    cases frame with
    | group kind =>
      cases kind with
      | capture raw name => cases h
      | _ => rfl
    | _ => rfl
  | _ => rfl

variable {floor : Nat} {p : List (Nat × Option String)}

theorem openCapture_tracks (name : Option String) (start : Nat) :
    Tracks floor p (openCapture name start) fun o => p ++ o.definitions :=
  (openGroup_tracks name start).bind fun _ => .after .get fun _ => .pure rfl

theorem openNamed_tracks (close : Char) (start : Nat) :
    Tracks floor p (openNamed close start) fun o => p ++ o.definitions :=
  .after (skip_steady 1) fun _ => .after (readName_steady _ _) fun _ => openCapture_tracks _ _

/-- A beginning that opens no group gives no number, and so it defines nothing. -/
theorem Tracks.opening {x : Parse Opening} (hx : Steady x) (hopens : ∀ last, Opens last x) :
    Tracks floor p x fun o => p ++ o.definitions := by
  intro s c o c' h hc
  obtain ⟨-, hnumbers⟩ := hopens c.groupCount s c o c' rfl h
  have hnone : o.definitions = [] := by
    refine Opening.definitions_eq_nil (List.eq_nil_iff_forall_not_mem.mpr fun k hk => ?_)
    have hbounds := hnumbers k hk
    have hcount := (hx s c o c' h).2
    omega
  have hsame : p ++ o.definitions = p := by rw [hnone, List.append_nil]
  change c'.Accounts floor (p ++ o.definitions)
  rw [hsame]
  exact Tracks.steady hx s c o c' h hc

theorem openNamedByP_tracks (start : Nat) :
    Tracks floor p (openNamedByP start) fun o => p ++ o.definitions := by
  refine .after (skip_steady 1) fun _ => .after peek_steady fun c => ?_
  split
  · exact openNamed_tracks _ _
  · exact .opening (by grind) fun _ => Counts.after (skip_steady 1) fun _ =>
      Counts.after (readName_steady _ _) fun _ => Opens.whole (by grind)
  · exact .opening (by grind) fun _ => Counts.after (skip_steady 1) fun _ =>
      Counts.after (readName_steady _ _) fun _ => Opens.whole (by grind)
  · exact .opening (by grind) fun _ => Counts.rejectSince

theorem readExtension_tracks (start : Nat) :
    Tracks floor p (readExtension start) fun o => p ++ o.definitions := by
  have hplain {k : Nat} {frame : Frame} (h : frame.numbers = []) : Tracks floor p (do
      skip k
      plainBody frame) fun o => p ++ o.definitions := .opening (by grind) fun _ => .skipped h
  unfold readExtension
  refine .after .read fun d => .after (peekAt_steady 1) fun next => .after peek_steady fun c => ?_
  split
  · exact .opening (by grind) fun _ => Counts.rejectSince
  · refine .ite (hplain rfl) (.ite (hplain rfl) (.ite (hplain rfl) (.ite (hplain rfl)
      (.ite (openNamed_tracks _ _) (.ite (openNamed_tracks _ _)
        (.ite (.opening (by grind) fun _ => .readRemark _) (.ite ?_ ?_)))))))
    · refine .opening (by grind) fun _ => Counts.after (skip_steady 1) fun _ =>
        Counts.after (sees_steady _) fun _ => Counts.ite ?_ (Opens.plain rfl)
      exact Counts.after here_steady fun _ => Counts.after (reject_steady _ _ _) fun _ => Opens.plain rfl
    refine .ite (.opening (by grind) fun _ => Counts.after (skip_steady 1) fun _ =>
      Counts.after .get fun _ => Opens.nothing rfl) (.ite (.opening (by grind) fun _ => .openCondition _)
        (.ite (openNamedByP_tracks _) (.ite (.opening (by grind) fun _ => .readPerlCall _)
          (.ite (.opening (by grind) fun _ => .readPerlCall _) (.opening (by grind) fun _ => ?_)))))
    exact Counts.after .get fun _ => Counts.after .read fun _ => Opens.readOptions _ _ _ _

theorem readOpening_tracks (start len : Nat) :
    Tracks floor p (readOpening start len) fun o => p ++ o.definitions := by
  refine .after (skip_steady len) fun _ => .after (sees_steady _) fun _ =>
    .after (allows_steady _) fun _ => .ite ?_ ?_
  · exact .after (skip_steady 1) fun _ => readExtension_tracks start
  · exact .after (hasOption_steady _) fun _ => .ite (.opening (by grind) fun _ => .plain rfl)
      (openCapture_tracks _ _)

/-! ## Trees -/

/-- What comes of reading a piece of a sequence. -/
def Piece.definitions : Piece → List (Nat × Option String)
  | .node n => n.definitions
  | _ => []

/-- Atoms define nothing. -/
theorem definitions_ofAtoms : OfAtoms fun n => n.definitions = [] where
  atom := definitions_atom
  newline e span := by
    rw [newlineNode, definitions_eq]
    simp [definition?, children, definitions_eq (.alternation _ _)]
  choice span as _ := by
    rw [definitions_eq]
    simp [definition?, children, List.flatMap_map]

/-- Only literals are split. -/
theorem splitLastChar_definitions (e : Encoding) (n : Node Span) :
    (splitLastChar e n).1.toList.flatMap definitions ++ (splitLastChar e n).2.definitions =
      n.definitions := by
  unfold splitLastChar
  split
  · dsimp only
    split
    · rfl
    · simp
  · rfl

/-- What is repeated keeps its groups. -/
theorem repeatedNode_definitions (e : Encoding) (n : Node Span) (start stop : Nat) (b : Bounds)
    (mode : RepeatMode) : (repeatedNode e n start stop b mode).definitions = n.definitions := by
  have hrepeated (span : Span) (m : Node Span) : (Node.repeated span b mode m).definitions =
      m.definitions := by
    rw [definitions_eq]
    simp [definition?, children]
  rw [← splitLastChar_definitions e n]
  unfold repeatedNode
  obtain ⟨head, body⟩ := splitLastChar e n
  cases head with
  | none => exact hrepeated _ _
  | some h =>
    dsimp only
    rw [definitions_eq]
    simp [definition?, children, hrepeated]

theorem readRepeats_definitions (n : Node Span) (start : Nat) (again : Bool) (fuel : Nat) :
    Ensures (fun m => m.definitions = n.definitions) (readRepeats n start again fuel) := by
  induction fuel generalizing n again with
  | zero => exact .stall
  | succ fuel ih =>
    unfold readRepeats
    refine .after fun _ => .after fun _ => .after fun r => ?_
    split
    · exact .pure rfl
    · refine .after fun mode => .after fun _ => .after fun _ => .after fun _ => ?_
      intro s c m c' h
      exact (ih _ _ s c m c' h).trans (repeatedNode_definitions _ _ _ _ _ _)

/-- The tree of a group defines what its body does, and itself before that if it captures. -/
theorem closeFrame_definitions (frame : Frame) (body : Node Span) (start : Nat) :
    Ensures (fun n => n.definitions = frame.definitions ++ body.definitions)
      (closeFrame frame body start) := by
  unfold closeFrame
  refine .after fun _ => ?_
  split
  · rename_i kind
    refine .pure ?_
    rw [definitions_eq]
    cases kind <;> simp [definition?, children, Frame.definitions]
  · refine .pure ?_
    rw [definitions_eq]
    simp [definition?, children, Frame.definitions]
  · have hbranches : Ensures (fun r => (r.1 :: r.2.toList).flatMap definitions = body.definitions)
        (conditionBranches start body) := by
      unfold conditionBranches
      split
      · refine .pure ?_
        rw [definitions_eq]
        rfl
      · exact .rejectSince _ _
      · exact .pure (List.flatMap_singleton ..)
    refine hbranches.bind fun r hr => .pure ?_
    rw [definitions_eq]
    exact hr

theorem pushItem_definitions (done : List (Node Span)) (n : Node Span) :
    definedIn (pushItem done n) = definedIn done ++ n.definitions := by
  unfold pushItem
  split
  · split
    · simp only [definedIn_cons, definitions_atom, List.append_nil]
    · rw [definedIn_cons]
  · rw [definitions_atom, List.append_nil]
  · rw [definedIn_cons]

/-- A sequence defines what its items do. -/
theorem sequenceNode_definitions (start stop : Nat) (items : List (Node Span)) :
    (sequenceNode start stop items).definitions = definedIn items := by
  have hdone : definedIn (items.foldr (fun n done => pushItem done n) []) = definedIn items := by
    induction items with
    | nil => rfl
    | cons n items ih => rw [List.foldr_cons, pushItem_definitions, ih, definedIn_cons]
  rw [← hdone]
  unfold sequenceNode
  split
  · rename_i heq
    rw [heq, definitions_atom]
    rfl
  · rename_i heq
    rw [heq, definedIn_cons]
    rfl
  · rw [definitions_eq]
    rfl

/-- The number given last may be taken back to one of a group that has been opened. -/
theorem setGroupCount_tracks {n : Nat} (h : n ≤ floor) :
    Tracks floor p (setGroupCount n) fun _ => p := fun _ _ _ _ hr hc => by
  cases hr
  exact ⟨hc.floor, Nat.le_trans h hc.floor, hc.recorded⟩

/-- Branches, sequences and pieces account for the groups opened in them, each being read with less
fuel than what it is part of. -/
theorem read_tracks (fuel : Nat) :
    (∀ floor p start base highest reset done, base ≤ floor → highest ≤ floor →
      Tracks floor (p ++ definedIn done) (readBranches start base highest reset done fuel)
        fun n => p ++ n.definitions) ∧
    (∀ floor p start done, Tracks floor (p ++ definedIn done) (readSequence start done fuel)
      fun n => p ++ n.definitions) ∧
    ∀ floor p sign, Tracks floor p (readPiece sign fuel) fun piece => p ++ piece.definitions := by
  induction fuel with
  | zero => exact ⟨fun _ _ _ _ _ _ _ _ _ => .stall, fun _ _ _ _ => .stall, fun _ _ _ => .stall⟩
  | succ fuel ih =>
    obtain ⟨hbranches, hsequence, hpiece⟩ := ih
    refine ⟨fun floor p start base highest reset done hbase hhighest => ?_,
      fun floor p start done => ?_, fun floor p sign => ?_⟩
    · rw [readBranches_succ]
      have hrest : Tracks floor (p ++ definedIn done) (readOnward start base highest reset done fuel)
          fun n => p ++ n.definitions := by
        refine .after here_steady fun first => ?_
        have hbranch := (hsequence floor (p ++ definedIn done) first []).cast
          (List.append_nil _).symm fun _ => rfl
        refine hbranch.bind fun branch => .get fun c => .after peekSign_steady fun sign => ?_
        have hhighest' : max highest c.groupCount ≤ max floor c.groupCount := by omega
        have hall : (p ++ definedIn done) ++ branch.definitions = p ++ definedIn (branch :: done) := by
          rw [definedIn_cons, List.append_assoc]
        have hlast : Tracks (max floor c.groupCount) ((p ++ definedIn done) ++ branch.definitions) (do
              if done.isEmpty then return branch
              return .alternation ⟨start, ← here⟩ (branch :: done).reverse : Parse (Node Span))
            fun n => p ++ n.definitions := by
          rw [hall]
          split
          · rename_i hempty
            obtain rfl := List.isEmpty_iff.mp hempty
            exact .pure (by rw [definedIn_cons]; rfl)
          · refine .after here_steady fun stop => .pure ?_
            rw [definitions_eq]
            rfl
        split
        · exact .after (skip_steady _) fun _ =>
            (hbranches _ p start base _ reset _ (by omega) hhighest').cast hall fun _ => rfl
        · exact .ite ((setGroupCount_tracks hhighest').bind fun _ => hlast) hlast
      exact .ite ((setGroupCount_tracks hbase).bind fun _ => hrest) hrest
    · unfold readSequence
      refine .after skipExtended_steady fun _ => .after peekSign_steady fun sign =>
        .after here_steady fun first => .after (endsSequence_steady _) fun _ =>
          .ite (.pure ?_) ((hpiece _ _ sign).bind fun piece => ?_)
      · rw [sequenceNode_definitions]
      split
      · exact (hsequence _ p _ _).cast (List.append_nil _) fun _ => rfl
      · refine .after (.modify fun _ => ⟨rfl, rfl⟩) fun _ => .after here_steady fun pos =>
          .get fun c => ?_
        have hbody := (hbranches (max floor c.groupCount) (p ++ definedIn done) pos
          c.groupCount c.groupCount false [] (Nat.le_max_right _ _) (Nat.le_max_right _ _)).cast
          rfl fun _ => rfl
        refine hbody.bind fun n => .after here_steady fun stop => .pure ?_
        rw [sequenceNode_definitions, definedIn_cons, List.append_assoc]
      · rename_i n
        refine .after .read fun s => .knowing (readRepeats_steady _ _ _ _)
          (readRepeats_definitions _ _ _ _) fun m hm => ?_
        refine (hsequence _ p _ _).cast ?_ fun _ => rfl
        rw [definedIn_cons, hm, List.append_assoc]
        rfl
    · unfold readPiece
      split
      · refine .after here_steady fun start => (readOpening_tracks start _).ensuring
          (readOpening_ensures definitions_ofAtoms start _) fun o ho => ?_
        split
        · exact .pure rfl
        · exact .pure rfl
        · rename_i n
          exact .pure (congrArg _ (ho n rfl).symm)
        · rename_i frame reset options
          refine .after (descend_steady _) fun _ => .after .get fun outer =>
            .after (.modify fun _ => ⟨rfl, rfl⟩) fun _ => .after here_steady fun pos => .get fun c => ?_
          have hbody := (hbranches (max floor c.groupCount) (p ++ frame.definitions) pos
            c.groupCount c.groupCount reset [] (Nat.le_max_right _ _)
            (Nat.le_max_right _ _)).cast (List.append_nil _).symm fun _ => rfl
          refine hbody.bind fun body => .after (closeGroup_steady _) fun _ =>
            .after (.modify fun _ => ⟨rfl, rfl⟩) fun _ => .after ascend_steady fun _ =>
              .knowing (closeFrame_steady _ _ _) (closeFrame_definitions _ _ _) fun n hn =>
                .pure ?_
          rw [List.append_assoc]
          exact congrArg _ hn.symm
      · exact .knowing (readAtom_steady _) (readAtom_ensures definitions_ofAtoms _) fun n hn =>
          .pure ((List.append_nil p).symm.trans (congrArg _ hn.symm))

/-- The groups that are known after a pattern has been read are those that its tree defines. -/
theorem readPattern_recorded {s : Setting} {o : Options} {properties : PropertyRegistry}
    {root : Node Span} {c : Cursor}
    (h : readPattern s.reading (Cursor.start o properties) = .ok root c) :
    Recorded root.definitions c.groups := by
  have htracks : Tracks 0 [] readPattern definitions := by
    refine .after .read fun s => ?_
    refine ((read_tracks _).1 0 [] 0 0 0 false [] (Nat.le_refl _) (Nat.le_refl _)).bind
      fun n => .after atEnd_steady fun _ => .ite (.pure rfl) .stall
  exact (htracks _ _ _ _ h ⟨Nat.le_refl _, Nat.le_refl _, .empty⟩).recorded

/-- Every group that was opened while a pattern was read stands in its tree. -/
theorem readPattern_numbers {s : Setting} {o : Options} {properties : PropertyRegistry}
    {root : Node Span} {c : Cursor}
    (h : readPattern s.reading (Cursor.start o properties) = .ok root c) :
    ∀ k, 0 < k → k ≤ c.groups.size → k ∈ root.groupNumbers := by
  intro k hk hle
  rw [groupNumbers_definitions]
  exact (readPattern_recorded h).mem_of_le hk hle

/-! ## Numbering -/

namespace Numbering

/-- Groups have been numbered in order, and every number was given to one of them. -/
theorem ofDefs_complete (only : Bool) (defs : Array GroupDef) :
    (ofDefs only defs).numbers.size = defs.size ∧
      ∀ g, 0 < g → g ≤ (ofDefs only defs).count → some g ∈ (ofDefs only defs).numbers := by
  refine Array.foldl_induction (motive := fun i (n : Numbering) =>
    n.numbers.size = i ∧ ∀ g, 0 < g → g ≤ n.count → some g ∈ n.numbers) ⟨rfl, ?_⟩ ?_
  · exact fun g hg hle => absurd hg (Nat.not_lt.mpr hle)
  · rintro i n ⟨hsize, hall⟩
    unfold add
    split
    · refine ⟨by simp [hsize], fun g hg hle => Array.mem_push_of_mem _ (hall g hg hle)⟩
    · refine ⟨by simp [hsize], fun g hg hle => ?_⟩
      rcases Nat.lt_or_eq_of_le hle with hlt | rfl
      · exact Array.mem_push_of_mem _ (hall g hg (Nat.le_of_lt_succ hlt))
      · exact Array.mem_push_self

/-- Every number was given to a group that had been opened. -/
theorem exists_raw (only : Bool) (defs : Array GroupDef) {g : Nat} (hg : 0 < g)
    (hle : g ≤ (ofDefs only defs).count) :
    ∃ raw, 0 < raw ∧ raw ≤ defs.size ∧ (ofDefs only defs).number? raw = some g := by
  obtain ⟨hsize, hall⟩ := ofDefs_complete only defs
  obtain ⟨i, hi⟩ := Array.mem_iff_getElem?.mp (hall g hg hle)
  have hlt := (Array.getElem?_eq_some_iff.mp hi).1
  refine ⟨i + 1, Nat.succ_pos i, by omega, ?_⟩
  rw [number?, if_neg (Nat.succ_ne_zero i), Nat.add_sub_cancel, hi]
  rfl

/-- The items of a sequence that is bound are those of the sequence, one by one. -/
theorem bindAll_forall₂ {n : Numbering} {ms done rs : List (Node Span)}
    (h : bindAll n ms done = .ok rs) :
    ∃ bs, rs = done.reverse ++ bs ∧ List.Forall₂ (fun m b => bind n m = .ok b) ms bs := by
  induction ms generalizing done with
  | nil =>
    cases h
    exact ⟨[], by simp, .nil⟩
  | cons m ms ih =>
    simp only [bindAll, Bind.bind, Except.bind] at h
    split at h
    · cases h
    · rename_i b hb
      obtain ⟨bs, rfl, hbs⟩ := ih h
      exact ⟨b :: bs, by simp, .cons hb hbs⟩

/-- The parts of a tree are bound one by one. -/
theorem bind_children {n : Numbering} {m r : Node Span} (h : bind n m = .ok r) :
    List.Forall₂ (fun k c => bind n k = .ok c) m.children r.children := by
  cases m with
  | atom s a =>
    simp only [bind, Bind.bind, Except.bind] at h
    split at h
    · cases h
    · cases h
      exact .nil
  | conditional s t gs yes no =>
    simp only [bind, Bind.bind, Except.bind] at h
    split at h
    · cases h
    · split at h
      · cases h
      · rename_i yes' hyes
        split at h
        · cases h
        · rename_i no' hno
          cases h
          refine .cons hyes ?_
          cases no with
          | none =>
            cases hno
            exact .nil
          | some b =>
            simp only [bindOption, Bind.bind, Except.bind] at hno
            split at hno
            · cases hno
            · rename_i b' hb
              cases hno
              exact .cons hb .nil
  | sequence s items =>
    simp only [bind, Bind.bind, Except.bind] at h
    split at h
    · cases h
    · rename_i rs hrs
      cases h
      obtain ⟨bs, rfl, hbs⟩ := bindAll_forall₂ hrs
      exact hbs
  | alternation s branches =>
    simp only [bind, Bind.bind, Except.bind] at h
    split at h
    · cases h
    · rename_i rs hrs
      cases h
      obtain ⟨bs, rfl, hbs⟩ := bindAll_forall₂ hrs
      exact hbs
  | _ =>
    simp only [bind, Bind.bind, Except.bind] at h
    split at h
    · cases h
    · rename_i hb
      cases h
      exact .cons hb .nil

/-- The parts of a tree are parts of the tree that it is bound to. -/
theorem bind_parts {n : Numbering} {m r : Node Span} (h : bind n m = .ok r) {k : Node Span}
    (hk : k ∈ m.children) : ∃ c ∈ r.children, bind n k = .ok c := by
  have hall := bind_children h
  obtain ⟨i, hi, rfl⟩ := List.getElem_of_mem hk
  have hlt : i < r.children.length := hall.length_eq ▸ hi
  exact ⟨r.children[i], List.getElem_mem hlt, hall.get hi hlt⟩

/-- A group that has a number has it in the tree that its own is bound to. -/
theorem bind_keeps {n : Numbering} {m r : Node Span} (h : bind n m = .ok r) {raw g : Nat}
    (hraw : raw ∈ m.groupNumbers) (hg : n.number? raw = some g) : g ∈ r.groupNumbers := by
  induction m using Node.induction generalizing r with
  | step m ih =>
    rw [groupNumbers_eq, List.mem_append] at hraw
    rcases hraw with hself | hpart
    · cases m with
      | group s k body =>
        cases k with
        | capture raw' name =>
          obtain rfl : raw = raw' := by simpa [Node.number?, captured?] using hself
          simp only [bind, Bind.bind, Except.bind] at h
          split at h
          · cases h
          · cases h
            rw [groupNumbers_eq]
            exact List.mem_append_left _ (by simp [bindGrouping, hg, Node.number?, captured?])
        | _ => cases hself
      | _ => cases hself
    · obtain ⟨k, hk, hraw⟩ := List.mem_flatMap.mp hpart
      obtain ⟨c, hc, hbind⟩ := bind_parts h hk
      exact groupNumbers_child hc _ (ih k hk hbind hraw)

end Numbering

/-- The groups of a pattern are all defined in its tree. -/
theorem parse_defined {s : Setting} {o : Options} {properties : PropertyRegistry}
    {t : PatternTree Span} (h : (parse s o properties).1 = .ok t) :
    ∀ g, 0 < g → g ≤ t.captures → g ∈ t.root.groupNumbers := by
  intro g hg hle
  obtain ⟨root, c, hread, hresolve⟩ := parse_ok h
  obtain ⟨hbind, hcaptures, -⟩ := resolve_ok hresolve
  rw [hcaptures] at hle
  obtain ⟨raw, hpos, hraw, hnumber⟩ := Numbering.exists_raw _ c.groups hg hle
  exact Numbering.bind_keeps hbind (readPattern_numbers hread raw hpos hraw) hnumber

end Pattern
end RegexMachine
