import RegexMachine.Pattern.Tree

/-!
What most readers leave alone. Only opening a group, and the branches of a branch reset, change which
groups there are and which number was given last; all other readers are steady.
-/
namespace RegexMachine.Pattern

/-- Reading opens no groups and gives no numbers. -/
def Steady {α : Type} (x : Parse α) : Prop :=
  ∀ s c a c', x s c = .ok a c' → c'.groups = c.groups ∧ c'.groupCount = c.groupCount

namespace Steady

variable {α β : Type}

@[grind ←]
theorem pure (a : α) : Steady (Pure.pure a : Parse α) := fun _ _ _ _ h => by
  cases h
  exact ⟨rfl, rfl⟩

@[grind ←]
theorem bind {x : Parse α} {f : α → Parse β} (hx : Steady x) (hf : ∀ a, Steady (f a)) :
    Steady (x >>= f) := by
  intro s c b c' h
  change EStateM.bind (x s) (fun a => f a s) c = .ok b c' at h
  unfold EStateM.bind at h
  split at h
  · rename_i a c₁ hr
    obtain ⟨hgroups, hcount⟩ := hx s c a c₁ hr
    obtain ⟨hgroups', hcount'⟩ := hf a s c₁ b c' h
    exact ⟨hgroups'.trans hgroups, hcount'.trans hcount⟩
  · cases h

@[grind ←]
theorem read : Steady (MonadReader.read : Parse Reading) := fun _ _ _ _ h => by
  cases h
  exact ⟨rfl, rfl⟩

@[grind ←]
theorem get : Steady (MonadState.get : Parse Cursor) := fun _ _ _ _ h => by
  cases h
  exact ⟨rfl, rfl⟩

theorem modify {f : Cursor → Cursor}
    (hf : ∀ c, (f c).groups = c.groups ∧ (f c).groupCount = c.groupCount) :
    Steady (modify f : Parse PUnit) := fun _ c _ _ h => by
  cases h
  exact hf c

theorem ite {p : Prop} [Decidable p] {x y : Parse α} (hx : Steady x) (hy : Steady y) :
    Steady (if p then x else y) := by
  split
  · exact hx
  · exact hy

end Steady

/-! ## The cursor -/

@[grind ←]
theorem here_steady : Steady here := by grind [here]

@[grind ←]
theorem reject_steady {α : Type} (flaw : Flaw) (start stop : Nat) :
    Steady (reject flaw start stop : Parse α) := fun _ _ _ _ h => nomatch h

@[grind ←]
theorem rejectSince_steady {α : Type} (flaw : Flaw) (start : Nat) :
    Steady (rejectSince flaw start : Parse α) := by grind [rejectSince]

@[grind ←]
theorem stall_steady {α : Type} : Steady (stall : Parse α) := fun _ _ _ _ h => nomatch h

@[grind ←]
theorem overrun_steady {α : Type} : Steady (overrun : Parse α) := fun _ _ _ _ h => nomatch h

@[grind ←]
theorem peekAt_steady (k : Nat) : Steady (peekAt k) := by grind [peekAt]

@[grind ←]
theorem peek_steady : Steady peek := peekAt_steady 0

@[grind ←]
theorem atEnd_steady : Steady atEnd := by grind [atEnd]

@[grind ←]
theorem sees_steady (c : Char) : Steady (sees c) := by grind [sees]

@[grind ←]
theorem seesText_steady (t : String) : Steady (seesText t) := by grind [seesText]

@[grind ←]
theorem jump_steady (pos : Nat) : Steady (jump pos) := .modify fun _ => ⟨rfl, rfl⟩

@[grind ←]
theorem skip_steady (n : Nat) : Steady (skip n) := .modify fun _ => ⟨rfl, rfl⟩

@[grind ←]
theorem eat_steady (c : Char) : Steady (eat c) := by grind [eat]

@[grind ←]
theorem eatText_steady (t : String) : Steady (eatText t) := by grind [eatText]

@[grind ←]
theorem nextByte_steady : Steady nextByte := by grind [nextByte]

@[grind ←]
theorem peekCode_steady : Steady peekCode := by grind [peekCode]

@[grind ←]
theorem bytesBetween_steady (start stop : Nat) : Steady (bytesBetween start stop) := by
  grind [bytesBetween]

@[grind ←]
theorem nextCode_steady : Steady nextCode := by grind [nextCode]

@[grind ←]
theorem allows_steady (op : Operator) : Steady (allows op) := by grind [allows]

@[grind ←]
theorem behaves_steady (b : Behavior) : Steady (behaves b) := by grind [behaves]

@[grind ←]
theorem hasOption_steady (f : CompileFlag) : Steady (hasOption f) := by grind [hasOption]

@[grind ←]
theorem peekSign_steady : Steady peekSign := by grind [peekSign]

@[grind ←]
theorem skipExtended_steady : Steady skipExtended := by grind [skipExtended]

@[grind ←]
theorem descend_steady (start : Nat) : Steady (descend start) :=
  .bind (.modify fun _ => ⟨rfl, rfl⟩) fun _ => by grind

@[grind ←]
theorem ascend_steady : Steady ascend := .modify fun _ => ⟨rfl, rfl⟩

@[grind ←]
theorem readDecimal_steady : Steady readDecimal := by grind [readDecimal]

@[grind ←]
theorem readRadix_steady (radix count : Nat) : Steady (readRadix radix count) := by grind [readRadix]

@[grind ←]
theorem textSince_steady (start : Nat) : Steady (textSince start) := by grind [textSince]

/-! ## Escapes and brackets -/

@[grind ←]
theorem readBraced_steady (radix count start : Nat) : Steady (readBraced radix count start) := by
  refine .bind here_steady fun first => .bind .read fun s => .bind (jump_steady _) fun _ => ?_
  grind

@[grind ←]
theorem readHexByte_steady (inClass : Bool) : Steady (readHexByte inClass) := by grind [readHexByte]

@[grind ←]
theorem readHex4_steady (start : Nat) : Steady (readHex4 start) := by grind [readHex4]

@[grind ←]
theorem readOctal_steady (inClass : Bool) : Steady (readOctal inClass) := by grind [readOctal]

@[grind ←]
theorem readControl_steady (start : Nat) : Steady (readControl start) := by grind [readControl]

@[grind ←]
theorem readEscaped_steady (inClass : Bool) (start : Nat) : Steady (readEscaped inClass start) := by
  refine .bind .read fun s => .bind peek_steady fun c => ?_
  grind

@[grind ←]
theorem findProperty_steady (name : String) : Steady (findProperty name) :=
  .bind .read fun _ => .bind .get fun _ => .bind (.modify fun _ => ⟨rfl, rfl⟩) fun _ => .pure _

@[grind ←]
theorem seesProperty_steady : Steady seesProperty := by grind [seesProperty]

@[grind ←]
theorem readProperty_steady (start : Nat) : Steady (readProperty start) := by
  refine .bind nextByte_steady fun c => .bind (skip_steady 1) fun _ => .bind (sees_steady _) fun _ =>
    .bind (allows_steady _) fun _ => .ite (.bind (skip_steady 1) fun _ => ?_) ?_
  all_goals
    refine .bind here_steady fun _ => .bind .read fun _ => .bind (jump_steady _) fun _ =>
      .bind (textSince_steady _) fun _ => ?_
    grind

@[grind ←]
theorem readPosixBracket_steady : Steady readPosixBracket := by
  refine .bind here_steady fun _ => .bind (skip_steady 2) fun _ => .bind (eat_steady _) fun _ =>
    .bind here_steady fun _ => .bind .read fun _ => .bind (jump_steady _) fun _ =>
      .bind (textSince_steady _) fun _ => ?_
  grind

@[grind ←]
theorem readBracketEscape_steady (start : Nat) : Steady (readBracketEscape start) := by
  refine .bind .read fun _ => .bind (skip_steady 1) fun _ => .bind peek_steady fun _ => ?_
  grind

@[grind ←]
theorem seesRange_steady : Steady seesRange := by grind [seesRange]

@[grind ←]
theorem closeRange_steady (p : BracketParts) (lo start : Nat) (item : BracketItem) :
    Steady (closeRange p lo start item) := by
  cases item <;> grind [closeRange]

@[grind ←]
theorem checkLeadingClose_steady (start : Nat) : Steady (checkLeadingClose start) := by
  grind [checkLeadingClose]

/-- Each part of a bracket expression is read with less fuel than the whole. -/
theorem bracket_steady (fuel : Nat) :
    Steady (readBracket fuel) ∧
    (∀ start first parts, Steady (bracketItems start first parts fuel)) ∧
    Steady (bracketItem fuel) := by
  induction fuel with
  | zero => exact ⟨stall_steady, fun _ _ _ => stall_steady, stall_steady⟩
  | succ fuel ih =>
    obtain ⟨hbracket, hitems, hitem⟩ := ih
    refine ⟨?_, fun start first parts => ?_, ?_⟩
    · unfold readBracket
      exact .bind here_steady fun start => .bind (descend_steady start) fun _ =>
        .bind (skip_steady 1) fun _ => .bind (eat_steady _) fun _ => .bind (hitems _ _ _) fun _ =>
          .bind ascend_steady fun _ => .pure _
    · unfold bracketItems
      refine .bind peek_steady fun c => ?_
      split
      · exact rejectSince_steady _ _
      · refine .ite (by grind) (.ite (.bind (checkLeadingClose_steady _) fun _ => ?_) ?_)
        all_goals
          refine .bind (allows_steady _) fun _ => .bind (seesText_steady _) fun _ =>
            .ite (by grind) (.bind hitem fun item => ?_)
          cases item <;> grind
    · unfold bracketItem
      refine .bind here_steady fun _ => .bind peek_steady fun c => ?_
      grind

@[grind ←]
theorem readClass_steady : Steady readClass := by
  refine .bind here_steady fun _ => .bind .read fun _ => .bind .read fun _ =>
    .bind (bracket_steady _).1 fun _ => .bind (hasOption_steady _) fun _ => ?_
  grind

/-! ## References -/

@[grind ←]
theorem nameChars_steady (close : Char) (first start : Nat) (bad : Bool) (n : Nat) :
    Steady (nameChars close first start bad n) := by
  induction n generalizing bad with
  | zero => exact .pure _
  | succ n ih =>
    unfold nameChars
    refine .bind peekCode_steady fun c => ?_
    split
    · exact .pure _
    · refine .bind peek_steady fun _ => .bind here_steady fun _ => ?_
      grind

@[grind ←]
theorem readName_steady (close : Char) (start : Nat) : Steady (readName close start) := by
  refine .bind here_steady fun _ => .bind .read fun _ => .bind (nameChars_steady _ _ _ _ _) fun _ =>
    .bind (textSince_steady _) fun _ => ?_
  grind

@[grind ←]
theorem closeReference_steady (close : Char) (start : Nat) : Steady (closeReference close start) := by
  grind [closeReference]

@[grind ←]
theorem referenceNumber_steady (close : Char) (start : Nat) :
    Steady (referenceNumber close start) := by grind [referenceNumber]

@[grind ←]
theorem readTarget_steady (close : Char) (start : Nat) (isCall : Bool) :
    Steady (readTarget close start isCall) := by
  refine .bind peek_steady fun c => ?_
  split
  · refine .ite (.bind (skip_steady 1) fun _ => ?_) ?_ <;> grind
  · grind

@[grind ←]
theorem noteNumbered_steady (target : Target) (start : Nat) : Steady (noteNumbered target start) := by
  unfold noteNumbered
  split
  · exact .pure _
  · exact .bind here_steady fun _ => .modify fun _ => ⟨rfl, rfl⟩

@[grind ←]
theorem referenceNode_steady (target : Target) (start : Nat) :
    Steady (referenceNode target start) := by grind [referenceNode]

@[grind ←]
theorem callNode_steady (target : Target) (start : Nat) : Steady (callNode target start) := by
  unfold callNode
  split
  · exact .bind (.modify fun _ => ⟨rfl, rfl⟩) fun _ => by grind
  · exact .bind (noteNumbered_steady _ _) fun _ => by grind

/-! ## Atoms -/

@[grind ←]
theorem literalNode_steady (bytes : Bytes) (start : Nat) : Steady (literalNode bytes start) := by
  grind [literalNode]

@[grind ←]
theorem signLiteral_steady (start len : Nat) : Steady (signLiteral start len) := by
  grind [signLiteral]

@[grind ←]
theorem atomNode_steady (a : Atom) (start : Nat) : Steady (atomNode a start) := by grind [atomNode]

@[grind ←]
theorem readDecimalReference_steady (start : Nat) : Steady (readDecimalReference start) := by
  refine .bind (allows_steady _) fun _ => ?_
  grind

@[grind ←]
theorem readQuote_steady (start : Nat) : Steady (readQuote start) := by
  refine .bind here_steady fun _ => .bind .read fun _ => .bind (jump_steady _) fun _ => ?_
  grind

@[grind ←]
theorem readCharEscape_steady (start : Nat) : Steady (readCharEscape start) := by
  grind [readCharEscape]

@[grind ←]
theorem readNamedTarget_steady (close : Char) (start : Nat) (isCall : Bool) :
    Steady (readNamedTarget close start isCall) := by grind [readNamedTarget]

@[grind ←]
theorem readEscape_steady : Steady readEscape := by
  refine .bind here_steady fun start => .bind .read fun _ => .bind .get fun _ =>
    .bind (skip_steady 1) fun _ => .bind peek_steady fun c => ?_
  split
  · grind
  · refine .bind (peekAt_steady 1) fun next => ?_
    dsimp only
    split
    · grind
    · refine .bind seesProperty_steady fun _ => .ite (by grind) ?_
      split
      · grind
      · refine .ite (by grind) (.ite (by grind) (.ite (by grind) (.ite ?_ ?_)))
        all_goals grind

@[grind ←]
theorem readLooseRepeat_steady (invalid : Bool) (start len : Nat) :
    Steady (readLooseRepeat invalid start len) := by grind [readLooseRepeat]

@[grind ←]
theorem readPlainAtom_steady (start : Nat) : Steady (readPlainAtom start) := by
  refine .bind .read fun _ => .bind .get fun _ => .bind peek_steady fun c => ?_
  grind

/-! ## Repeats -/

@[grind ←]
theorem readIntervalBody_steady (escaped : Bool) : Steady (readIntervalBody escaped) := by
  refine .bind readDecimal_steady fun low => .bind (eat_steady _) fun _ => ?_
  grind

@[grind ←]
theorem readInterval_steady (len : Nat) : Steady (readInterval len) := by
  refine .bind here_steady fun _ => .bind (skip_steady _) fun _ =>
    .bind (readIntervalBody_steady _) fun body => ?_
  grind

@[grind ←]
theorem seesInterval_steady (len : Nat) : Steady (seesInterval len) := by grind [seesInterval]

@[grind ←]
theorem readRepeatSign_steady : Steady readRepeatSign := by grind [readRepeatSign]

@[grind ←]
theorem readMode_steady (r : RepeatSign) : Steady (readMode r) := by
  refine .bind (behaves_steady _) fun _ => .bind (sees_steady _) fun _ => ?_
  grind

@[grind ←]
theorem checkRepeatTarget_steady (n : Node Span) (again : Bool) (sign : Nat) :
    Steady (checkRepeatTarget n again sign) := by
  unfold checkRepeatTarget
  split <;> grind

theorem readAtom_steady (sign : Option (Sign × Nat)) : Steady (readAtom sign) := by
  refine .bind here_steady fun _ => .bind (behaves_steady _) fun _ => ?_
  grind

end RegexMachine.Pattern
