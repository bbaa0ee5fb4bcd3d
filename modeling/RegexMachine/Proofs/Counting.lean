import RegexMachine.Proofs.Readers
import RegexMachine.Proofs.References

/-!
How groups are counted. A group that is opened gets the number after the last one; only the beginnings
of capture groups open any.
-/
namespace RegexMachine.Pattern

theorem parse_bind_ok {α β : Type} {x : Parse α} {f : α → Parse β} {s : Reading} {c c' : Cursor}
    {b : β} (h : (x >>= f) s c = .ok b c') : ∃ a c₁, x s c = .ok a c₁ ∧ f a s c₁ = .ok b c' := by
  change EStateM.bind (x s) (fun a => f a s) c = .ok b c' at h
  unfold EStateM.bind at h
  split at h
  · exact ⟨_, _, by assumption, h⟩
  · cases h

/-! ## Opening groups -/

theorem checkName_steady (raw : Nat) (name : String) (start : Nat) :
    Steady (checkName raw name start) :=
  .bind (.modify fun _ => ⟨rfl, rfl⟩) fun _ => by grind

theorem openGroup_ok {name : Option String} {start raw : Nat} {s : Reading} {c c' : Cursor}
    (h : openGroup name start s c = .ok raw c') :
    raw = c.groupCount + 1 ∧ c'.groupCount = c.groupCount + 1 ∧
      c'.groups = defineGroup c.groups raw name := by
  obtain ⟨_, c₁, hcount, h⟩ := parse_bind_ok h
  cases hcount
  obtain ⟨_, c₂, hget, h⟩ := parse_bind_ok h
  cases hget
  obtain ⟨_, c₃, hread, h⟩ := parse_bind_ok h
  cases hread
  dsimp only at h
  split at h
  · obtain ⟨_, _, hreject, -⟩ := parse_bind_ok h
    exact ((Ensures.rejectSince (P := fun _ => False) _ _) _ _ _ _ hreject).elim
  · cases name with
    | none =>
      obtain ⟨_, c₂, hdefine, h⟩ := parse_bind_ok h
      cases hdefine
      cases h
      exact ⟨rfl, rfl, rfl⟩
    | some n =>
      obtain ⟨_, c₁, hcheck, h⟩ := parse_bind_ok h
      obtain ⟨hgroups, hcount⟩ := checkName_steady _ _ _ _ _ _ _ hcheck
      obtain ⟨_, c₂, hdefine, h⟩ := parse_bind_ok h
      cases hdefine
      cases h
      exact ⟨rfl, hcount, by rw [← hgroups]⟩

theorem size_defineGroup {groups : Array GroupDef} {raw : Nat} {name : Option String}
    (h : raw ≤ groups.size + 1) (hpos : 0 < raw) :
    (defineGroup groups raw name).size = max groups.size raw := by
  unfold defineGroup
  cases hg : groups[raw - 1]? with
  | none =>
    have := Array.getElem?_eq_none_iff.mp hg
    simp only [Array.size_push]
    omega
  | some g =>
    have := (Array.getElem?_eq_some_iff.mp hg).1
    simp only [Array.size_setIfInBounds]
    omega

/-! ## Readers that open no groups -/

@[grind ←]
theorem plainBody_steady (frame : Frame) : Steady (plainBody frame) := by grind [plainBody]

@[grind ←]
theorem readRemark_steady (start : Nat) : Steady (readRemark start) := by grind [readRemark]

@[grind ←]
theorem readPerlCall_steady (start : Nat) : Steady (readPerlCall start) := by
  refine .bind peek_steady fun c => ?_
  grind

@[grind ←]
theorem quotedCondition_steady (close : Char) (first start : Nat) :
    Steady (quotedCondition close first start) := by grind [quotedCondition]

@[grind ←]
theorem openCondition_steady (start : Nat) : Steady (openCondition start) := by
  refine .bind (skip_steady 1) fun _ => .bind here_steady fun first => .bind peek_steady fun c => ?_
  grind

@[grind ←]
theorem readOptions_steady (start : Nat) (off : Bool) (o : Options) (fuel : Nat) :
    Steady (readOptions start off o fuel) := by
  induction fuel generalizing off o with
  | zero => exact stall_steady
  | succ fuel ih =>
    unfold readOptions
    refine .bind peek_steady fun c => ?_
    grind

@[grind ←]
theorem readRepeats_steady (n : Node Span) (start : Nat) (again : Bool) (fuel : Nat) :
    Steady (readRepeats n start again fuel) := by
  induction fuel generalizing n again with
  | zero => exact stall_steady
  | succ fuel ih =>
    unfold readRepeats
    refine .bind skipExtended_steady fun _ => .bind here_steady fun _ =>
      .bind readRepeatSign_steady fun r => ?_
    grind

@[grind ←]
theorem closeGroup_steady (start : Nat) : Steady (closeGroup start) := by grind [closeGroup]

@[grind ←]
theorem conditionBranches_steady (start : Nat) (body : Node Span) :
    Steady (conditionBranches start body) := by
  unfold conditionBranches
  split <;> grind

@[grind ←]
theorem closeFrame_steady (frame : Frame) (body : Node Span) (start : Nat) :
    Steady (closeFrame frame body start) := by
  refine .bind here_steady fun _ => ?_
  grind

@[grind ←]
theorem endsSequence_steady (sign : Option (Sign × Nat)) : Steady (endsSequence sign) := by
  unfold endsSequence
  split <;> grind

/-! ## Counting groups -/

/-- What is known of an answer and of the last number given, where reading began after a certain
number. -/
def Counts {α : Type} (last : Nat) (x : Parse α) (q : α → Nat → Prop) : Prop :=
  ∀ s c a c', c.groupCount = last → x s c = .ok a c' → q a c'.groupCount

namespace Counts

variable {α β : Type} {last : Nat} {q : α → Nat → Prop} {r : β → Nat → Prop}

theorem pure {a : α} (h : q a last) : Counts last (pure a : Parse α) q := fun _ _ _ _ hc hr => by
  cases hr
  exact hc ▸ h

theorem bind {x : Parse α} {f : α → Parse β} (hx : Counts last x q)
    (hf : ∀ a next, q a next → Counts next (f a) r) : Counts last (x >>= f) r := by
  intro s c b c' hc h
  obtain ⟨a, c₁, ha, hb⟩ := parse_bind_ok h
  exact hf a _ (hx s c a c₁ hc ha) s c₁ b c' rfl hb

theorem mono {x : Parse α} {q' : α → Nat → Prop} (h : Counts last x q)
    (hq : ∀ a next, q a next → q' a next) : Counts last x q' :=
  fun s c a c' hc hr => hq a _ (h s c a c' hc hr)

theorem ite {b : Prop} [Decidable b] {x y : Parse α} (hx : Counts last x q) (hy : Counts last y q) :
    Counts last (if b then x else y) q := by
  split
  · exact hx
  · exact hy

/-- What is ensured besides. -/
theorem and {P : α → Prop} {x : Parse α} (h : Counts last x q) (hP : Ensures P x) :
    Counts last x fun a next => q a next ∧ P a :=
  fun s c a c' hc hr => ⟨h s c a c' hc hr, hP s c a c' hr⟩

/-- Where no groups are opened, the last number stays. -/
theorem knowing {P : α → Prop} {x : Parse α} {f : α → Parse β} (hx : Steady x) (hP : Ensures P x)
    (hf : ∀ a, P a → Counts last (f a) r) : Counts last (x >>= f) r := by
  intro s c b c' hc h
  obtain ⟨a, c₁, ha, hb⟩ := parse_bind_ok h
  exact hf a (hP s c a c₁ ha) s c₁ b c' ((hx s c a c₁ ha).2.trans hc) hb

theorem after {x : Parse α} {f : α → Parse β} (hx : Steady x) (hf : ∀ a, Counts last (f a) r) :
    Counts last (x >>= f) r :=
  knowing (P := fun _ => True) hx (fun _ _ _ _ _ => trivial) fun a _ => hf a

theorem get {f : Cursor → Parse β} (hf : ∀ c : Cursor, c.groupCount = last → Counts last (f c) r) :
    Counts last (get >>= f) r := fun s c b c' hc h => hf c hc s c b c' hc h

theorem set {m : Nat} {f : Unit → Parse β} (hf : Counts m (f ()) r) :
    Counts last (setGroupCount m >>= f) r := fun s c b c' _ h =>
  hf s { c with groupCount := m } b c' rfl h

theorem reject {flaw : Flaw} {start stop : Nat} : Counts last (Pattern.reject flaw start stop) q :=
  fun _ _ _ _ _ h => nomatch h

theorem rejectSince {flaw : Flaw} {start : Nat} : Counts last (Pattern.rejectSince flaw start) q :=
  after here_steady fun _ => reject

theorem stall : Counts last Pattern.stall q := fun _ _ _ _ _ h => nomatch h

end Counts

/-! ## Beginnings of groups -/

/-- Numbers of the group that a frame is for. -/
def Frame.numbers : Frame → List Nat
  | .group (.capture raw _) => [raw]
  | _ => []

/-- Numbers that come with the beginning of a group. -/
def Opening.numbers : Opening → List Nat
  | .body frame _ _ => frame.numbers
  | _ => []

/-- A group that begins gets a number beyond the last one. -/
def Opens (last : Nat) (x : Parse Opening) : Prop :=
  Counts last x fun o next => last ≤ next ∧ ∀ k ∈ o.numbers, last < k ∧ k ≤ next

theorem openCapture_opens (last : Nat) (name : Option String) (start : Nat) :
    Opens last (openCapture name start) := by
  have hopen : Counts last (openGroup name start) fun raw next => raw = last + 1 ∧ next = last + 1 := by
    intro s c raw c' hc h
    obtain ⟨rfl, hcount, -⟩ := openGroup_ok h
    exact ⟨by rw [hc], by rw [hcount, hc]⟩
  refine hopen.bind fun raw next hraw => .after .get fun _ => .pure ?_
  obtain ⟨rfl, rfl⟩ := hraw
  refine ⟨Nat.le_succ _, fun k hk => ?_⟩
  obtain rfl := List.mem_singleton.mp hk
  exact ⟨Nat.lt_succ_self _, Nat.le_refl _⟩

namespace Opens

variable {last : Nat}

/-- A beginning that opens no group. -/
theorem nothing {o : Opening} (h : o.numbers = []) : Opens last (pure o) :=
  Counts.pure ⟨Nat.le_refl _, fun k hk => by rw [h] at hk; cases hk⟩

theorem plain {frame : Frame} (h : frame.numbers = []) : Opens last (plainBody frame) :=
  Counts.after .get fun _ => nothing h

theorem skipped {frame : Frame} {k : Nat} (h : frame.numbers = []) : Opens last (do
    skip k
    plainBody frame) := Counts.after (skip_steady k) fun _ => plain h

theorem whole {x : Parse (Node Span)} (hx : Steady x) : Opens last (return .whole (← x)) :=
  Counts.after hx fun _ => nothing rfl

theorem openNamed (close : Char) (start : Nat) : Opens last (openNamed close start) :=
  Counts.after (skip_steady 1) fun _ => Counts.after (readName_steady _ _) fun _ =>
    openCapture_opens _ _ _

theorem readRemark (start : Nat) : Opens last (readRemark start) := by
  refine Counts.after here_steady fun _ => Counts.after .read fun _ => Counts.after (jump_steady _) fun _ =>
    Counts.after (eat_steady _) fun _ => ?_
  exact Counts.ite (Counts.after (rejectSince_steady _ _) fun _ => nothing rfl) (nothing rfl)

theorem openNamedByP (start : Nat) : Opens last (openNamedByP start) := by
  refine Counts.after (skip_steady 1) fun _ => Counts.after peek_steady fun c => ?_
  split
  · exact openNamed _ _
  · exact Counts.after (skip_steady 1) fun _ => Counts.after (readName_steady _ _) fun _ => whole (by grind)
  · exact Counts.after (skip_steady 1) fun _ => Counts.after (readName_steady _ _) fun _ => whole (by grind)
  · exact Counts.rejectSince

theorem readPerlCall (start : Nat) : Opens last (readPerlCall start) := by
  refine Counts.after peek_steady fun c => ?_
  split
  · exact Counts.after (skip_steady 1) fun _ => Counts.after (eat_steady _) fun _ => Counts.ite
      (Counts.after (rejectSince_steady _ _) fun _ => whole (by grind)) (whole (by grind))
  · exact Counts.after (skip_steady 1) fun _ => Counts.after (readName_steady _ _) fun _ => whole (by grind)
  · exact Counts.after (by grind) fun _ => whole (by grind)

theorem openCondition (start : Nat) : Opens last (openCondition start) := by
  have hrest (target : Target) (first : Nat) : Opens last (do
      noteNumbered target first
      plainBody (.condition target)) := Counts.after (by grind) fun _ => plain rfl
  refine Counts.after (skip_steady 1) fun _ => Counts.after here_steady fun first =>
    Counts.after peek_steady fun c => ?_
  dsimp only
  split
  · exact Counts.after (rejectSince_steady _ _) fun _ => hrest _ _
  · exact Counts.after (rejectSince_steady _ _) fun _ => hrest _ _
  · exact Counts.after (by grind) fun _ => hrest _ _
  · exact Counts.after (by grind) fun _ => hrest _ _
  · exact Counts.ite (Counts.after (by grind) fun _ => hrest _ _)
      (Counts.after (by grind) fun _ => Counts.after (by grind) fun _ => hrest _ _)

theorem readOptions (start : Nat) (off : Bool) (o : Options) (fuel : Nat) :
    Opens last (readOptions start off o fuel) := by
  induction fuel generalizing off o with
  | zero => exact Counts.stall
  | succ fuel ih =>
    unfold Pattern.readOptions
    refine Counts.after peek_steady fun c => ?_
    split
    · exact Counts.rejectSince
    · refine Counts.after (skip_steady 1) fun _ => Counts.ite (nothing rfl) (Counts.ite (nothing rfl)
        (Counts.ite (ih _ _) (Counts.after .read fun d => ?_)))
      split
      · exact ih _ _
      · exact Counts.rejectSince

theorem readExtension (start : Nat) : Opens last (readExtension start) := by
  unfold Pattern.readExtension
  refine Counts.after .read fun _ => Counts.after (peekAt_steady 1) fun _ => Counts.after peek_steady fun c => ?_
  split
  · exact Counts.rejectSince
  · refine Counts.ite (skipped rfl) (Counts.ite (skipped rfl) (Counts.ite (skipped rfl)
      (Counts.ite (skipped rfl) (Counts.ite (openNamed _ _) (Counts.ite (openNamed _ _)
        (Counts.ite (readRemark _) (Counts.ite ?_ ?_)))))))
    · exact Counts.after (skip_steady 1) fun _ => Counts.after (sees_steady _) fun _ => Counts.ite
        (Counts.after here_steady fun _ => Counts.after (reject_steady _ _ _) fun _ => plain rfl)
        (plain rfl)
    refine Counts.ite (Counts.after (skip_steady 1) fun _ => Counts.after .get fun _ => nothing rfl)
      (Counts.ite (openCondition _) (Counts.ite (openNamedByP _) (Counts.ite (readPerlCall _)
        (Counts.ite (readPerlCall _) ?_))))
    exact Counts.after .get fun _ => Counts.after .read fun _ => readOptions _ _ _ _

theorem readOpening (start len : Nat) : Opens last (readOpening start len) := by
  refine Counts.after (skip_steady len) fun _ => Counts.after (sees_steady _) fun _ =>
    Counts.after (allows_steady _) fun _ => Counts.ite ?_ ?_
  · exact Counts.after (skip_steady 1) fun _ => readExtension _
  · exact Counts.after (hasOption_steady _) fun _ => Counts.ite (plain rfl) (openCapture_opens _ _ _)

end Opens

end RegexMachine.Pattern
