import RegexMachine.Proofs.AtomLandings

/-!
How the readers of group beginnings and group ends end.
-/
namespace RegexMachine.Pattern

variable {s : Reading} {c c' : Cursor}

@[simp]
theorem lands_plainBody {frame : Frame} {Q : Opening → Cursor → Prop} :
    Lands s c (plainBody frame) Q ↔ Q (.body frame false c.options) c := Iff.rfl

/-! ## Capture groups -/

theorem checkName_takes (raw : Nat) (name : String) (start : Nat) :
    Takes 0 0 (checkName raw name start) := by
  intro s c hc
  simp only [checkName, lands_bind, lands_modify, lands_get, lands_behaves]
  refine .ite (fun _ => trivial) fun _ => ?_
  simp only [lands_pure]
  grind

theorem openGroup_takes (name : Option String) (start : Nat) : Takes 0 0 (openGroup name start) := by
  intro s c hc
  simp only [openGroup, lands_bind, lands_modify, lands_get, lands_read]
  refine .ite (fun _ => trivial) fun _ => ?_
  cases name with
  | none =>
    simp only [lands_bind, lands_modify, lands_pure]
    grind
  | some name =>
    simp only [lands_bind, lands_modify, lands_pure]
    exact (checkName_takes (c.groupCount + 1) name start).then (by grind) fun _ c₁ h₁ => by grind

theorem openCapture_takes (name : Option String) (start : Nat) :
    Takes 0 0 (openCapture name start) := by
  intro s c hc
  simp only [openCapture, lands_bind, lands_plainBody]
  exact openGroup_takes name start s c hc

theorem openNamed_takes (close : Char) (start : Nat) : Takes 1 1 (openNamed close start) := by
  intro s c hc
  simp only [openNamed, lands_bind, lands_skip]
  refine (readName_takes close start).then (by grind) fun name c₁ h₁ => ?_
  exact (openCapture_takes (some name) start).then (by grind) fun _ c₂ h₂ => by grind

/-! ## Comments, calls and references -/

theorem le_remarkEnd (b : Bytes) (i n : Nat) : i ≤ remarkEnd b i n := by
  induction n generalizing i with
  | zero => exact Nat.le_refl _
  | succ n ih =>
    have := ih (i + 1)
    have := ih (i + 2)
    unfold remarkEnd
    split <;> omega

/-- A backslash at the end takes the cursor past it; then no parenthesis follows. -/
theorem readRemark_takes (start : Nat) : Takes 0 0 (readRemark start) := by
  intro s c hc
  have hend := le_remarkEnd s.pattern c.pos (s.pattern.size - c.pos)
  simp only [readRemark, lands_bind, lands_here, lands_read, lands_jump, lands_eat]
  split
  · simp only [Bool.not_true, Bool.false_eq_true, if_false, lands_pure]
    grind
  · trivial

/-- A reference by name up to the parenthesis. -/
theorem namedWhole_takes {node : Target → Nat → Parse (Node Span)}
    (hnode : ∀ t i, Takes 0 0 (node t i)) (start : Nat) :
    Takes 0 0 (do return Opening.whole (← node (.name (← readName ')' start)) start)) := by
  intro s c hc
  simp only [lands_bind, lands_pure]
  refine (readName_takes ')' start).then hc fun name c₁ h₁ => ?_
  exact (hnode (.name name) start).onward h₁ h₁.inside (Nat.zero_le _)

theorem openNamedByP_takes (start : Nat) : Takes 1 1 (openNamedByP start) := by
  intro s c hc
  simp only [openNamedByP, lands_bind, lands_skip, lands_peek]
  split
  · rename_i hx
    exact (openNamed_takes '>' start).then (by grind) fun _ _ h₁ => by grind
  · rename_i hx
    exact (namedWhole_takes referenceNode_takes start).skip.then (by grind) fun _ _ h₁ => by grind
  · rename_i hx
    exact (namedWhole_takes callNode_takes start).skip.then (by grind) fun _ _ h₁ => by grind
  · trivial

theorem readPerlCall_takes (start : Nat) : Takes 0 0 (readPerlCall start) := by
  intro s c hc
  simp only [readPerlCall, lands_bind, lands_peek]
  split
  · rename_i hx
    simp only [lands_bind, lands_skip]
    refine (eat_takes ')').then (by grind) fun closed c₁ h₁ => .ite (fun _ => trivial) fun _ => ?_
    exact (callNode_takes (.number 0) start).map.then (by grind) fun _ c₂ h₂ => by grind
  · rename_i hx
    exact (namedWhole_takes callNode_takes start).skip.lands (by grind) (Nat.zero_le _)
  · simp only [lands_bind, lands_pure]
    refine (readTarget_takes ')' start true).then hc fun target c₁ h₁ => ?_
    exact (callNode_takes target start).onward h₁ h₁.inside (Nat.zero_le _)

/-! ## Conditions -/

theorem quotedCondition_takes (close : Char) (first start : Nat) :
    Takes 1 1 (quotedCondition close first start) := by
  intro s c hc
  simp only [quotedCondition, lands_bind, lands_skip]
  refine (readTarget_takes close first false).then (by grind) fun target c₁ h₁ => ?_
  refine (eat_takes ')').then h₁.inside fun closed c₂ h₂ => .ite (fun _ => trivial) fun _ => ?_
  simp only [lands_pure]
  grind

/-- What is done with the target of a condition takes nothing more. -/
theorem conditionBody_takes {n k : Nat} {x : Parse Target} (hx : Takes n k x) (first : Nat) :
    Takes n k (do
      let target ← x
      noteNumbered target first
      plainBody (.condition target)) := by
  intro s c hc
  simp only [lands_bind, lands_plainBody]
  refine hx.then hc fun target c₁ h₁ => ?_
  exact (noteNumbered_takes target first).onward h₁ h₁.inside (Nat.le_refl _)

theorem openCondition_takes (start : Nat) : Takes 1 1 (openCondition start) := by
  intro s c hc
  have h₁ : c.Onward s 1 { c with pos := c.pos + 1 } := by grind
  simp only [openCondition, lands_bind, lands_here, lands_skip, lands_peek]
  split
  · trivial
  · trivial
  · rename_i hx
    exact (conditionBody_takes (quotedCondition_takes '>' (c.pos + 1) start) _).onward h₁
      (by grind) (by omega)
  · rename_i hx
    exact (conditionBody_takes (quotedCondition_takes '\'' (c.pos + 1) start) _).onward h₁
      (by grind) (by omega)
  · refine .ite (fun _ => ?_) fun _ => ?_
    · exact (conditionBody_takes (readTarget_takes ')' (c.pos + 1) false) _).onward h₁ h₁.inside
        (Nat.le_refl _)
    · have hname := (conditionBody_takes ((readName_takes ')' (c.pos + 1)).map (f := Target.name))
        (c.pos + 1)).onward h₁ h₁.inside (Nat.le_refl _)
      simpa only [lands_bind, lands_pure] using hname

/-! ## Openings -/

/-- Every letter is one byte. -/
theorem readOptions_lands (start : Nat) (off : Bool) (o : Options) (fuel : Nat)
    (hc : c.pos ≤ s.pattern.size) (hfuel : s.pattern.size - c.pos < fuel) :
    Lands s c (readOptions start off o fuel) fun _ c' => c.Onward s 0 c' := by
  induction fuel generalizing c off o with
  | zero => omega
  | succ fuel ih =>
    simp only [readOptions, lands_bind, lands_peek]
    cases hx : s.charAt c.pos with
    | none => trivial
    | some x =>
      have hlt := Reading.charAt_lt hx
      have hmore (off : Bool) (o : Options) : Lands s { c with pos := c.pos + 1 }
          (readOptions start off o fuel) fun _ c' => c.Onward s 0 c' :=
        (ih (c := { c with pos := c.pos + 1 }) off o (by grind) (by grind)).mono
          fun _ _ h₁ => by grind
      simp only [lands_bind, lands_skip]
      refine .ite (fun _ => ?_) fun _ => .ite (fun _ => ?_) fun _ => .ite (fun _ => hmore _ _)
        fun _ => ?_
      · simp only [lands_pure]
        grind
      · simp only [lands_pure]
        grind
      · simp only [lands_bind, lands_read]
        cases optionLetter? s.dialect off o x with
        | none => trivial
        | some o => exact hmore _ _

/-- A body after a sign of one byte. -/
theorem signedBody_takes (frame : Frame) : Takes 1 1 (do
    skip 1
    plainBody frame) := by
  intro s c hc
  simp only [lands_bind, lands_skip, lands_plainBody]
  grind

theorem readExtension_takes (start : Nat) : Takes 0 0 (readExtension start) := by
  intro s c hc
  simp only [readExtension, lands_bind, lands_read, lands_peekAt, lands_peek]
  cases hx : s.charAt c.pos with
  | none => trivial
  | some x =>
    have hlt := Reading.charAt_lt hx
    have hbody {frame : Frame} := (signedBody_takes frame).lands (s := s) (c := c) hlt (Nat.zero_le _)
    dsimp only
    refine .ite (fun _ => hbody) fun _ => .ite (fun _ => hbody) fun _ => .ite (fun _ => hbody)
      fun _ => .ite (fun hlook => ?_) fun _ => .ite (fun _ => ?_) fun _ => .ite (fun _ => ?_)
      fun _ => .ite (fun _ => ?_) fun _ => .ite (fun _ => ?_) fun _ => ?_
    · simp only [lands_bind, lands_skip, lands_plainBody]
      grind
    · exact (openNamed_takes '>' start).lands hlt (Nat.zero_le _)
    · exact (openNamed_takes '\'' start).lands hlt (Nat.zero_le _)
    · exact readRemark_takes start s c hc
    · simp only [lands_bind, lands_skip, lands_sees]
      refine .ite (fun _ => trivial) fun _ => ?_
      rw [lands_plainBody]
      grind
    refine .ite (fun _ => ?_) fun _ => .ite (fun _ => ?_) fun _ => .ite (fun _ => ?_) fun _ =>
      .ite (fun _ => ?_) fun _ => .ite (fun _ => ?_) fun _ => ?_
    · simp only [lands_bind, lands_skip, lands_get, lands_pure]
      grind
    · exact (openCondition_takes start).lands hlt (Nat.zero_le _)
    · exact (openNamedByP_takes start).lands hlt (Nat.zero_le _)
    · exact readPerlCall_takes start s c hc
    · exact readPerlCall_takes start s c hc
    · simp only [lands_bind, lands_get, lands_read]
      exact readOptions_lands start false c.options _ hc (by omega)

/-- The parenthesis itself is not empty. -/
theorem readOpening_lands (start : Nat) {len : Nat} (hlen : 0 < len)
    (hc : c.pos + len ≤ s.pattern.size) :
    Lands s c (readOpening start len) fun _ c' => c.Onward s 1 c' := by
  have h₁ : c.Onward s 1 { c with pos := c.pos + len } := by grind
  simp only [readOpening, lands_bind, lands_skip, lands_sees, lands_allows]
  refine .ite (fun hmark => ?_) fun _ => ?_
  · simp only [lands_bind, lands_skip]
    exact (readExtension_takes start).then (by grind) fun _ _ h₂ => by grind
  · simp only [lands_bind, lands_hasOption]
    refine .ite (fun _ => ?_) fun _ => ?_
    · rw [lands_plainBody]
      exact h₁
    · exact (openCapture_takes none start).onward h₁ h₁.inside (Nat.le_refl _)

/-! ## Ends -/

theorem closeGroup_takes (start : Nat) : Takes 0 1 (closeGroup start) := by
  intro s c hc
  simp only [closeGroup, lands_bind, lands_peekSign]
  split
  · rename_i len hsign
    rw [lands_skip]
    grind
  · trivial

theorem conditionBranches_lands (start : Nat) (body : Node Span) :
    Lands s c (conditionBranches start body) fun _ c' => c' = c := by
  unfold conditionBranches
  split
  · rfl
  · trivial
  · rfl

theorem closeFrame_lands (frame : Frame) (body : Node Span) (start : Nat) :
    Lands s c (closeFrame frame body start) fun _ c' => c' = c := by
  simp only [closeFrame, lands_bind, lands_here]
  cases frame with
  | group kind => rfl
  | look kind => rfl
  | condition target =>
    simp only [lands_bind, lands_pure]
    exact conditionBranches_lands start body

end RegexMachine.Pattern
