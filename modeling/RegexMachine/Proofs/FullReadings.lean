import RegexMachine.Proofs.GroupLandings

/-!
Reading consumes the whole pattern or rejects it. What stands in parentheses or brackets leaves the
nesting and the options as they were; options that are set for the rest of a group are in effect up
to the parenthesis that closes it, and no further.
-/
namespace RegexMachine.Pattern

variable {s : Reading} {c c' : Cursor}

@[simp]
theorem lands_setGroupCount {n : Nat} {Q : Unit → Cursor → Prop} :
    Lands s c (setGroupCount n) Q ↔ Q () { c with groupCount := n } := Iff.rfl

/-- The enclosing group ends here: at the end of the pattern, or at a parenthesis that closes. -/
def Cursor.Closes (s : Reading) (c : Cursor) : Prop :=
  s.pattern.size ≤ c.pos ∨ c.depth ≠ 0 ∧ ∃ len, s.signAt c.pos = some (.closing, len)

/-- A branch ends here. -/
def Cursor.Ends (s : Reading) (c : Cursor) : Prop :=
  c.Closes s ∨ ∃ len, s.signAt c.pos = some (.bar, len)

/-- Reading has moved on at the same depth, and the options are as before or the enclosing group
ends. -/
structure Cursor.Reaches (s : Reading) (c c' : Cursor) : Prop where
  advance : c.pos ≤ c'.pos
  inside : c'.pos ≤ s.pattern.size
  depth : c'.depth = c.depth
  options : c'.options = c.options ∨ c'.Closes s

theorem Cursor.Onward.reaches {k : Nat} {c'' : Cursor} (h : c.Onward s k c')
    (h' : c'.Reaches s c'') : c.Reaches s c'' where
  advance := by grind [h'.advance]
  inside := h'.inside
  depth := h'.depth.trans h.depth
  options := h'.options.imp_left fun ho => ho.trans h.options

/-- No group ends before a bar, so that the options there are those of the beginning. -/
theorem Cursor.Reaches.onward_of_bar {len : Nat} (h : c.Reaches s c')
    (hsign : s.signAt c'.pos = some (.bar, len)) : c.Onward s 0 c' where
  advance := h.advance
  inside := h.inside
  depth := h.depth
  options := by
    refine h.options.resolve_right fun hcloses => ?_
    have hin := Reading.signAt_bounds hsign
    obtain hend | ⟨-, _, hclosing⟩ := hcloses
    · omega
    · rw [hsign] at hclosing
      cases hclosing

theorem endsSequence_lands (hc : c.pos ≤ s.pattern.size) :
    Lands s c (endsSequence (s.signAt c.pos)) fun ends c' =>
      c' = c ∧ if ends then c.Ends s else c.pos < s.pattern.size := by
  simp only [endsSequence]
  split
  · rename_i len hsign
    exact ⟨rfl, .inr ⟨len, hsign⟩⟩
  · rename_i len hsign
    have hin := Reading.signAt_bounds hsign
    simp only [lands_bind, lands_get]
    refine .ite (fun _ => ?_) fun hdepth => ?_
    · simp only [lands_bind, lands_here, lands_behaves]
      refine .ite (fun _ => trivial) fun _ => ⟨rfl, ?_⟩
      simp only [Bool.false_eq_true, if_false]
      omega
    · exact ⟨rfl, .inl (.inr ⟨by simpa using hdepth, len, hsign⟩)⟩
  · rw [lands_atEnd]
    refine ⟨rfl, ?_⟩
    split
    · rename_i hend
      exact .inl (.inl (by simpa using hend))
    · rename_i hend
      simpa using hend

/-- With enough fuel for what is left of the pattern, branches, sequences and pieces are read up to
where they end. -/
structure GrammarLands (fuel : Nat) : Prop where
  branches : ∀ {s c} start base highest reset done, c.pos ≤ s.pattern.size →
    3 * (s.pattern.size - c.pos) + 2 ≤ fuel →
    Lands s c (readBranches start base highest reset done fuel) fun _ c' =>
      c.Reaches s c' ∧ c'.Closes s
  sequence : ∀ {s c} start done, c.pos ≤ s.pattern.size →
    3 * (s.pattern.size - c.pos) + 1 ≤ fuel →
    Lands s c (readSequence start done fuel) fun _ c' => c.Reaches s c' ∧ c'.Ends s
  piece : ∀ {s c}, c.pos < s.pattern.size → 3 * (s.pattern.size - c.pos) ≤ fuel →
    Lands s c (readPiece (s.signAt c.pos) fuel) fun _ c' => c.Onward s 1 c'

variable {fuel : Nat}

/-- The body of a group ends at its parenthesis, where the level and the options are given back. -/
theorem GrammarLands.piece_succ (h : GrammarLands fuel) (hc : c.pos < s.pattern.size)
    (hfuel : 3 * (s.pattern.size - c.pos) ≤ fuel + 1) :
    Lands s c (readPiece (s.signAt c.pos) (fuel + 1)) fun _ c' => c.Onward s 1 c' := by
  simp only [readPiece]
  split
  · rename_i len hsign
    obtain ⟨hlen, hin⟩ := Reading.signAt_bounds hsign
    simp only [lands_bind, lands_here]
    refine (readOpening_lands c.pos hlen hin).mono fun opening c₁ h₁ => ?_
    cases opening with
    | comment => exact h₁
    | rest options => exact h₁
    | whole n => exact h₁
    | body frame reset options =>
      simp only [lands_bind, lands_descend, lands_get, lands_modify, lands_here, lands_ascend,
        lands_pure]
      intro _
      refine (h.branches c₁.pos c₁.groupCount c₁.groupCount reset [] (by grind)
        (by grind)).mono fun body c₂ h₂ => ?_
      obtain ⟨hreach, -⟩ := h₂
      refine (closeGroup_takes c.pos).then hreach.inside fun _ c₃ h₃ => ?_
      refine (closeFrame_lands frame body c.pos).mono fun n c₄ h₄ => ?_
      have hdepth := hreach.depth
      have hadvance := hreach.advance
      subst h₄
      grind
  · simp only [lands_bind, lands_pure]
    exact readAtom_lands rfl hc

/-- A piece is never empty. Options for the rest of the group hand that rest to branches of their
own, and these end where the group does. -/
theorem GrammarLands.sequence_succ (h : GrammarLands fuel) (start : Nat) (done : List (Node Span))
    (hc : c.pos ≤ s.pattern.size) (hfuel : 3 * (s.pattern.size - c.pos) + 1 ≤ fuel + 1) :
    Lands s c (readSequence start done (fuel + 1)) fun _ c' => c.Reaches s c' ∧ c'.Ends s := by
  have hrest {c₁ : Cursor} (done : List (Node Span)) (h₁ : c.Onward s 1 c₁) :
      Lands s c₁ (readSequence start done fuel) fun _ c' => c.Reaches s c' ∧ c'.Ends s :=
    (h.sequence start done h₁.inside (by grind)).mono fun _ _ h₂ => ⟨h₁.reaches h₂.1, h₂.2⟩
  simp only [readSequence, lands_bind]
  refine skipExtended_takes.then hc fun _ c₁ h₁ => ?_
  simp only [lands_peekSign, lands_here]
  refine (endsSequence_lands h₁.inside).mono fun ends c₂ h₂ => ?_
  obtain ⟨rfl, hends⟩ := h₂
  cases ends with
  | true =>
    exact ⟨⟨h₁.advance, h₁.inside, h₁.depth, .inl h₁.options⟩, hends⟩
  | false =>
    have hlt : c₂.pos < s.pattern.size := hends
    simp only [Bool.false_eq_true, if_false, lands_bind]
    refine (h.piece hlt (by grind)).mono fun piece c₃ h₃ => ?_
    have h₃ : c.Onward s 1 c₃ := by grind
    cases piece with
    | nothing => exact hrest done h₃
    | node n =>
      simp only [lands_bind, lands_read]
      refine (readRepeats_lands n c₂.pos false _ h₃.inside (by omega)).mono fun n c₄ h₄ => ?_
      exact hrest (n :: done) (h₃.trans h₄)
    | rest options =>
      simp only [lands_bind, lands_modify, lands_here, lands_get, lands_pure]
      refine (h.branches c₃.pos c₃.groupCount c₃.groupCount false [] (by grind) (by grind)).mono
        fun n c₄ h₄ => ?_
      obtain ⟨hreach, hcloses⟩ := h₄
      refine ⟨⟨?_, hreach.inside, hreach.depth.trans h₃.depth, .inr hcloses⟩, .inl hcloses⟩
      have hadvance := hreach.advance
      grind

/-- A branch that ends at a bar is followed by another one, under the same options. -/
theorem GrammarLands.branches_succ (h : GrammarLands fuel) (start base highest : Nat) (reset : Bool)
    (done : List (Node Span)) (hc : c.pos ≤ s.pattern.size)
    (hfuel : 3 * (s.pattern.size - c.pos) + 2 ≤ fuel + 1) :
    Lands s c (readBranches start base highest reset done (fuel + 1)) fun _ c' =>
      c.Reaches s c' ∧ c'.Closes s := by
  simp only [readBranches]
  refine .prepared (P := c.Onward s 0) (fun _ => ?_) (by grind) fun c₁ h₁ => ?_
  · rw [lands_setGroupCount]
    grind
  simp only [lands_bind, lands_here, lands_get, lands_peekSign]
  refine (h.sequence c₁.pos [] h₁.inside (by grind)).mono fun branch c₂ h₂ => ?_
  obtain ⟨hreach, hends⟩ := h₂
  split
  · rename_i len hsign
    have hin := Reading.signAt_bounds hsign
    have h₂ : c.Onward s 0 c₂ := h₁.trans (hreach.onward_of_bar hsign)
    have h₃ : c.Onward s 1 { c₂ with pos := c₂.pos + len } := by grind
    simp only [lands_bind, lands_skip]
    refine (h.branches start base _ reset _ h₃.inside (by grind)).mono fun n c₄ h₄ => ?_
    exact ⟨h₃.reaches h₄.1, h₄.2⟩
  · rename_i hbar
    have hcloses : c₂.Closes s := by
      rcases hends with hcloses | ⟨len, hsign⟩
      · exact hcloses
      · exact absurd hsign (hbar len)
    have hstay : c.Reaches s c₂ ∧ c₂.Closes s := ⟨h₁.reaches hreach, hcloses⟩
    refine .prepared (P := fun c' => c.Reaches s c' ∧ c'.Closes s) (fun _ => ?_) hstay
      fun c₃ h₃ => ?_
    · rw [lands_setGroupCount]
      exact ⟨⟨hstay.1.advance, hstay.1.inside, hstay.1.depth, hstay.1.options⟩, hstay.2⟩
    · refine .ite (fun _ => h₃) fun _ => ?_
      simp only [lands_bind, lands_here, lands_pure]
      exact h₃

theorem grammarLands : ∀ fuel, GrammarLands fuel
  | 0 => ⟨fun _ _ _ _ _ _ _ => by omega, fun _ _ _ _ => by omega, fun _ _ => by omega⟩
  | fuel + 1 =>
    have ih := grammarLands fuel
    ⟨ih.branches_succ, ih.sequence_succ, ih.piece_succ⟩

/-! ## Whole patterns -/

/-- At depth 0 no parenthesis closes, so that branches end with the pattern. -/
theorem readPattern_lands (hpos : c.pos = 0) (hdepth : c.depth = 0) :
    Lands s c readPattern fun _ c' => c'.pos = s.pattern.size ∧ c'.depth = 0 := by
  simp only [readPattern, lands_bind, lands_read]
  refine ((grammarLands _).branches 0 0 0 false [] (by omega) (by omega)).mono fun n c₁ h₁ => ?_
  obtain ⟨hreach, hcloses⟩ := h₁
  have hdepth₁ : c₁.depth = 0 := hreach.depth.trans hdepth
  have hend : s.pattern.size ≤ c₁.pos := by
    obtain hend | ⟨hopen, -⟩ := hcloses
    · exact hend
    · exact absurd hdepth₁ hopen
  simp only [lands_atEnd, decide_eq_true hend, if_true, lands_pure]
  exact ⟨Nat.le_antisymm hreach.inside hend, hdepth₁⟩

/-- A pattern is rejected, or it is read up to its last byte with every group closed; nothing else
can happen. On the way, what stands at one place, such as a group, a lookaround, a branch reset, a
conditional or a group of options, takes at least one byte, and it leaves the nesting and the options
as they were. The same holds of brackets. A sequence changes the options only where it goes on to the
end of the group around it. -/
theorem parse_reads_all (s : Setting) (o : Options) (properties : PropertyRegistry) :
    ((∃ e, (parse s o properties).1 = .error (.rejected e)) ∨
      ∃ root c t, readPattern s.reading (Cursor.start o properties) = .ok root c ∧
        c.pos = s.pattern.size ∧ c.depth = 0 ∧ (parse s o properties).1 = .ok t) ∧
    (∀ c fuel, c.pos < s.pattern.size → 3 * (s.pattern.size - c.pos) ≤ fuel →
      Lands s.reading c (readPiece (s.reading.signAt c.pos) fuel)
        (fun _ c' => c.Onward s.reading 1 c') ∧
      Lands s.reading c (readBracket fuel) (fun _ c' => c.Onward s.reading 1 c')) ∧
    ∀ c start done fuel, c.pos ≤ s.pattern.size → 3 * (s.pattern.size - c.pos) + 1 ≤ fuel →
      Lands s.reading c (readSequence start done fuel) fun _ c' =>
        c.Reaches s.reading c' ∧ c'.Ends s.reading := by
  refine ⟨?_, fun c fuel hc hfuel => ⟨?_, ?_⟩, fun c start done fuel hc hfuel => ?_⟩
  · have hread := readPattern_lands (s := s.reading) (c := Cursor.start o properties) rfl rfl
    unfold Lands at hread
    unfold parse
    cases hr : readPattern s.reading (Cursor.start o properties) with
    | error e c =>
      rw [hr] at hread
      cases e with
      | rejected e => exact .inl ⟨e, rfl⟩
      | stalled pos size => exact hread.elim
      | overrun pos size => exact hread.elim
    | ok root c =>
      rw [hr] at hread
      cases ht : resolve s.dialect c root with
      | error e => exact .inl ⟨e, congrArg (Except.mapError Failure.rejected) ht⟩
      | ok t =>
        have hparse := congrArg (Except.mapError Failure.rejected) ht
        exact .inr ⟨root, c, t, rfl, hread.1, hread.2, hparse⟩
  · exact (grammarLands fuel).piece hc hfuel
  · exact (bracketsLand fuel).bracket hc hfuel
  · exact (grammarLands fuel).sequence start done hc hfuel

/-- The pattern `((?i)a|[b])`, with options for the rest of a group that has two branches. -/
def optionsInGroup : Setting := ⟨Bytes.ofString "((?i)a|[b])", .native, .ascii, .standard⟩

/-- It is not rejected; its group, its bracket and the sequence of its group end as they must. -/
theorem optionsInGroup_read :
    let s := optionsInGroup.reading
    let c := Cursor.start .empty .empty
    (∃ root c' t, readPattern s c = .ok root c' ∧ c'.pos = 11 ∧ c'.depth = 0 ∧
        (parse optionsInGroup .empty .empty).1 = .ok t) ∧
      Lands s c (readPiece (s.signAt 0) 33) (fun _ c' => c.Onward s 1 c') ∧
      Lands s { c with pos := 7 } (readBracket 33) (fun _ c' => { c with pos := 7 }.Onward s 1 c') ∧
      Lands s { c with pos := 1, depth := 1 } (readSequence 1 [] 34) fun _ c' =>
        { c with pos := 1, depth := 1 }.Reaches s c' ∧ c'.Ends s := by
  obtain ⟨hall, hpiece, hsequence⟩ := parse_reads_all optionsInGroup .empty .empty
  refine ⟨hall.resolve_left ?_, (hpiece _ 33 (by decide) (by decide)).1,
    (hpiece _ 33 (by decide) (by decide)).2, hsequence _ 1 [] 34 (by decide) (by decide)⟩
  rintro ⟨e, he⟩
  have hsome : (parse optionsInGroup .empty .empty).1.toOption.isSome = true := by decide +kernel
  rw [he] at hsome
  cases hsome

end RegexMachine.Pattern
