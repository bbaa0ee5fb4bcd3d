import RegexMachine.Proofs.Landings

/-!
How the readers of brackets, references, literals, escapes and repeat operators end.
-/
namespace RegexMachine.Pattern

variable {α : Type} {s : Reading} {c c' : Cursor}

/-! ## Nesting -/

/-- A level of nesting is entered, or it is one too many. -/
@[simp]
theorem lands_descend {start : Nat} {Q : Unit → Cursor → Prop} :
    Lands s c (descend start) Q ↔
      (c.depth + 1 ≤ s.parseDepth → Q () { c with depth := c.depth + 1 }) := by
  simp only [descend, lands_bind, lands_modify, lands_read, lands_get, lands_ite, lands_reject]
  by_cases h : s.parseDepth < c.depth + 1
  · simp only [if_pos h, true_iff]
    omega
  · simp only [if_neg h]
    exact ⟨fun hQ _ => hQ, fun hQ => hQ (by omega)⟩

@[simp]
theorem lands_ascend {Q : Unit → Cursor → Prop} :
    Lands s c ascend Q ↔ Q () { c with depth := c.depth - 1 } := Iff.rfl

/-! ## Brackets -/

theorem letterEnd_bounds (b : Bytes) (i n : Nat) :
    i ≤ letterEnd b i n ∧ letterEnd b i n ≤ i + n := by
  induction n generalizing i with
  | zero => exact ⟨Nat.le_refl _, Nat.le_refl _⟩
  | succ n ih =>
    have := ih (i + 1)
    unfold letterEnd
    split <;> omega

/-- A named type is taken as a whole or not at all. -/
theorem readPosixBracket_lands (hc : c.pos + 2 ≤ s.pattern.size) :
    Lands s c readPosixBracket fun found c' =>
      if found.isSome then c.Onward s 2 c' else c.Onward s 0 c' ∧ c'.pos = c.pos := by
  simp only [readPosixBracket, lands_bind, lands_here, lands_skip, lands_read]
  refine (eat_takes '^').then (by grind) fun negated c₁ h₁ => ?_
  have hend := letterEnd_bounds s.pattern c₁.pos (s.pattern.size - c₁.pos)
  simp only [lands_jump, lands_textSince]
  refine ⟨hend.1, by grind, ?_⟩
  refine (eatText_takes ":]").then (by grind) fun closed c₂ h₂ => ?_
  cases closed
  · simp only [Bool.not_false, if_true, lands_bind, lands_jump, lands_pure]
    grind
  · simp only [Bool.not_true, Bool.false_eq_true, if_false]
    cases CharType.ofBracket? _
    · trivial
    · simp only [lands_bind, lands_read, lands_hasOption, lands_pure]
      grind

theorem readBracketEscape_takes (start : Nat) : Takes 1 1 (readBracketEscape start) := by
  intro s c hc
  simp only [readBracketEscape, lands_bind, lands_read, lands_skip, lands_peek]
  cases hx : s.charAt (c.pos + 1) with
  | none => trivial
  | some x =>
    simp only [lands_bind, lands_read, lands_get]
    cases ht : typeEscape? s.dialect c.options x with
    | some t =>
      simp only [lands_bind, lands_skip, lands_pure]
      grind
    | none =>
      simp only [lands_bind, lands_seesProperty]
      refine .ite (fun h => ?_) fun _ => ?_
      · have hbrace : s.charAt (c.pos + 1 + 1) = some '{' := by grind
        exact ((readProperty_takes start).map.skip (m := 1)).lands (by grind) (by omega)
      · exact ((readEscaped_takes true start).map.skip (m := 1)).lands (by grind) (by omega)

@[simp]
theorem lands_seesRange {Q : Bool → Cursor → Prop} :
    Lands s c seesRange Q ↔
      Q (s.charAt c.pos == some '-' && (s.charAt (c.pos + 1)).any (· != ']')) c := Iff.rfl

theorem closeRange_takes (p : BracketParts) (lo start : Nat) (i : BracketItem) :
    Takes 0 0 (closeRange p lo start i) := by
  intro s c hc
  cases i with
  | set _ => trivial
  | char hi =>
    simp only [closeRange]
    refine .ite (fun _ => ?_) fun _ => ?_
    · simp only [lands_pure]
      grind
    · simp only [lands_bind, lands_behaves]
      exact .ite (fun _ => trivial) fun _ => by grind [lands_pure]

/-- Looking for a later bracket leaves the cursor alone. -/
theorem checkLeadingClose_lands (start : Nat) (hc : c.pos < s.pattern.size) :
    Lands s c (checkLeadingClose start) fun _ c' => c' = c := by
  simp only [checkLeadingClose, lands_bind, lands_here, lands_read, lands_bytesBetween]
  exact ⟨hc, Nat.le_refl _, .ite (fun _ => trivial) fun _ => rfl⟩

/-- With enough fuel for what is left of the pattern, the readers of brackets move on. -/
structure BracketsLand (fuel : Nat) : Prop where
  bracket : ∀ {s c}, c.pos < s.pattern.size → 3 * (s.pattern.size - c.pos) ≤ fuel →
    Lands s c (readBracket fuel) fun _ c' => c.Onward s 1 c'
  items : ∀ {s c} start first parts, c.pos ≤ s.pattern.size →
    3 * (s.pattern.size - c.pos) + 2 ≤ fuel →
    Lands s c (bracketItems start first parts fuel) fun _ c' => c.Onward s 0 c'
  item : ∀ {s c}, c.pos < s.pattern.size → 3 * (s.pattern.size - c.pos) + 1 ≤ fuel →
    Lands s c (bracketItem fuel) fun _ c' => c.Onward s 1 c'

section
variable {fuel : Nat}

/-- The level that a bracket enters is left again. -/
theorem BracketsLand.bracket_succ (h : BracketsLand fuel) (hc : c.pos < s.pattern.size)
    (hfuel : 3 * (s.pattern.size - c.pos) ≤ fuel + 1) :
    Lands s c (readBracket (fuel + 1)) fun _ c' => c.Onward s 1 c' := by
  simp only [readBracket, lands_bind, lands_here, lands_descend, lands_skip, lands_ascend, lands_pure]
  intro _
  refine (eat_takes '^').then (by grind) fun negated c₁ h₁ => ?_
  refine (h.items c.pos true _ (by grind) (by grind)).mono fun set c₂ h₂ => ?_
  grind

theorem BracketsLand.item_succ (h : BracketsLand fuel) (hc : c.pos < s.pattern.size)
    (hfuel : 3 * (s.pattern.size - c.pos) + 1 ≤ fuel + 1) :
    Lands s c (bracketItem (fuel + 1)) fun _ c' => c.Onward s 1 c' := by
  have hcode : Lands s c (do return .char (← nextCode).1 : Parse BracketItem) fun _ c' =>
      c.Onward s 1 c' := nextCode_takes.map.lands hc (Nat.le_refl _)
  simp only [bracketItem, lands_bind, lands_here, lands_peek]
  split
  · rename_i hx
    simp only [lands_bind, lands_allows, lands_seesText]
    refine ⟨by omega, .ite (fun hopens => ?_) fun _ => .ite (fun _ => ?_) fun _ => hcode⟩
    · have htwo : c.pos + 2 ≤ s.pattern.size :=
        startsAt_le (Bool.and_eq_true_iff.mp hopens).2 (by omega)
      simp only [lands_bind]
      refine (readPosixBracket_lands htwo).mono fun found c₁ h₁ => ?_
      cases found with
      | some set =>
        simp only [lands_pure]
        grind
      | none =>
        obtain ⟨h₁, hpos⟩ : c.Onward s 0 c₁ ∧ c₁.pos = c.pos := h₁
        exact nextCode_takes.map.onward h₁ (by omega) (by omega)
    · simp only [lands_bind, lands_read, lands_pure]
      exact h.bracket hc (by omega)
  · simp only [lands_bind, lands_behaves]
    exact .ite (fun _ => (readBracketEscape_takes _).lands hc (Nat.le_refl _)) fun _ => hcode
  · exact hcode

/-- An element is never empty, so that what follows it has less of the pattern left. -/
theorem BracketsLand.items_succ (h : BracketsLand fuel) (start : Nat) (first : Bool)
    (parts : BracketParts) (hc : c.pos ≤ s.pattern.size)
    (hfuel : 3 * (s.pattern.size - c.pos) + 2 ≤ fuel + 1) :
    Lands s c (bracketItems start first parts (fuel + 1)) fun _ c' => c.Onward s 0 c' := by
  have hrest {c₁ : Cursor} (parts : BracketParts) (h₁ : c.Onward s 1 c₁) :
      Lands s c₁ (bracketItems start false parts fuel) fun _ c' => c.Onward s 0 c' :=
    (h.items start false parts (by grind) (by grind)).mono fun _ _ h₂ => by grind
  simp only [bracketItems, lands_bind, lands_peek]
  cases hx : s.charAt c.pos with
  | none => trivial
  | some x =>
    have hlt := Reading.charAt_lt hx
    dsimp only
    refine .ite (fun _ => ?_) fun _ => .prepared (P := (· = c))
      (fun _ => checkLeadingClose_lands start hlt) rfl ?_
    · simp only [lands_bind, lands_skip, lands_pure]
      grind
    intro _ hsame
    rw [hsame]
    simp only [lands_bind, lands_allows, lands_seesText]
    refine ⟨hc, .ite (fun hmeet => ?_) fun _ => ?_⟩
    · have htwo : c.pos + 2 ≤ s.pattern.size := startsAt_le (Bool.and_eq_true_iff.mp hmeet).2 hc
      simp only [lands_bind, lands_skip]
      exact hrest _ (by grind)
    simp only [lands_bind]
    refine (h.item hlt (by omega)).mono fun i c₁ h₁ => ?_
    cases i with
    | set _ => exact hrest _ h₁
    | char lo =>
      simp only [lands_bind, lands_seesRange]
      refine .ite (fun hsign => ?_) fun _ => hrest _ h₁
      obtain ⟨y, hy, -⟩ := Option.any_eq_true _ _ |>.mp (Bool.and_eq_true_iff.mp hsign).2
      have hend := Reading.charAt_lt hy
      simp only [lands_bind, lands_here, lands_skip]
      refine (h.item hend (by grind)).mono fun hi c₂ h₂ => ?_
      refine (closeRange_takes parts lo c₁.pos hi).then (by grind) fun parts c₃ h₃ => ?_
      exact hrest parts (by grind)

theorem bracketsLand : ∀ fuel, BracketsLand fuel
  | 0 => ⟨fun _ _ => by omega, fun _ _ _ _ _ => by omega, fun _ _ => by omega⟩
  | fuel + 1 =>
    have ih := bracketsLand fuel
    ⟨ih.bracket_succ, ih.items_succ, ih.item_succ⟩

end

theorem readClass_takes : Takes 1 1 readClass := by
  intro s c hc
  simp only [readClass, lands_bind, lands_here, lands_read]
  refine ((bracketsLand _).bracket hc (by omega)).mono fun set c₁ h₁ => ?_
  simp
  exact h₁

/-! ## References -/

theorem nameChars_lands (close : Char) (first start : Nat) (bad : Bool) (n : Nat)
    (hfirst : first ≤ c.pos) (hc : c.pos ≤ s.pattern.size) :
    Lands s c (nameChars close first start bad n) fun _ c' => c.Onward s 0 c' := by
  induction n generalizing c bad with
  | zero =>
    simp only [nameChars, lands_pure]
    grind
  | succ n ih =>
    simp only [nameChars, lands_bind, lands_peekCode]
    cases hcode : s.codeAt c.pos with
    | none =>
      simp only [lands_pure]
      grind
    | some r =>
      obtain ⟨code, len⟩ := r
      have hlen := Reading.codeAt_bounds hcode
      simp only [lands_bind, lands_peek, lands_here]
      refine .ite (fun _ => ?_) fun _ => .ite (fun hsign => ?_) fun _ => ?_
      · simp only [lands_pure]
        grind
      · simp only [lands_bind, lands_textSince, lands_skip]
        refine ⟨hfirst, hc, ?_⟩
        refine readDecimal_takes.then (by grind) fun level c₁ h₁ => ?_
        simp only [lands_sees]
        exact .ite (fun _ => trivial) fun _ => trivial
      · simp only [lands_bind, lands_read, lands_skip]
        refine (ih (c := { c with pos := c.pos + len }) _ ?_ ?_).mono fun _ c₁ h₁ => ?_
        · exact Nat.le_add_right_of_le hfirst
        · exact hlen.2
        · grind

theorem readName_takes (close : Char) (start : Nat) : Takes 0 0 (readName close start) := by
  intro s c hc
  simp only [readName, lands_bind, lands_here, lands_read]
  refine (nameChars_lands close c.pos start false _ (Nat.le_refl _) hc).mono fun bad c₁ h₁ => ?_
  simp only [lands_textSince]
  refine ⟨by grind, by grind, ?_⟩
  refine (eat_takes close).then (by grind) fun closed c₂ h₂ => ?_
  refine .ite (fun _ => trivial) fun _ => .ite (fun _ => trivial) fun _ => .ite (fun _ => trivial)
    fun _ => ?_
  simp only [lands_pure]
  grind

theorem closeReference_takes (close : Char) (start : Nat) : Takes 0 0 (closeReference close start) := by
  intro s c hc
  simp only [closeReference, lands_bind]
  refine (eat_takes close).then hc fun closed c₁ h₁ => .ite (fun _ => h₁) fun _ => ?_
  simp only [lands_bind, lands_sees]
  exact .ite (fun _ => trivial) fun _ => trivial

theorem referenceNumber_takes (close : Char) (start : Nat) :
    Takes 0 0 (referenceNumber close start) := by
  intro s c hc
  simp only [referenceNumber, lands_bind]
  refine readDecimal_takes.then hc fun n c₁ h₁ => ?_
  cases n with
  | none => trivial
  | some n => exact (closeReference_takes close start).map.onward h₁ (by grind) (Nat.zero_le _)

theorem readTarget_takes (close : Char) (start : Nat) (isCall : Bool) :
    Takes 0 0 (readTarget close start isCall) := by
  intro s c hc
  have hname := (readName_takes close start).map (f := Target.name) s c hc
  simp only [readTarget, lands_bind, lands_peek]
  cases hx : s.charAt c.pos with
  | none => exact hname
  | some x =>
    refine .ite (fun _ => ?_) fun _ => .ite (fun _ => ?_) fun _ => hname
    · simp only [lands_bind, lands_skip]
      refine .ite (fun _ => trivial) fun _ => ?_
      simp only [lands_bind]
      refine (referenceNumber_takes close start).then (by grind) fun n c₁ h₁ => ?_
      simp only [lands_get]
      cases relativeGroup? (x == '-') c₁.groupCount n with
      | none => trivial
      | some group =>
        simp only [lands_pure]
        grind
    · simp only [lands_bind]
      refine (referenceNumber_takes close start).then hc fun n c₁ h₁ => ?_
      exact .ite (fun _ => trivial) fun _ => h₁

theorem noteNumbered_takes (target : Target) (start : Nat) :
    Takes 0 0 (noteNumbered target start) := by
  intro s c hc
  cases target <;> simp [noteNumbered] <;> grind

theorem referenceNode_takes (target : Target) (start : Nat) :
    Takes 0 0 (referenceNode target start) := by
  intro s c hc
  simp only [referenceNode, lands_bind, lands_here, lands_hasOption, lands_pure]
  exact noteNumbered_takes target start s c hc

theorem callNode_takes (target : Target) (start : Nat) : Takes 0 0 (callNode target start) := by
  intro s c hc
  simp only [callNode]
  refine .ite (fun _ => ?_) fun _ => ?_
  · simp only [lands_bind, lands_modify, lands_here, lands_pure]
    grind
  · simp only [lands_bind, lands_here, lands_pure]
    exact noteNumbered_takes target start s c hc

/-! ## Literals and escapes -/

@[simp]
theorem lands_literalNode {bytes : Bytes} {start : Nat} {Q : Node Span → Cursor → Prop} :
    Lands s c (literalNode bytes start) Q ↔
      Q (.atom ⟨start, c.pos⟩ (.literal bytes (c.options.has .ignoreCase))) c := Iff.rfl

@[simp]
theorem lands_atomNode {a : Atom} {start : Nat} {Q : Node Span → Cursor → Prop} :
    Lands s c (atomNode a start) Q ↔
      Q (.atom ⟨start, c.pos + 1⟩ a) { c with pos := c.pos + 1 } := Iff.rfl

theorem readDecimalReference_takes (start : Nat) : Takes 0 0 (readDecimalReference start) := by
  intro s c hc
  simp only [readDecimalReference, lands_bind, lands_allows]
  refine .ite (fun _ => ?_) fun _ => ?_
  · simp only [lands_pure]
    grind
  simp only [lands_bind, lands_here]
  refine readDecimal_takes.then hc fun n c₁ h₁ => ?_
  simp only [lands_get]
  refine .ite (fun _ => ?_) fun _ => ?_
  · simp only [lands_bind, lands_read]
    refine .ite (fun _ => trivial) fun _ => ?_
    exact (referenceNode_takes _ start).map.onward h₁ (by grind) (Nat.zero_le _)
  · simp only [lands_bind, lands_jump, lands_pure]
    grind

theorem quoteEnd_bounds (b : Bytes) (i n : Nat) : i ≤ quoteEnd b i n ∧ quoteEnd b i n ≤ i + n := by
  induction n generalizing i with
  | zero => exact ⟨Nat.le_refl _, Nat.le_refl _⟩
  | succ n ih =>
    have := ih (i + 1)
    unfold quoteEnd
    split <;> omega

theorem readQuote_takes (start : Nat) : Takes 0 0 (readQuote start) := by
  intro s c hc
  have hend := quoteEnd_bounds s.pattern c.pos (s.pattern.size - c.pos)
  simp only [readQuote, lands_bind, lands_here, lands_read, lands_jump, lands_bytesBetween,
    lands_literalNode]
  refine ⟨hend.1, by grind, ?_⟩
  exact (eatText_takes "\\E").then (by grind) fun _ c₁ h₁ => by grind

theorem readCharEscape_takes (start : Nat) : Takes 0 0 (readCharEscape start) := by
  intro s c hc
  simp only [readCharEscape, lands_bind]
  refine (readEscaped_takes false start).then hc fun e c₁ h₁ => ?_
  cases e with
  | byte b => exact h₁
  | code code =>
    simp only [lands_bind, lands_read]
    cases s.encoding.encode code with
    | ok bytes => exact h₁
    | error e => trivial

/-- The letter and the opening character come first. -/
theorem readNamedTarget_takes (close : Char) (start : Nat) (isCall : Bool) :
    Takes 2 2 (readNamedTarget close start isCall) := by
  intro s c hc
  simp only [readNamedTarget, lands_bind, lands_skip]
  refine (readTarget_takes close start isCall).then (by grind) fun target c₁ h₁ => ?_
  refine .ite (fun _ => ?_) fun _ => ?_
  · exact (callNode_takes target start).then (by grind) fun _ _ h₂ => by grind
  · exact (referenceNode_takes target start).then (by grind) fun _ _ h₂ => by grind

/-- The last part of an escape: a reference by number, or else a character. -/
theorem numbered_takes (p : Bool) (start : Nat) : Takes 0 0 (do
    if p then
      if let some n ← readDecimalReference start then return n
    readCharEscape start) := by
  intro s c hc
  refine .ite (fun _ => ?_) fun _ => readCharEscape_takes start s c hc
  simp only [lands_bind]
  refine (readDecimalReference_takes start).then hc fun n c₁ h₁ => ?_
  cases n with
  | none => exact (readCharEscape_takes start).onward h₁ (by grind) (Nat.zero_le _)
  | some n => exact h₁

theorem readEscape_takes : Takes 1 1 readEscape := by
  intro s c hc
  have h₁ : c.Onward s 1 { c with pos := c.pos + 1 } := by grind
  simp only [readEscape, lands_bind, lands_here, lands_read, lands_get, lands_skip, lands_peek]
  cases hx : s.charAt (c.pos + 1) with
  | none => trivial
  | some x =>
    have hlt := Reading.charAt_lt hx
    simp only [lands_bind, lands_peekAt]
    cases typeEscape? s.dialect c.options x with
    | some t =>
      simp only [lands_atomNode]
      grind
    | none =>
    simp only [lands_bind, lands_seesProperty]
    refine .ite (fun hproperty => ?_) fun _ => ?_
    · have hbrace : s.charAt (c.pos + 1 + 1) = some '{' := by grind
      simp only [lands_bind, lands_here, lands_pure]
      exact (readProperty_takes c.pos).onward h₁ (by grind) (by omega)
    cases anchorEscape? s.dialect (c.options.has .asciiWord) x with
    | some a =>
      simp only [lands_atomNode]
      grind
    | none =>
    refine .ite (fun _ => ?_) fun _ => .ite (fun _ => ?_) fun _ => .ite (fun _ => ?_) fun _ => ?_
    · simp only [lands_atomNode]
      grind
    · simp only [lands_bind, lands_skip, lands_read, lands_here, lands_pure]
      grind
    · simp only [lands_atomNode]
      grind
    refine .ite (fun _ => trivial) fun _ => .ite (fun _ => ?_) fun _ => ?_
    · simp only [lands_bind, lands_skip]
      exact (readQuote_takes c.pos).then (by grind) fun _ _ h₂ => by grind
    have hlast := (numbered_takes ('1' ≤ x && x ≤ '9') c.pos).onward h₁ (Nat.le_of_lt hlt)
      (Nat.le_refl 1)
    cases hclose : nameClose? (s.charAt (c.pos + 1 + 1)) with
    | none => exact hlast
    | some close =>
      obtain ⟨y, hy⟩ : ∃ y, s.charAt (c.pos + 1 + 1) = some y := by
        cases hy : s.charAt (c.pos + 1 + 1) with
        | none => simp [hy, nameClose?] at hclose
        | some y => exact ⟨y, rfl⟩
      refine .ite (fun _ => ?_) fun _ => .ite (fun _ => ?_) fun _ => hlast
      · exact (readNamedTarget_takes close c.pos false).onward h₁ (by grind) (by omega)
      · exact (readNamedTarget_takes close c.pos true).onward h₁ (by grind) (by omega)

@[simp]
theorem lands_signLiteral {start len : Nat} {Q : Node Span → Cursor → Prop} :
    Lands s c (signLiteral start len) Q ↔ start + len - 1 ≤ start + len ∧
      start + len ≤ s.pattern.size ∧
      Q (.atom ⟨start, start + len⟩ (.literal (s.pattern.slice (start + len - 1) (start + len))
        (c.options.has .ignoreCase))) { c with pos := start + len } := by
  simp only [signLiteral, lands_bind, lands_bytesBetween, lands_jump, lands_literalNode]

theorem readLooseRepeat_lands (invalid : Bool) {len : Nat} (hlen : 0 < len)
    (hc : c.pos + len ≤ s.pattern.size) :
    Lands s c (readLooseRepeat invalid c.pos len) fun _ c' => c.Onward s 1 c' := by
  simp only [readLooseRepeat]
  refine .ite (fun _ => trivial) fun _ => ?_
  rw [lands_signLiteral]
  grind

theorem readPlainAtom_takes (start : Nat) : Takes 1 1 (readPlainAtom start) := by
  intro s c hc
  simp only [readPlainAtom, lands_bind, lands_read, lands_get, lands_peek]
  refine .ite (fun _ => readClass_takes s c hc) fun _ => .ite (fun _ => ?_) fun _ =>
    .ite (fun _ => ?_) fun _ => .ite (fun _ => ?_) fun _ =>
    .ite (fun _ => readEscape_takes s c hc) fun _ => ?_
  · rw [lands_atomNode]
    grind
  · rw [lands_atomNode]
    grind
  · rw [lands_atomNode]
    grind
  · simp only [lands_bind, lands_literalNode]
    exact nextCode_takes s c hc

/-! ## Repeat operators -/

theorem readIntervalBody_takes (escaped : Bool) : Takes 0 0 (readIntervalBody escaped) := by
  intro s c hc
  simp only [readIntervalBody, lands_bind]
  refine readDecimal_takes.then hc fun low c₁ h₁ => ?_
  refine (eat_takes ',').then (by grind) fun comma c₂ h₂ => ?_
  refine .ite (fun _ => ?_) fun _ => ?_
  · simp only [lands_bind]
    refine readDecimal_takes.then (by grind) fun high c₃ h₃ => ?_
    simp only [lands_behaves]
    cases low.or (if high.isSome && s.dialect.behaves .openLowInterval then some 0 else none) with
    | none =>
      simp only [lands_pure]
      grind
    | some low =>
      have h₃ : c.Onward s 0 c₃ := (h₁.trans h₂).trans h₃
      exact .ite (fun _ => (eatText_takes _).map.onward h₃ h₃.inside (Nat.zero_le _))
        fun _ => (eat_takes _).map.onward h₃ h₃.inside (Nat.zero_le _)
  · cases low with
    | none =>
      simp only [lands_pure]
      grind
    | some low =>
      have h₂ : c.Onward s 0 c₂ := h₁.trans h₂
      exact .ite (fun _ => (eatText_takes _).map.onward h₂ h₂.inside (Nat.zero_le _))
        fun _ => (eat_takes _).map.onward h₂ h₂.inside (Nat.zero_le _)

/-- An interval is taken as a whole or not at all. -/
theorem readInterval_lands {len : Nat} (hlen : 0 < len) (hc : c.pos + len ≤ s.pattern.size) :
    Lands s c (readInterval len) fun r c' => c.Onward s (if r.isSome then 1 else 0) c' := by
  simp only [readInterval, lands_bind, lands_here, lands_skip]
  refine (readIntervalBody_takes (len == 2)).then (by grind) fun body c₁ h₁ => ?_
  cases body with
  | none =>
    simp only [lands_bind, lands_behaves]
    refine .ite (fun _ => ?_) fun _ => ?_
    · simp only [lands_bind, lands_jump, lands_pure]
      grind
    · simp only [lands_bind, lands_atEnd]
      exact .ite (fun _ => trivial) fun _ => trivial
  | some bounds =>
    simp only [lands_bind, lands_read]
    refine .ite (fun _ => trivial) fun _ => .ite (fun _ => trivial) fun _ => ?_
    simp only [lands_pure]
    grind

theorem seesInterval_lands {len : Nat} (hc : c.pos + len ≤ s.pattern.size) :
    Lands s c (seesInterval len) fun _ c' => c.Onward s 0 c' ∧ c'.pos = c.pos := by
  simp only [seesInterval, lands_bind, lands_here, lands_skip]
  refine (readIntervalBody_takes (len == 2)).then (by grind) fun body c₁ h₁ => ?_
  simp only [lands_jump, lands_pure]
  grind

theorem readAtom_lands {sign : Option (Sign × Nat)} (hsign : sign = s.signAt c.pos)
    (hc : c.pos < s.pattern.size) : Lands s c (readAtom sign) fun _ c' => c.Onward s 1 c' := by
  simp only [readAtom, lands_bind, lands_here, lands_behaves]
  split
  · obtain ⟨hlen, hin⟩ := Reading.signAt_bounds hsign.symm
    simp only [lands_bind]
    refine (seesInterval_lands hin).mono fun good c₁ h₁ => ?_
    rw [← h₁.2]
    exact (readLooseRepeat_lands _ hlen (by grind)).mono fun _ _ h₂ => by grind
  · obtain ⟨hlen, hin⟩ := Reading.signAt_bounds hsign.symm
    rw [lands_signLiteral]
    grind
  · obtain ⟨hlen, hin⟩ := Reading.signAt_bounds hsign.symm
    simp only [lands_bind, lands_behaves]
    exact readLooseRepeat_lands _ hlen hin
  · obtain ⟨hlen, hin⟩ := Reading.signAt_bounds hsign.symm
    simp only [lands_bind, lands_behaves]
    exact readLooseRepeat_lands _ hlen hin
  · obtain ⟨hlen, hin⟩ := Reading.signAt_bounds hsign.symm
    simp only [lands_bind, lands_behaves]
    exact readLooseRepeat_lands _ hlen hin
  · exact readPlainAtom_takes c.pos s c hc

theorem readRepeatSign_lands (hc : c.pos ≤ s.pattern.size) :
    Lands s c readRepeatSign fun r c' => c.Onward s (if r.isSome then 1 else 0) c' := by
  simp only [readRepeatSign, lands_bind, lands_peekSign]
  split
  · rename_i len hsign
    simp only [lands_bind, lands_skip, lands_pure]
    grind
  · rename_i len hsign
    simp only [lands_bind, lands_skip, lands_pure]
    grind
  · rename_i len hsign
    simp only [lands_bind, lands_skip, lands_pure]
    grind
  · rename_i len hsign
    have hlen := Reading.signAt_bounds hsign
    exact readInterval_lands hlen.1 hlen.2
  · simp only [lands_pure]
    grind

theorem readMode_takes (r : RepeatSign) : Takes 0 0 (readMode r) := by
  intro s c hc
  simp only [readMode, lands_bind, lands_behaves, lands_sees, lands_allows]
  refine .ite (fun _ => ?_) fun _ => ?_
  · simp only [lands_bind, lands_skip, lands_pure]
    grind
  simp only [lands_bind, lands_sees, lands_allows]
  refine .ite (fun _ => ?_) fun _ => ?_
  · simp only [lands_bind, lands_skip, lands_pure]
    grind
  · simp only [lands_pure]
    grind

theorem checkRepeatTarget_lands (n : Node Span) (again : Bool) (sign : Nat) :
    Lands s c (checkRepeatTarget n again sign) fun _ c' => c' = c := by
  simp only [checkRepeatTarget]
  split
  · trivial
  · trivial
  · simp only [lands_bind, lands_behaves]
    exact .ite (fun _ => trivial) fun _ => rfl
  · rfl

/-- Every operator is at least one byte long. -/
theorem readRepeats_lands (n : Node Span) (start : Nat) (again : Bool) (fuel : Nat)
    (hc : c.pos ≤ s.pattern.size) (hfuel : s.pattern.size - c.pos < fuel) :
    Lands s c (readRepeats n start again fuel) fun _ c' => c.Onward s 0 c' := by
  induction fuel generalizing c n again with
  | zero => omega
  | succ fuel ih =>
    simp only [readRepeats, lands_bind]
    refine skipExtended_takes.then hc fun _ c₁ h₁ => ?_
    simp only [lands_here]
    refine (readRepeatSign_lands h₁.inside).mono fun r c₂ h₂ => ?_
    cases r with
    | none =>
      simp only [lands_pure]
      grind
    | some r =>
      have h₂ : c₁.Onward s 1 c₂ := h₂
      simp only [lands_bind]
      refine (readMode_takes r).then h₂.inside fun mode c₃ h₃ => ?_
      refine (checkRepeatTarget_lands n again c₁.pos).mono fun _ c₄ h₄ => ?_
      subst h₄
      simp only [lands_read, lands_here]
      refine (ih _ _ (by grind) (by grind)).mono fun _ _ h₅ => by grind

end RegexMachine.Pattern
