import RegexMachine.Pattern.Tree

/-!
How reading ends. A reader that is given enough of the pattern either rejects it or moves on within it;
it neither stops half-way nor reads past the end, and it leaves the nesting and the options in effect as
they were.
-/
namespace RegexMachine.Pattern

/-- Reading from a cursor ends in a rejected pattern, or in a result and a cursor of which something is
known. A reader that stalls or runs past the end does neither. -/
def Lands {α : Type} (s : Reading) (c : Cursor) (x : Parse α) (Q : α → Cursor → Prop) : Prop :=
  match x s c with
  | .ok a c' => Q a c'
  | .error (.rejected _) _ => True
  | .error _ _ => False

variable {α β : Type} {s : Reading} {c c' c'' : Cursor}

theorem Lands.mono {x : Parse α} {P Q : α → Cursor → Prop} (h : Lands s c x P)
    (hPQ : ∀ a c', P a c' → Q a c') : Lands s c x Q := by
  unfold Lands at *
  split at h
  · exact hPQ _ _ h
  · trivial
  · exact h.elim

theorem Lands.and {x : Parse α} {P Q : α → Cursor → Prop} (hP : Lands s c x P)
    (hQ : Lands s c x Q) : Lands s c x fun a c' => P a c' ∧ Q a c' := by
  unfold Lands at *
  split at hP
  · rename_i hr
    rw [hr] at hQ
    exact ⟨hP, hQ⟩
  · trivial
  · exact hP.elim

/-! ## Actions on the cursor -/

section
variable {Q : α → Cursor → Prop}

@[simp]
theorem lands_pure {a : α} : Lands s c (pure a) Q ↔ Q a c := Iff.rfl

@[simp]
theorem lands_bind {x : Parse β} {f : β → Parse α} :
    Lands s c (x >>= f) Q ↔ Lands s c x fun b c' => Lands s c' (f b) Q := by
  change (match EStateM.bind (x s) (fun b => f b s) c with
    | .ok a c' => Q a c'
    | .error (.rejected _) _ => True
    | .error _ _ => False) ↔ _
  unfold EStateM.bind Lands
  cases x s c with
  | ok b c' => rfl
  | error e c' => cases e <;> rfl

@[simp]
theorem lands_map {x : Parse β} {f : β → α} :
    Lands s c (f <$> x) Q ↔ Lands s c x fun b c' => Q (f b) c' := by
  rw [← bind_pure_comp, lands_bind]
  rfl

@[simp]
theorem lands_ite {p : Prop} [Decidable p] {x y : Parse α} :
    Lands s c (if p then x else y) Q ↔ if p then Lands s c x Q else Lands s c y Q := by
  split <;> rfl

@[simp]
theorem lands_reject {flaw : Flaw} {start stop : Nat} : Lands s c (reject flaw start stop) Q :=
  trivial

@[simp]
theorem lands_rejectSince {flaw : Flaw} {start : Nat} : Lands s c (rejectSince flaw start) Q :=
  trivial

@[simp]
theorem lands_stall : ¬ Lands s c stall Q := id

@[simp]
theorem lands_overrun : ¬ Lands s c overrun Q := id

end

@[simp]
theorem lands_read {Q : Reading → Cursor → Prop} : Lands s c (read : Parse Reading) Q ↔ Q s c :=
  Iff.rfl

@[simp]
theorem lands_get {Q : Cursor → Cursor → Prop} : Lands s c (get : Parse Cursor) Q ↔ Q c c := Iff.rfl

@[simp]
theorem lands_modify {f : Cursor → Cursor} {Q : PUnit → Cursor → Prop} :
    Lands s c (modify f : Parse PUnit) Q ↔ Q ⟨⟩ (f c) := Iff.rfl

@[simp]
theorem lands_here {Q : Nat → Cursor → Prop} : Lands s c here Q ↔ Q c.pos c := Iff.rfl

/-- The byte at an offset, as a character. -/
def Reading.charAt (s : Reading) (pos : Nat) : Option Char := (s.pattern[pos]?).map byteChar

@[grind →]
theorem Reading.charAt_lt {pos : Nat} {x : Char} (h : s.charAt pos = some x) :
    pos < s.pattern.size := by
  obtain ⟨b, hb, -⟩ := Option.map_eq_some_iff.mp h
  exact (Array.getElem?_eq_some_iff.mp hb).1

theorem Reading.charAt_none {pos : Nat} (h : s.charAt pos = none) : s.pattern.size ≤ pos :=
  Array.getElem?_eq_none_iff.mp (Option.map_eq_none_iff.mp h)

@[simp]
theorem lands_peekAt {k : Nat} {Q : Option Char → Cursor → Prop} :
    Lands s c (peekAt k) Q ↔ Q (s.charAt (c.pos + k)) c := Iff.rfl

@[simp]
theorem lands_peek {Q : Option Char → Cursor → Prop} :
    Lands s c peek Q ↔ Q (s.charAt c.pos) c := Iff.rfl

@[simp]
theorem lands_atEnd {Q : Bool → Cursor → Prop} :
    Lands s c atEnd Q ↔ Q (s.pattern.size ≤ c.pos) c := Iff.rfl

@[simp]
theorem lands_sees {x : Char} {Q : Bool → Cursor → Prop} :
    Lands s c (sees x) Q ↔ Q (s.charAt c.pos == some x) c := Iff.rfl

@[simp]
theorem lands_jump {pos : Nat} {Q : Unit → Cursor → Prop} :
    Lands s c (jump pos) Q ↔ Q () { c with pos := pos } := Iff.rfl

@[simp]
theorem lands_skip {n : Nat} {Q : Unit → Cursor → Prop} :
    Lands s c (skip n) Q ↔ Q () { c with pos := c.pos + n } := Iff.rfl

@[simp]
theorem lands_allows {op : Operator} {Q : Bool → Cursor → Prop} :
    Lands s c (allows op) Q ↔ Q (s.dialect.allows op) c := Iff.rfl

@[simp]
theorem lands_behaves {b : Behavior} {Q : Bool → Cursor → Prop} :
    Lands s c (behaves b) Q ↔ Q (s.dialect.behaves b) c := Iff.rfl

@[simp]
theorem lands_hasOption {f : CompileFlag} {Q : Bool → Cursor → Prop} :
    Lands s c (hasOption f) Q ↔ Q (c.options.has f) c := Iff.rfl

@[simp]
theorem lands_eat {x : Char} {Q : Bool → Cursor → Prop} :
    Lands s c (eat x) Q ↔
      if s.charAt c.pos = some x then Q true { c with pos := c.pos + 1 } else Q false c := by
  simp [eat]

/-! ## Moving on -/

/-- One cursor is `k` bytes or more beyond another and still within the pattern, at the same depth and
under the same options. -/
structure Cursor.Onward (s : Reading) (k : Nat) (c c' : Cursor) : Prop where
  advance : c.pos + k ≤ c'.pos
  inside : c'.pos ≤ s.pattern.size
  depth : c'.depth = c.depth
  options : c'.options = c.options

/-- Where `n` bytes are left, a reader takes at least `k` of them. -/
def Takes (n k : Nat) (x : Parse α) : Prop :=
  ∀ s c, c.pos + n ≤ s.pattern.size → Lands s c x fun _ c' => c.Onward s k c'

@[grind =]
theorem Cursor.onward_iff {k : Nat} : c.Onward s k c' ↔ c.pos + k ≤ c'.pos ∧
    c'.pos ≤ s.pattern.size ∧ c'.depth = c.depth ∧ c'.options = c.options :=
  ⟨fun ⟨ha, hi, hd, ho⟩ => ⟨ha, hi, hd, ho⟩, fun ⟨ha, hi, hd, ho⟩ => ⟨ha, hi, hd, ho⟩⟩

theorem Cursor.Onward.trans {i k : Nat} (h : c.Onward s i c') (h' : c'.Onward s k c'') :
    c.Onward s (i + k) c'' := by grind

/-- What comes after a reader of which only that it moves on is known. -/
theorem Takes.then {n k : Nat} {x : Parse α} {Q : α → Cursor → Prop} (hx : Takes n k x)
    (hc : c.pos + n ≤ s.pattern.size) (hQ : ∀ a c', c.Onward s k c' → Q a c') : Lands s c x Q :=
  (hx s c hc).mono hQ

theorem Takes.lands {n j k : Nat} {x : Parse α} (hx : Takes n k x)
    (hc : c.pos + n ≤ s.pattern.size) (hj : j ≤ k) : Lands s c x fun _ c' => c.Onward s j c' :=
  hx.then hc fun _ _ h => by grind

/-- A reader that goes on where another one has stopped. -/
theorem Takes.onward {n i j k : Nat} {x : Parse α} (hx : Takes n k x) (h : c.Onward s i c')
    (hc : c'.pos + n ≤ s.pattern.size) (hj : j ≤ i + k) :
    Lands s c' x fun _ c'' => c.Onward s j c'' :=
  hx.then hc fun _ _ h' => by grind

theorem Takes.skip {m n k : Nat} {x : Parse α} (hx : Takes n k x) :
    Takes (m + n) (m + k) (skip m >>= fun _ => x) := by
  intro s c hc
  simp only [lands_bind, lands_skip]
  exact hx.then (c := { c with pos := c.pos + m }) (by grind) fun _ _ h => by grind

theorem Takes.map {n k : Nat} {x : Parse α} {f : α → β} (hx : Takes n k x) :
    Takes n k (x >>= fun a => pure (f a)) := by
  intro s c hc
  simp only [lands_bind, lands_pure]
  exact hx s c hc

theorem Lands.ite {p : Prop} [Decidable p] {x y : Parse α} {Q : α → Cursor → Prop}
    (hx : p → Lands s c x Q) (hy : ¬ p → Lands s c y Q) : Lands s c (if p then x else y) Q := by
  split
  · exact hx ‹_›
  · exact hy ‹_›

/-- A preparation that may be left out. -/
theorem Lands.prepared {p : Prop} [Decidable p] {x : Parse Unit} {y : Parse α}
    {P : Cursor → Prop} {Q : α → Cursor → Prop} (hx : p → Lands s c x fun _ c' => P c') (hc : P c)
    (hy : ∀ c', P c' → Lands s c' y Q) :
    Lands s c (if p then x >>= fun _ => y else y) Q := by
  refine .ite (fun hp => ?_) fun _ => hy c hc
  rw [lands_bind]
  exact (hx hp).mono fun _ c₁ h₁ => hy c₁ h₁

/-! ## Bytes, characters and operators -/

@[simp]
theorem lands_bytesBetween {start stop : Nat} {Q : Bytes → Cursor → Prop} :
    Lands s c (bytesBetween start stop) Q ↔
      start ≤ stop ∧ stop ≤ s.pattern.size ∧ Q (s.pattern.slice start stop) c := by
  simp [bytesBetween, and_assoc]

@[simp]
theorem lands_textSince {start : Nat} {Q : String → Cursor → Prop} :
    Lands s c (textSince start) Q ↔ start ≤ c.pos ∧ c.pos ≤ s.pattern.size ∧
      Q (Text.Utf8.lossy (s.pattern.slice start c.pos)) c := by
  simp [textSince]

@[simp]
theorem lands_seesText {t : String} {Q : Bool → Cursor → Prop} :
    Lands s c (seesText t) Q ↔
      c.pos ≤ s.pattern.size ∧ Q (s.pattern.startsAt c.pos (Bytes.ofString t)) c := by
  simp [seesText]

theorem agree_le {b lit : Bytes} {i k n : Nat} (h : Bytes.agree b lit i k n = true)
    (hi : i ≤ b.size) : i + n ≤ b.size := by
  induction n generalizing i k with
  | zero => exact hi
  | succ n ih =>
    unfold Bytes.agree at h
    split at h
    · rename_i x y hx hy
      have hlt := (Array.getElem?_eq_some_iff.mp hx).1
      have := ih (Bool.and_eq_true_iff.mp h).2 hlt
      omega
    · cases h

/-- A text that stands at a place lies within the pattern. -/
theorem startsAt_le {b : Bytes} {i : Nat} {t : String}
    (h : b.startsAt i (Bytes.ofString t) = true) (hi : i ≤ b.size) :
    i + t.utf8ByteSize ≤ b.size := agree_le h hi

theorem eat_takes (x : Char) : Takes 0 0 (eat x) := by
  intro s c hc
  rw [lands_eat]
  split <;> grind

theorem eatText_takes (t : String) : Takes 0 0 (eatText t) := by
  intro s c hc
  simp only [eatText, lands_bind, lands_seesText, lands_ite, lands_skip, lands_pure]
  refine ⟨hc, ?_⟩
  split
  · rename_i hstarts
    have := startsAt_le hstarts hc
    grind
  · grind

@[simp]
theorem lands_nextByte {Q : Char → Cursor → Prop} :
    Lands s c nextByte Q ↔ ∃ x, s.charAt c.pos = some x ∧ Q x { c with pos := c.pos + 1 } := by
  simp only [nextByte, lands_bind, lands_peek]
  cases s.charAt c.pos <;> simp

/-- Code and length of the character at an offset. -/
def Reading.codeAt (s : Reading) (pos : Nat) : Option (Nat × Nat) :=
  if s.pattern.size ≤ pos then none else some (s.encoding.decodeAt s.pattern pos)

theorem Reading.codeAt_bounds {pos code len : Nat} (h : s.codeAt pos = some (code, len)) :
    0 < len ∧ pos + len ≤ s.pattern.size := by
  unfold codeAt at h
  split at h
  · cases h
  · rename_i hpos
    have hlen : s.encoding.charLenAt s.pattern pos = len := congrArg Prod.snd (Option.some.inj h)
    have := s.encoding.charLenAt_pos (Nat.lt_of_not_le hpos)
    have : s.encoding.charLenAt s.pattern pos ≤ s.pattern.size - pos := Nat.min_le_right _ _
    omega

@[simp]
theorem lands_peekCode {Q : Option (Nat × Nat) → Cursor → Prop} :
    Lands s c peekCode Q ↔ Q (s.codeAt c.pos) c := by
  simp only [peekCode, Reading.codeAt, lands_bind, lands_atEnd, lands_ite, lands_read, lands_here,
    lands_pure, decide_eq_true_eq]
  split <;> rfl

theorem nextCode_takes : Takes 1 1 nextCode := by
  intro s c hc
  simp only [nextCode, lands_bind, lands_peekCode]
  cases hcode : s.codeAt c.pos with
  | none => grind [Reading.codeAt]
  | some r =>
    obtain ⟨code, len⟩ := r
    have := Reading.codeAt_bounds hcode
    simp
    grind

/-- The operator at an offset, and the length of its notation. -/
def Reading.signAt (s : Reading) (pos : Nat) : Option (Sign × Nat) :=
  match s.charAt pos with
  | none => none
  | some '\\' => ((s.charAt (pos + 1)).bind Sign.ofChar?).bind fun sign =>
    if s.dialect.allows sign.escapedOperator then some (sign, 2) else none
  | some x => (Sign.ofChar? x).bind fun sign =>
    if s.dialect.allows sign.plainOperator then some (sign, 1) else none

@[simp]
theorem lands_peekSign {Q : Option (Sign × Nat) → Cursor → Prop} :
    Lands s c peekSign Q ↔ Q (s.signAt c.pos) c := by
  simp only [peekSign, Reading.signAt, lands_bind, lands_read, lands_peek]
  cases s.charAt c.pos with
  | none => rfl
  | some x =>
    by_cases h : x = '\\'
    · subst h
      simp
    · simp

/-- An operator stands within the pattern and is not empty. -/
@[grind →]
theorem Reading.signAt_bounds {pos len : Nat} {sign : Sign} (h : s.signAt pos = some (sign, len)) :
    0 < len ∧ pos + len ≤ s.pattern.size := by
  unfold signAt at h
  split at h
  · cases h
  · obtain ⟨_, hchar, h⟩ := Option.bind_eq_some_iff.mp h
    obtain ⟨_, hchar, -⟩ := Option.bind_eq_some_iff.mp hchar
    have := charAt_lt hchar
    split at h <;> cases h
    omega
  · rename_i hchar
    have := charAt_lt hchar
    obtain ⟨_, -, h⟩ := Option.bind_eq_some_iff.mp h
    split at h <;> cases h
    omega

/-! ## Blanks and numbers -/

theorem commentEnd_bounds (b : Bytes) (i n : Nat) :
    i ≤ commentEnd b i n ∧ commentEnd b i n ≤ i + n := by
  induction n generalizing i with
  | zero => exact ⟨Nat.le_refl _, Nat.le_refl _⟩
  | succ n ih =>
    have := ih (i + 1)
    unfold commentEnd
    split <;> omega

theorem blankEnd_bounds (b : Bytes) (i n : Nat) (h : i ≤ b.size) :
    i ≤ blankEnd b i n ∧ blankEnd b i n ≤ b.size := by
  induction n generalizing i with
  | zero => exact ⟨Nat.le_refl _, h⟩
  | succ n ih =>
    unfold blankEnd
    split
    · exact ⟨Nat.le_refl _, h⟩
    · rename_i x hx
      obtain ⟨_, hx, -⟩ := Option.map_eq_some_iff.mp hx
      have hlt := (Array.getElem?_eq_some_iff.mp hx).1
      have hcomment := commentEnd_bounds b (i + 1) (b.size - (i + 1))
      have hblank := ih (i + 1) hlt
      have hafter := ih (commentEnd b (i + 1) (b.size - (i + 1))) (by omega)
      split
      · omega
      · split <;> omega

theorem skipExtended_takes : Takes 0 0 skipExtended := by
  intro s c hc
  have := blankEnd_bounds s.pattern c.pos (s.pattern.size - c.pos) hc
  simp [skipExtended]
  grind

/-- Digits are read as far as they go, and no more of them than there may be. -/
theorem digitsFrom_bounds (b : Bytes) (radix limit i value n : Nat) (h : i ≤ b.size) :
    i ≤ (digitsFrom b radix limit i value n).stop ∧
      (digitsFrom b radix limit i value n).stop ≤ b.size := by
  induction n generalizing i value with
  | zero => exact ⟨Nat.le_refl _, h⟩
  | succ n ih =>
    unfold digitsFrom
    split
    · exact ⟨Nat.le_refl _, h⟩
    · split
      · rename_i d hd
        obtain ⟨_, hx, -⟩ := Option.bind_eq_some_iff.mp hd
        have hlt := (Array.getElem?_eq_some_iff.mp hx).1
        have := ih (i + 1) (radix * value + d) hlt
        exact ⟨by omega, this.2⟩
      · exact ⟨Nat.le_refl _, h⟩

theorem readDecimal_takes : Takes 0 0 readDecimal := by
  intro s c hc
  simp [readDecimal]
  grind [digitsFrom_bounds]

theorem readRadix_takes (radix count : Nat) : Takes 0 0 (readRadix radix count) := by
  intro s c hc
  simp [readRadix]
  grind [digitsFrom_bounds]

theorem seek_bounds (b : Bytes) (x : Char) (i n : Nat) : i ≤ seek b x i n ∧ seek b x i n ≤ i + n := by
  induction n generalizing i with
  | zero => exact ⟨Nat.le_refl _, Nat.le_refl _⟩
  | succ n ih =>
    have := ih (i + 1)
    unfold seek
    split <;> omega

/-! ## Escapes -/

theorem readBraced_takes (radix count start : Nat) : Takes 0 0 (readBraced radix count start) := by
  intro s c hc
  simp [readBraced]
  grind [digitsFrom_bounds]

theorem readHexByte_takes (inClass : Bool) : Takes 0 0 (readHexByte inClass) := by
  intro s c hc
  simp only [readHexByte, lands_bind]
  refine (readRadix_takes 16 2).then hc fun v c₁ h₁ => ?_
  cases v <;> exact h₁

theorem readHex4_takes (start : Nat) : Takes 0 0 (readHex4 start) := by
  intro s c hc
  simp only [readHex4, lands_bind, lands_here]
  refine (readRadix_takes 16 4).then hc fun v c₁ h₁ => ?_
  cases v with
  | none => trivial
  | some v =>
    simp only [lands_bind, lands_here]
    exact .ite (fun _ => h₁) fun _ => trivial

theorem readOctal_takes (inClass : Bool) : Takes 0 0 (readOctal inClass) := (readRadix_takes 8 3).map

theorem readControl_takes (start : Nat) : Takes 0 0 (readControl start) := by
  intro s c hc
  simp only [readControl, lands_bind, lands_peek]
  cases hx : s.charAt c.pos with
  | none => trivial
  | some x =>
    simp only [lands_bind, lands_skip, lands_pure]
    grind

theorem readEscaped_takes (inClass : Bool) (start : Nat) : Takes 0 0 (readEscaped inClass start) := by
  intro s c hc
  simp only [readEscaped, lands_bind, lands_read, lands_peek]
  cases hx : s.charAt c.pos with
  | none => trivial
  | some x =>
    have hlt := Reading.charAt_lt hx
    cases hcontrol : controlCode? s.dialect inClass x with
    | some code =>
      simp only [hcontrol, lands_bind, lands_skip, lands_pure]
      grind
    | none =>
      simp only [hcontrol, lands_bind, lands_peekAt]
      refine .ite (fun h => ?_) fun _ => .ite (fun _ => ?_) fun _ => .ite (fun _ => ?_) fun _ =>
        .ite (fun h => ?_) fun _ => .ite (fun _ => ?_) fun _ => .ite (fun _ => ?_) fun _ => ?_
      · exact (readBraced_takes 16 8 start).map.skip.lands (by grind) (by omega)
      · exact (readHexByte_takes inClass).skip.lands (by omega) (by omega)
      · exact (readHex4_takes start).skip.lands (by omega) (by omega)
      · exact (readBraced_takes 8 11 start).map.skip.lands (by grind) (by omega)
      · exact (readOctal_takes inClass).lands hc (by omega)
      · exact (readControl_takes start).skip.lands (by omega) (by omega)
      · exact nextCode_takes.map.lands (by omega) (by omega)

@[simp]
theorem lands_seesProperty {Q : Bool → Cursor → Prop} :
    Lands s c seesProperty Q ↔ Q ((s.charAt c.pos == some 'p' || s.charAt c.pos == some 'P') &&
      s.charAt (c.pos + 1) == some '{' && s.dialect.allows .propertyEscape) c := Iff.rfl

@[simp]
theorem lands_findProperty {name : String} {Q : Option CharType → Cursor → Prop} :
    Lands s c (findProperty name) Q ↔ Q (s.encoding.resolve c.properties name).1
      { c with properties := (s.encoding.resolve c.properties name).2 } := Iff.rfl

/-- The letter and the brace come first. -/
theorem readProperty_takes (start : Nat) : Takes 2 2 (readProperty start) := by
  intro s c hc
  simp only [readProperty, lands_bind, lands_nextByte, lands_skip, lands_sees, lands_allows]
  cases hx : s.charAt c.pos with
  | none =>
    have := Reading.charAt_none hx
    omega
  | some x =>
    refine ⟨x, rfl, .ite (fun hcaret => ?_) fun _ => ?_⟩
    all_goals
      simp only [lands_bind, lands_skip, lands_here, lands_read, lands_jump, lands_textSince, lands_eat]
      refine ⟨(seek_bounds _ _ _ _).1, by grind [seek_bounds], ?_⟩
      split
      · simp only [Bool.not_true, Bool.false_eq_true, if_false, lands_bind, lands_findProperty]
        split
        · simp only [lands_pure]
          grind [seek_bounds]
        · trivial
      · trivial

end RegexMachine.Pattern
