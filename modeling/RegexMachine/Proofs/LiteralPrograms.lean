import RegexMachine.Proofs.Beginnings
import RegexMachine.Proofs.EscapedTexts
import RegexMachine.Proofs.LeastBytes
import RegexMachine.Proofs.Programs

/-!
Programs of texts. A pattern that is a single literal is compiled to the one instruction that matches
it, and its hints take no byte inside a character for the beginning of the text.
-/
namespace RegexMachine

open Compile

variable {bytes : Bytes} {fold : Bool} {span : Span}

namespace Scale

/-- Lengths of a text do not depend on those of groups. -/
theorem atomInfo_textAtom (s : Scale) (groupMin : Array Nat) :
    { s with groupMin := groupMin }.atomInfo (Pattern.textAtom bytes fold) =
      s.atomInfo (Pattern.textAtom bytes fold) := by
  unfold Pattern.textAtom
  split <;> rfl

end Scale

theorem Node.measureRounds_textAtom (s : Scale) (n : Nat) :
    (measureRounds s (.atom span (Pattern.textAtom bytes fold)) n).1 =
      .atom ⟨span, s.atomInfo (Pattern.textAtom bytes fold)⟩ (Pattern.textAtom bytes fold) := by
  induction n generalizing s with
  | zero => rfl
  | succ n ih =>
    rw [measureRounds]
    split
    · rfl
    · rw [ih, Scale.atomInfo_textAtom]

/-- The measured tree of a text. -/
def textRoot (span : Span) (bytes : Bytes) (fold : Bool) (e : Encoding) : Node Measured :=
  .atom ⟨span, (Scale.start e 0).atomInfo (Pattern.textAtom bytes fold)⟩
    (Pattern.textAtom bytes fold)

theorem textRoot_distinct (e : Encoding) : (textRoot span bytes fold e).Distinct := by
  have hnumbers : (textRoot span bytes fold e).groupNumbers = [] := by
    unfold textRoot Pattern.textAtom
    split <;> rfl
  exact ⟨hnumbers ▸ List.nodup_nil, hnumbers ▸ nofun⟩

theorem textRoot_proper (e : Encoding) : (textRoot span bytes fold e).Proper := by
  simp [textRoot, Node.Proper, Node.Everywhere, Node.subtrees, Node.visit, Node.isProper,
    Node.hasOrder, Node.hasBranches]

theorem callees_textRoot (e : Encoding) : (textRoot span bytes fold e).callees = [] := by
  unfold textRoot Pattern.textAtom
  split <;> rfl

theorem Analyzed.ofTree_textAtom (d : Dialect) (e : Encoding) (names : NameTable) (b : Bool) :
    Analyzed.ofTree d e ⟨.atom span (Pattern.textAtom bytes fold), 0, names, b⟩ =
      .ok ⟨⟨textRoot span bytes fold e, 0, names, b⟩, ⟨#[false], #[false]⟩⟩ := by
  have hmeasured : ((Node.atom span (Pattern.textAtom bytes fold)).measured (Scale.start e 0)).1 =
      textRoot span bytes fold e := Node.measureRounds_textAtom _ _
  have hmeasure : Analyzed.measure d e ⟨.atom span (Pattern.textAtom bytes fold), 0, names, b⟩ =
      .ok (textRoot span bytes fold e) := by
    unfold measure
    dsimp only
    generalize (Node.atom span (Pattern.textAtom bytes fold)).measured (Scale.start e 0) = m
      at hmeasured
    obtain ⟨root, scale⟩ := m
    obtain rfl : root = _ := hmeasured
    simp [textRoot, Node.checkLooks, Node.subtrees, Node.visit, Node.splitsBehind]
  have hcalls : CallGraph.ofTree (textRoot span bytes fold e) 0 = .ok ⟨#[false], #[false]⟩ := by
    unfold CallGraph.ofTree
    rw [callees_textRoot]
    rfl
  unfold Analyzed.ofTree
  rw [hmeasure]
  simp only [bind, Except.bind]
  rw [hcalls]
  rfl

theorem textRoot_hasBytes (span : Span) (bytes : Bytes) (fold : Bool) (e : Encoding) :
    ∃ s : Scale, s.encoding = e ∧ s.stringFolds = e.hasStringFolds ∧
      (textRoot span bytes fold e).Everywhere (Node.hasBytes s) :=
  Analyzed.ofTree_hasBytes (Analyzed.ofTree_textAtom .native e .empty false)

/-! ## First bytes -/

namespace Hints

theorem of_mem_mapM {α β : Type} {g : α → Option β} {xs : List α} {ys : List β}
    (h : xs.mapM g = some ys) {y : β} (hy : y ∈ ys) : ∃ a ∈ xs, g a = some y := by
  induction xs generalizing ys with
  | nil =>
    cases h
    cases hy
  | cons a xs ih =>
    rw [List.mapM_cons] at h
    obtain ⟨z, hz, h⟩ := Option.bind_eq_some_iff.mp h
    obtain ⟨zs, hzs, h⟩ := Option.bind_eq_some_iff.mp h
    obtain rfl := Option.some.inj h
    rcases List.mem_cons.mp hy with rfl | hy
    · exact ⟨a, by simp, hz⟩
    · obtain ⟨b, hb, hgb⟩ := ih hzs hy
      exact ⟨b, List.mem_cons_of_mem _ hb, hgb⟩

/-- First bytes of texts begin characters. -/
theorem literalFirstBytes_heads (hspells : Encoding.utf8.Spells bytes.toList) {set : ByteSet}
    (h : literalFirstBytes .utf8 bytes fold = some set) {b : UInt8} (hb : set.has b = true) :
    Encoding.isContinuation b = false := by
  unfold literalFirstBytes at h
  split at h
  · cases h
  · rename_i y hy
    cases fold with
    | false =>
      simp only [Bool.false_eq_true, ↓reduceIte, Option.some.injEq] at h
      subst h
      rw [ByteSet.has_ofList, List.mem_singleton] at hb
      subst hb
      exact hspells.head (by rwa [Array.getElem?_toList])
    | true =>
      unfold foldedFirstBytes at h
      dsimp only at h
      rw [if_pos rfl] at h
      split at h
      · cases h
      · obtain ⟨heads, hheads, rfl⟩ := Option.map_eq_some_iff.mp h
        obtain ⟨codes, -, hheads⟩ := Option.bind_eq_some_iff.mp hheads
        obtain ⟨c, -, hc⟩ := of_mem_mapM hheads (ByteSet.has_ofList.mp hb)
        obtain ⟨x, hx, hhead⟩ := Option.bind_eq_some_iff.mp hc
        cases hencode : Encoding.utf8.encode c with
        | error _ =>
          rw [hencode] at hx
          cases hx
        | ok z =>
          rw [hencode] at hx
          cases hx
          obtain ⟨y, tail, rfl, hspell⟩ := Encoding.spelling_encode hencode
          cases hhead
          exact hspell.head rfl

theorem firstBytes_textRoot (hspells : Encoding.utf8.Spells bytes.toList) {set : ByteSet}
    (h : firstBytesOf .utf8 (textRoot span bytes fold .utf8) = some set) {b : UInt8}
    (hb : Encoding.isContinuation b = true) : set.has b = false := by
  rw [← Bool.not_eq_true]
  intro hhas
  unfold textRoot Pattern.textAtom at h
  split at h
  · cases h
  · rw [literalFirstBytes_heads hspells h hhas] at hb
    cases hb

end Hints

/-! ## Code -/

/-- Instructions that match a text. -/
inductive Instr.IsText : Instr → Prop
  | byte (b : UInt8) : IsText (.byte b)
  | text (lit : Bytes) : IsText (.text lit)
  | foldedText (lit : Bytes) : IsText (.foldedText lit)

/-- A literal that is not empty is a single instruction. -/
theorem Compile.literalCode_cases (e : Encoding) (bytes : Bytes) (fold : Bool) :
    literalCode e bytes fold = #[] ∨ ∃ i, literalCode e bytes fold = #[i] ∧ i.IsText := by
  unfold literalCode
  split
  · exact Or.inl rfl
  · split
    · exact Or.inr ⟨_, rfl, .foldedText _⟩
    · split
      · exact Or.inr ⟨_, rfl, .byte _⟩
      · exact Or.inr ⟨_, rfl, .text _⟩

theorem Compile.link_literalCode (subs : Array Subroutine) (e : Encoding) (bytes : Bytes)
    (fold : Bool) :
    ((literalCode e bytes fold).push .accept).map (link subs) =
      (literalCode e bytes fold).push .accept := by
  rcases literalCode_cases e bytes fold with h | ⟨i, h, hi⟩ <;> rw [h]
  · simp [link]
  · cases hi <;> simp [link]

theorem Compile.nodeCode_textRoot (span : Span) (l : Layout) (i : Issued) :
    nodeCode none (Place.start 0) (textRoot span bytes fold l.encoding) l i =
      .ok (literalCode l.encoding bytes fold) i := by
  have hatom : nodeCode none (Place.start 0) (textRoot span bytes fold l.encoding) l i =
      atomCode l.encoding (Pattern.textAtom bytes fold) l i := rfl
  rw [hatom]
  unfold Pattern.textAtom
  split
  · rename_i h
    rw [literalCode, if_pos h]
    rfl
  · rfl

theorem Compile.programCode_textRoot (l : Layout) (i : Issued) :
    programCode (textRoot span bytes fold l.encoding) ⟨#[false], #[false]⟩ [] l i =
      .ok ((literalCode l.encoding bytes fold).push .accept, #[]) i := by
  have hmain : nodeCode none (Place.start 0) (textRoot span bytes fold l.encoding) l i =
      .ok (literalCode l.encoding bytes fold) i := nodeCode_textRoot span l i
  have hcalled : CallGraph.isCalled ⟨#[false], #[false]⟩ 0 = false := rfl
  unfold programCode
  simp only [hcalled, Bool.false_eq_true, ↓reduceIte]
  change EStateM.bind
    (nodeCode none (Place.start 0) (textRoot span bytes fold l.encoding) l) _ i = _
  rw [EStateM.bind, hmain]
  exact congrArg (fun code => EStateM.Result.ok (code, #[]) i) (link_literalCode #[] _ _ _)

theorem Program.assemble_literalCode (e e' : Encoding) (t : Tables) (hloops : t.loops = #[]) :
    Program.assemble ((literalCode e bytes fold).push .accept) t e' =
      .ok ⟨(literalCode e bytes fold).push .accept, t, e'⟩ := by
  have hverify : verify ((literalCode e bytes fold).push .accept) t = none := by
    unfold verify loopError?
    rw [hloops]
    rcases literalCode_cases e bytes fold with h | ⟨i, h, hi⟩ <;> rw [h]
    · simp [Instr.isTerminal, codeError?, Instr.error?, Instr.targetError?, Instr.operandError?,
        Instr.target?]
    · cases hi <;> simp [Instr.isTerminal, codeError?, Instr.error?, Instr.targetError?,
        Instr.operandError?, Instr.target?]
  unfold assemble
  rw [hverify]

/-- Programs that match a text and nothing else. -/
structure Program.IsLiteral (p : Program) (bytes : Bytes) (fold : Bool) : Prop where
  code : p.code = (literalCode p.encoding bytes fold).push .accept
  captures : p.tables.captures = 0
  history : p.has .captureHistory = false
  hints : ∃ span, p.tables.hints = Hints.ofTree p.encoding (textRoot span bytes fold p.encoding)

/-- A text compiles to its literal. -/
theorem Compilation.ofTree_textAtom (setting : Pattern.Setting) {o : Options}
    (hhistory : o.has .captureHistory = false) (span : Span) (names : NameTable) (b : Bool) :
    ∃ p, (Compilation.ofTree setting o
        ⟨.atom span (Pattern.textAtom bytes fold), 0, names, b⟩).1 = .ok p ∧
      p.IsLiteral bytes fold ∧ p.encoding = setting.encoding ∧ p.tables.options = o := by
  let e := setting.encoding
  let a : Analyzed := ⟨⟨textRoot span bytes fold e, 0, names, b⟩, ⟨#[false], #[false]⟩⟩
  let code := (literalCode e bytes fold).push .accept
  let tables := tablesOf a #[] (.start a setting.dialect o) o e
  have hanalyzed : Analyzed.ofTree setting.dialect e
      ⟨.atom span (Pattern.textAtom bytes fold), 0, names, b⟩ = .ok a :=
    Analyzed.ofTree_textAtom setting.dialect e names b
  have hcalled : ∀ g, a.calls.isCalled g = false := by
    intro g
    cases g <;> rfl
  have hgenerate : generate a setting.dialect o e setting.limits.explosionDepth =
      .ok (code, tables) := by
    unfold generate
    rw [calledGroups_nil hcalled]
    dsimp only
    rw [if_neg (by decide)]
    have hcode : programCode a.tree.root a.calls []
        (layoutOf a [] o e setting.limits.explosionDepth)
        ⟨#[], 0, 0, 0, baseFeatures a setting.dialect o⟩ =
          .ok (code, #[]) ⟨#[], 0, 0, 0, baseFeatures a setting.dialect o⟩ :=
      programCode_textRoot _ _
    rw [hcode]
    rfl
  have hassemble : Program.assemble code tables e = .ok ⟨code, tables, e⟩ :=
    Program.assemble_literalCode _ _ _ rfl
  have hok : (Compilation.ofTree setting o
      ⟨.atom span (Pattern.textAtom bytes fold), 0, names, b⟩).1 = .ok ⟨code, tables, e⟩ := by
    unfold Compilation.ofTree
    rw [hanalyzed]
    dsimp only
    unfold Compilation.ofAnalyzed
    rw [hgenerate]
    dsimp only
    rw [hassemble]
  obtain ⟨hencoding, hoptions, hcaptures, hhints⟩ := Compilation.ofTree_tables hok hanalyzed
  exact ⟨_, hok, ⟨rfl, hcaptures, (Compilation.ofTree_records hok hanalyzed hcalled).trans hhistory,
    span, hhints⟩, hencoding, hoptions⟩

end RegexMachine
