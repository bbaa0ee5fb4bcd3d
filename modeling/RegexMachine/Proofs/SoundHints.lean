import RegexMachine.Proofs.Beginnings
import RegexMachine.Proofs.Charts
import RegexMachine.Proofs.LeastBytes
import RegexMachine.Proofs.Scans

/-!
Hints of patterns are sound: where they rule out a start, an attempt from there finds nothing. So a
search at one place only finds what an attempt at that place would find.
-/
namespace RegexMachine
namespace Machine

/-! ## States of an attempt -/

/-- States that an attempt at a position comes to. -/
inductive AttemptAt (e : Setting) (st : State) (pos : Nat) : State → Prop
  | begin : AttemptAt e st pos ((st.enter e 0 pos).emit e (.start pos))
  | step {s t : State} (n : Nat) (h : AttemptAt e st pos s)
    (hstep : Machine.step (inner n) e s = .ok () t) : AttemptAt e st pos t

variable {p : Program} {l : Compile.Layout} {root : Node Measured} {scale : Scale} {strict : Prop}
  {e : Setting} {st s : State} {pos clock : Nat}

theorem AttemptAt.charted (h : AttemptAt e st pos s) (he : e.program = p) :
    ∃ γ, Charted p e 0 γ s := by
  induction h with
  | begin => exact ⟨id, .attempt he st pos id⟩
  | step n _ hstep ih =>
    obtain ⟨γ, h⟩ := ih
    exact ⟨_, .step n h hstep⟩

theorem AttemptAt.start_eq (hp : p.Compiled l root) (he : e.program = p)
    (h : AttemptAt e st pos s) : s.start = pos := by
  induction h with
  | begin => exact congrArg View.start (view_emit (st.enter e 0 pos) e (.start pos))
  | step n h hstep ih =>
    obtain ⟨γ, hcharted⟩ := h.charted he
    have hvisited := hcharted.visited
    obtain ⟨i, -, heffect⟩ := hvisited.effect hp (hvisited.fits hp) hstep
    exact heffect.start_eq.trans ih

/-- An attempt does not come to the end of the body of an absent operator. -/
theorem AttemptAt.not_absentEnd (hp : Orderly p l root scale strict) (he : e.program = p)
    (h : AttemptAt e st pos s) : e.program.code[s.ip]? ≠ some .absentEnd := by
  intro hi
  obtain ⟨γ, hcharted⟩ := h.charted he
  rcases hcharted.within hp with hreach | ⟨r, hr, x, hreach⟩
  · rcases (hp.settings he).main_allows hreach hi with hend | ⟨loops, hallows⟩
    · cases hend
    · exact hallows
  · obtain ⟨n, loops, -, -, ⟨hret, -⟩ | hallows | ⟨-, hsaves⟩⟩ :=
      (hp.settings he).sub_allows hr hreach hi
    · cases hret
    · exact hallows
    · exact hsaves

/-- Matches end nowhere but at the end of the program. -/
theorem AttemptAt.passing (hp : Orderly p l root scale strict) (he : e.program = p)
    (h : AttemptAt e st pos s) (hend : e.program.code[s.ip]? ≠ some .accept) (i : Instr)
    (hi : e.program.code[s.ip]? = some i) : i ≠ .accept ∧ i ≠ .absentEnd := by
  constructor
  · rintro rfl
    exact hend hi
  · rintro rfl
    exact h.not_absentEnd hp he hi

/-! ## Attempts that come to no match -/

/-- A run that comes to no match finds none, collects none, and is not interrupted. -/
theorem run_fruitless (hq : Quiet e)
    (hnone : ∀ t, AttemptAt e st pos t → ∀ i, e.program.code[t.ip]? = some i →
      i ≠ .accept ∧ i ≠ .absentEnd) (n : Nat) (h : AttemptAt e st pos s) :
    (run n e s).1 ≠ .interrupted ∧ (run n e s).1 ≠ .accepted ∧ (run n e s).2.best = s.best := by
  induction n generalizing s with
  | zero => exact ⟨nofun, nofun, rfl⟩
  | succ n ih =>
    have hbest := step_best hq (inner_undisturbed n) (hnone s h)
    rw [run_succ]
    cases hs : step (inner n) e s with
    | ok _ t =>
      rw [hs] at hbest
      obtain ⟨hne, hne', hrun⟩ := ih (h.step n hs)
      exact ⟨hne, hne', hrun.trans hbest⟩
    | error k t =>
      rw [hs] at hbest
      exact ⟨hbest.2.1, hbest.2.2, hbest.1⟩

/-- An attempt that comes to no match answers nothing. -/
theorem tried_fruitless (hq : Quiet e)
    (hnone : ∀ t, AttemptAt e st pos t → ∀ i, e.program.code[t.ip]? = some i →
      i ≠ .accept ∧ i ≠ .absentEnd) {o : Option SearchOutcome} {b : Option (Nat × Region)}
    (h : tried clock e st pos = .ok (o, b)) : o = none ∧ b = st.best := by
  obtain ⟨hne, hne', hbest⟩ := run_fruitless hq hnone clock .begin
  have hbegin : ((st.enter e 0 pos).emit e (.start pos)).best = st.best :=
    congrArg Core.best (core_emit (st.enter e 0 pos) e (.start pos))
  rw [hbegin] at hbest
  rw [tried, tryAt_eq (hq.signal _), attempt] at h
  generalize run clock e ((st.enter e 0 pos).emit e (.start pos)) = x at *
  obtain ⟨k, t⟩ := x
  cases k with
  | exhausted =>
    cases h
    exact ⟨rfl, (congrArg Core.best (core_emit t e (.exhausted pos))).trans hbest⟩
  | accepted => exact absurd rfl hne'
  | interrupted => exact absurd rfl hne
  | _ => cases h

/-! ## What a match begins with -/

/-- Hints that were read off the tree of a pattern allow all places where a match of it begins. -/
theorem Matches.allowed {layout : Compile.Layout} {c : View} (h : Matches layout root e c)
    (hhints : e.program.tables.hints = Hints.ofTree layout.encoding root)
    (hencoding : e.subject.encoding = layout.encoding) (hwell : e.subject.WellFormed)
    (hdistinct : root.Distinct) (hproper : root.Proper)
    (hbytes : ∃ s : Scale, s.encoding = layout.encoding ∧
      s.stringFolds = layout.encoding.hasStringFolds ∧ root.Everywhere (Node.hasBytes s))
    (hstart : c.start ≤ e.subject.size) (hb : e.subject.isBoundary c.start = true) :
    Allowed e c.start := by
  let rd := layout.reading e
  have hmatch : rd.inline.extent (rd.callExtent root.calledBody?) root c.start c.pos :=
    Reading.extent_inline root (Reading.distinct_ownBodies hdistinct rd (Node.self_mem_subtrees root))
      _ _ h
  have honward : Extent.onward e.subject.size c.start c.pos :=
    Reading.extent_onward (fun g p q hc => Reading.callExtent_onward hc) root _ _ h
  have hanchor {a : StartAnchor} (ha : e.program.tables.hints.anchor.has a = true) :
      e.subject.holds e.origin c.start a.anchor = true :=
    Hints.anchorOf_holds root hproper.ordered (by rwa [hhints] at ha) _ _ hmatch
  obtain ⟨s, hs, hfolds, hhas⟩ := hbytes
  refine ⟨hanchor, fun ha => eq_of_beq (hanchor ha), hanchor, ?_, fun lit hlit => ?_,
    fun set hset => ?_⟩
  · have hsuits : s.Suits rd := ⟨hs, by rw [hfolds, hs], hencoding⟩
    have hwidth := Reading.extent_width hsuits
      (fun g p q hc => (Reading.callExtent_onward hc).1) root hhas hproper.ordered _ _ hmatch
    have hmin : e.program.tables.hints.minLength = root.info.minBytes := by rw [hhints]; rfl
    have hle := honward.2
    rw [Nat.max_eq_right hstart] at hle
    omega
  · rw [hhints] at hlit
    exact Hints.leadingOf_startsAt root hlit _ _ hmatch
  · rw [hhints] at hset
    have hrd : rd.subject.encoding = rd.encoding := hencoding
    exact Hints.firstBytesOf_meets hrd hwell root hproper hset _ _ hb hmatch

/-- What is known of the hints of a pattern that defines no group twice. -/
structure Foretold (p : Program) (l : Compile.Layout) (root : Node Measured) : Prop where
  compiled : p.Compiled l root
  hints : p.tables.hints = Hints.ofTree l.encoding root
  encoding : p.encoding = l.encoding
  distinct : root.Distinct
  proper : root.Proper
  bytes : ∃ s : Scale, s.encoding = l.encoding ∧ s.stringFolds = l.encoding.hasStringFolds ∧
    root.Everywhere (Node.hasBytes s)

/-- An attempt comes to a match only where the hints allow one. -/
theorem AttemptAt.allowed (hp : Foretold p l root) (he : e.program = p)
    (hencoding : e.subject.encoding = p.encoding) (hwell : e.subject.WellFormed)
    (hpos : pos ≤ e.subject.size) (hb : e.subject.isBoundary pos = true)
    (h : AttemptAt e st pos s) (hi : e.program.code[s.ip]? = some .accept) : Allowed e pos := by
  obtain ⟨γ, hcharted⟩ := h.charted he
  have hmatch : Matches l root e s.view := (hcharted.visited.safe hp.compiled 1).1.goal hi
  obtain rfl : s.start = pos := h.start_eq hp.compiled he
  exact hmatch.allowed (he.symm ▸ hp.hints) (hencoding.trans hp.encoding) hwell hp.distinct hp.proper
    hp.bytes hpos hb

/-- Hints are sound for every search. -/
theorem Foretold.conservative (hp : Foretold p l root) (horderly : Orderly p l root scale strict)
    (he : e.program = p) (hencoding : e.subject.encoding = p.encoding)
    (hwell : e.subject.WellFormed) (hq : Quiet e) (hbest : st.best = none) (clock : Nat) :
    Conservative clock e st := by
  intro pos hpos hb hnot o b h
  rw [← hbest]
  refine tried_fruitless hq (fun t ht => ht.passing horderly he fun hend => ?_) h
  rw [allowed_iff.mpr (ht.allowed hp he hencoding hwell hpos hb hend)] at hnot
  cases hnot

/-! ## Searches at one place -/

theorem scan_here {q : Nat → Bool} {i n : Nat} (hq : q i = true) (hn : 0 < n) :
    Bytes.scan q i n = some i := by
  obtain ⟨m, rfl⟩ := Nat.exists_eq_succ_of_ne_zero (Nat.ne_of_gt hn)
  rw [Bytes.scan, if_pos hq]

/-- A place that the hints allow is the first one from itself on. -/
theorem Allowed.candidate?_eq (h : Allowed e pos) (hwell : e.subject.WellFormed)
    (hpos : pos ≤ e.subject.size) (hb : e.subject.isBoundary pos = true) :
    candidate? e pos = some pos := by
  have hsize : e.subject.size = e.subject.bytes.size := rfl
  unfold candidate?
  dsimp only
  cases hlit : e.program.tables.hints.leading with
  | some lit =>
    have hfind : e.subject.bytes.findText lit pos = some pos :=
      scan_here (h.leading lit hlit) (by omega)
    obtain ⟨-, hle, hgap⟩ := hwell.leftAdjust_spec hpos
    have hleft : e.subject.leftAdjust pos = pos := by
      refine Nat.le_antisymm hle (Nat.not_lt.mp fun hlt => ?_)
      rw [hgap pos hlt (Nat.le_refl pos)] at hb
      cases hb
    simp only [hfind, Option.map_some, hleft]
  | none =>
    have hline : (e.program.tables.hints.anchor.has .beginLine && decide (0 < pos) &&
        !e.subject.isLineStart pos) = false := by
      cases ha : e.program.tables.hints.anchor.has .beginLine with
      | false => rfl
      | true => simp [h.line ha]
    simp only [hline, Bool.false_eq_true, ↓reduceIte]
    cases hset : e.program.tables.hints.firstBytes with
    | none => rfl
    | some set =>
      obtain ⟨b, hbyte, hhas⟩ := h.firstBytes set hset
      have hlt : pos < e.subject.bytes.size := (Array.getElem?_eq_some_iff.mp hbyte).1
      refine scan_here ?_ (by omega)
      rwa [Bytes.byteAt, Array.getD_eq_getD_getElem?, hbyte]

theorem forwardFrom_past (clock : Nat) (e : Setting) {last : Nat} (h : last < pos) :
    forwardFrom clock e last pos = takeBest := by
  rw [forwardFrom_eq, if_pos h]

/-- After an attempt at the last place there is no other one. -/
theorem forwardFrom_last (clock : Nat) (e : Setting) (pos : Nat) :
    (if e.subject.atEnd pos then takeBest else forwardFrom clock e pos (e.subject.next pos)) =
      takeBest := by
  rw [forwardFrom_past clock e (Subject.lt_next e.subject pos), ite_self]

/-- A search that ends where it begins makes one attempt at most. -/
theorem forwardFrom_one (clock : Nat) (e : Setting) {last : Nat} (hlast : last ≤ pos) :
    forwardFrom clock e last pos = takeBest ∨
      forwardFrom clock e last pos = orElse (tryAt clock e pos) takeBest := by
  rw [forwardFrom_eq]
  split
  · exact Or.inl rfl
  · obtain rfl : last = pos := by omega
    cases candidate? e last with
    | none => exact Or.inl rfl
    | some c =>
      dsimp only
      split
      · exact Or.inl rfl
      · split
        · exact Or.inl (forwardFrom_past clock e (Subject.lt_next e.subject last))
        · obtain rfl : c = last := by omega
          rw [forwardFrom_last]
          exact Or.inr rfl

/-- It makes one if the hints allow it. -/
theorem Allowed.forwardFrom_eq (h : Allowed e pos) (clock : Nat) (hwell : e.subject.WellFormed)
    (hpos : pos ≤ e.subject.size) (hb : e.subject.isBoundary pos = true) :
    forwardFrom clock e pos pos = orElse (tryAt clock e pos) takeBest := by
  rw [Machine.forwardFrom_eq, if_neg (Nat.lt_irrefl pos), h.candidate?_eq hwell hpos hb]
  dsimp only
  rw [if_neg (Nat.lt_irrefl pos), if_neg (Nat.lt_irrefl pos), forwardFrom_last]

/-- A search at one place attempts a match there if the hints allow it. -/
theorem forward_here (clock : Nat) (hwell : e.subject.WellFormed)
    (hbol : e.subject.notBol = e.options.has .notBol) (hpos : e.origin ≤ e.subject.size)
    (hb : e.subject.isBoundary e.origin = true) :
    (forward clock e e.origin = pure .notFound ∨ forward clock e e.origin = takeBest ∨
      forward clock e e.origin = orElse (tryAt clock e e.origin) takeBest) ∧
    (Allowed e e.origin →
      forward clock e e.origin = orElse (tryAt clock e e.origin) takeBest) := by
  have hright : e.subject.rightAdjust e.origin = e.origin := by
    obtain ⟨-, hle, -, hgap⟩ := hwell.rightAdjust_spec hpos
    refine Nat.le_antisymm (Nat.not_lt.mp fun hlt => ?_) hle
    rw [hgap e.origin (Nat.le_refl _) hlt] at hb
    cases hb
  unfold forward
  rw [hright]
  rcases lastStart?_spec hbol (Nat.le_refl e.origin) hpos with ⟨hl, hbarren⟩ | ⟨l, hl, hle, hcut⟩
  · rw [hl]
    exact ⟨Or.inl rfl, fun ha => absurd ha (hbarren _ (Nat.le_refl _) (Nat.lt_succ_self _) hb)⟩
  · rw [hl]
    refine ⟨Or.inr (forwardFrom_one clock e hle), fun ha => ?_⟩
    obtain rfl : l = e.origin := Nat.le_antisymm hle
      (Nat.not_lt.mp fun hlt => hcut _ (Nat.le_refl _) (Nat.le_refl _) hlt ha)
    exact ha.forwardFrom_eq clock hwell hpos hb

end Machine

open Machine

/-- Hints of a pattern that defines no group twice are those of its tree, and its program is orderly. -/
theorem Compilation.ofPattern_foretold {setting : Pattern.Setting} {options : Options}
    {properties : PropertyRegistry} {p : Program}
    (hprogram : (Compilation.ofPattern setting options properties).result = .ok p)
    (honce : Pattern.definesOnce setting options properties = true) :
    ∃ l root scale, Foretold p l root ∧ Orderly p l root scale False := by
  obtain ⟨o, t, ho, hparse, htree⟩ := ofPattern_ok hprogram
  obtain ⟨a, scale, ha, horderly, -⟩ :=
    ofTree_orderly htree (Pattern.parse_groupNumbers hparse) (Pattern.parse_separate hparse)
      (Pattern.parse_ordered hparse)
  obtain ⟨hencoding, -, -, hhints⟩ := ofTree_tables htree ha
  exact ⟨_, _, scale, ⟨horderly.compiled, hhints, hencoding, Pattern.definesOnce_distinct honce ho hparse ha,
    Analyzed.ofTree_proper ha (Pattern.parse_proper hparse), Analyzed.ofTree_hasBytes ha⟩, horderly⟩

theorem Machine.takeBest_none {s : State} (h : s.best = none) :
    answer (takeBest s) = .ok .notFound := by
  obtain ⟨ip, pos, start, stack, regs, tally, memo, best, events⟩ := s
  cases h
  rfl

namespace Matcher

theorem matchAt_result (m : Matcher) {pos : Nat} (o : SearchOptions) (w : Watch)
    (h : pos ≤ m.subject.size) :
    (m.matchAt pos o w).result =
      answer (orElse (tryAt defaultClock (m.setting pos o w) pos) takeBest
        (begin m.state (m.setting pos o w))) := by
  rw [matchAt, if_neg (Nat.not_lt.mpr h)]
  exact runSearch_result _ _ _ _

/-- Hints of a pattern that defines no group twice are sound, whatever the subject and the options:
an attempt comes to a match at places only that the hints allow. So a search at one place comes to
what an attempt there comes to, if no limit stops the attempt before it is decided. -/
theorem searchWith_here {setting : Pattern.Setting} {options : Options}
    {properties : PropertyRegistry} {p : Program}
    (hprogram : (Compilation.ofPattern setting options properties).result = .ok p)
    (honce : Pattern.definesOnce setting options properties = true) (m : Matcher)
    (hm : m.program = p) (pos : Nat) (o : SearchOptions) (w : Watch)
    (hwell : (m.setting pos o w).subject.WellFormed) (hpos : pos ≤ m.subject.size)
    (hb : (m.setting pos o w).subject.isBoundary pos = true) :
    (∀ start st s, AttemptAt (m.setting start o w) st pos s →
      p.code[s.ip]? = some .accept → Allowed (m.setting start o w) pos) ∧
    (Allowed (m.setting pos o w) pos →
      (m.searchWith pos pos o w).result = (m.matchAt pos o w).result) ∧
    (Quiet (m.setting pos o w) → ∀ r, (m.matchAt pos o w).result = .ok r →
      (m.searchWith pos pos o w).result = .ok r) := by
  obtain ⟨l, root, scale, hp, horderly⟩ := Compilation.ofPattern_foretold hprogram honce
  have hencoding : (m.setting pos o w).subject.encoding = p.encoding := hm ▸ rfl
  let e := m.setting pos o w
  let s := begin m.state e
  obtain ⟨hcases, hallowed⟩ := forward_here (e := e) defaultClock hwell rfl hpos hb
  have hsearch : (m.searchWith pos pos o w).result = answer (forward defaultClock e pos s) := by
    have hin : ¬ (m.subject.size < pos || m.subject.size < pos) = true := by
      simpa using Nat.not_lt.mpr hpos
    rw [searchWith_result m o w defaultClock hin, if_pos (Nat.le_refl pos)]
  have hmatch := matchAt_result m o w hpos
  refine ⟨fun start st s h hi => ?_, fun ha => ?_, fun hq r hr => ?_⟩
  · have hcode : (m.setting start o w).program = p := hm
    exact h.allowed hp hm hencoding hwell hpos hb (hcode.symm ▸ hi)
  · rw [hsearch, hmatch]
    exact congrArg (fun search => answer (search s)) (hallowed ha)
  · by_cases ha : Allowed e pos
    · rw [← hr, hsearch, hmatch]
      exact congrArg (fun search => answer (search s)) (hallowed ha)
    · -- The attempt answers nothing, and so does the search, whether it makes one or not.
      have hsound : Conservative defaultClock e s :=
        hp.conservative horderly hm hencoding hwell hq rfl defaultClock
      obtain ⟨t, htry, ht⟩ : ∃ t, tryAt defaultClock e pos s = .ok none t ∧ t.best = none := by
        rw [hmatch] at hr
        cases htry : tryAt defaultClock e pos s with
        | error k t =>
          rw [orElse_error htry] at hr
          cases hr
        | ok answer t =>
          have htried : tried defaultClock e s pos = .ok (answer, t.best) := by rw [tried, htry]
          obtain ⟨rfl, ht⟩ := hsound pos hpos hb (rejected ha) _ _ htried
          exact ⟨t, rfl, ht⟩
      have hnone : answer (orElse (tryAt defaultClock e pos) takeBest s) = .ok .notFound := by
        rw [orElse_none htry]
        exact takeBest_none ht
      have hfinds {search : Search SearchOutcome}
          (hsame : forward defaultClock e e.origin = search)
          (h : answer (search s) = .ok .notFound) : (m.searchWith pos pos o w).result = .ok r := by
        rw [← hr, hsearch, hmatch]
        exact ((congrArg (fun x => answer (x s)) hsame).trans h).trans hnone.symm
      rcases hcases with h | h | h
      · exact hfinds h rfl
      · exact hfinds h (takeBest_none rfl)
      · exact hfinds h hnone

end Matcher

/-- The pattern `(a)(?!b)\g<1>` and the text `aa`. -/
def callingMatcher : Matcher := .new callingProgram #[97, 97] ⟨0, 0, 1024, 0, 16384⟩

/-- The search finds what the attempt finds. -/
theorem searchWith_callingMatcher :
    (callingMatcher.searchWith 0 0 .empty .none).result =
      .ok (.found ⟨#[some ⟨0, 2⟩, some ⟨1, 2⟩], none⟩) := by
  have hprogram : callingMatcher.program = callingProgram := by
    unfold callingMatcher Matcher.new
    with_reducible rfl
  have hwell : (callingMatcher.setting 0 .empty .none).subject.WellFormed := by
    have hencoding : (callingMatcher.setting 0 .empty .none).subject.encoding = .ascii := by
      decide +kernel
    have hspells : Encoding.Spells .ascii [97, 97] :=
      .cons (c := 97) (x := [97]) rfl (.cons (c := 97) (x := [97]) rfl .nil)
    rw [Subject.WellFormed, hencoding]
    exact hspells
  have hquiet : Quiet (callingMatcher.setting 0 .empty .none) := ⟨rfl, rfl, rfl, fun _ => rfl⟩
  have hmatch : (callingMatcher.matchAt 0 .empty .none).result =
      .ok (.found ⟨#[some ⟨0, 2⟩, some ⟨1, 2⟩], none⟩) := by decide +kernel
  exact (Matcher.searchWith_here (ok_of_isSome calling_compiles) (by decide +kernel) callingMatcher
    hprogram 0 .empty .none hwell (Nat.zero_le _) (by decide +kernel)).2.2 hquiet _ hmatch

end RegexMachine
