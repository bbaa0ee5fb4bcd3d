import RegexMachine.Proofs.Parsing
import RegexMachine.Proofs.Searches

/-!
Guards do not change what a search finds. Programs with guards and without them are made from the
same tree, and each attempt of either comes to what the ways of the tree come to.
-/
namespace RegexMachine
open Compile Machine

/-! ## Trees that may have guards -/

/-- A tree without references, calls and parts that drop alternatives is understood. -/
theorem Node.understood_of_subtrees {n : Node Measured}
    (h : ∀ m ∈ n.subtrees, m.owns .hasBackref = false ∧ m.owns .hasCall = false ∧
      m.owns .hasControl = false ∧ forbidsGuards m = false) : n.understood = true := by
  induction n using Node.induction with
  | step n ih =>
    obtain ⟨hbackref, hcall, hcontrol, hforbids⟩ := h n (self_mem_subtrees n)
    have hparts : ∀ c ∈ n.children, c.understood = true := fun c hc =>
      ih c hc fun m hm => h m (mem_subtrees.mpr (Or.inr ⟨c, hc, hm⟩))
    cases n with
    | atom _ a =>
      cases a with
      | backref _ _ _ => cases hbackref
      | call _ _ => cases hcall
      | _ => rfl
    | repeated _ b mode body =>
      simp only [forbidsGuards, Bool.or_eq_false_iff] at hforbids
      simp [understood, bne, hforbids.2, hparts body (List.mem_singleton.mpr rfl)]
    | group _ k body =>
      have hbody := hparts body (List.mem_singleton.mpr rfl)
      cases k with
      | capture _ _ => exact hbody
      | plain => exact hbody
      | atomic => cases hcontrol
      | absent => cases hcontrol
    | conditional _ _ _ _ _ => cases hcontrol
    | look _ _ _ => cases hcontrol
    | sequence _ items => rw [understood, understoodAll_eq, List.all_eq_true]; exact hparts
    | alternation _ branches => rw [understood, understoodAll_eq, List.all_eq_true]; exact hparts

theorem Analyzed.understood_of_guardsAllowed {d : Dialect} {e : Encoding} {p : PatternTree Span}
    {a : Analyzed} (h : Analyzed.ofTree d e p = .ok a) (hg : guardsAllowed a.tree.root = true) :
    a.tree.root.understood = true := by
  simp only [guardsAllowed, Bool.and_eq_true, Bool.not_eq_true'] at hg
  obtain ⟨⟨⟨hbackref, hcall⟩, hcontrol⟩, hforbids⟩ := hg
  rw [ofTree_has h rfl, Array.any_eq_false'] at hbackref hcall hcontrol
  rw [Array.any_eq_false'] at hforbids
  exact Node.understood_of_subtrees fun m hm => ⟨by simpa using hbackref m hm,
    by simpa using hcall m hm, by simpa using hcontrol m hm, by simpa using hforbids m hm⟩

/-! ## Attempts -/

/-- An empty memory remembers no failure. -/
theorem Memo.new?_hasFailed {guards size : Nat} {m : Memo} (h : Memo.new? guards size = some m)
    (id p : Nat) : m.hasFailed id p = false := by
  unfold new? at h
  split at h
  · cases h
  · cases h
    simp [hasFailed]

namespace Machine

variable {e e' : Setting} {l l' : Layout} {root : Node Measured}

/-- Each attempt comes to what the ways of the tree come to, as long as what guards have remembered is
right, or matters to no way. -/
theorem attempts_gather (hq : Quiet e) (h : e.program.Renders l root)
    (hencoding : e.subject.encoding = e.program.encoding) :
    ∃ φ : Promise, ∀ (μ : Memory) (fate : Fate),
      μ.Safe φ e.subject.size ⟨none, 0, 0⟩ none (fun _ => True) fate → (∀ i, ¬ fate.spare i) →
      ((e.options.has .findNotEmpty = false ∧ e.options.has .findLongest = false) ∨
        ∀ i, ¬ fate.live i) → ∀ (pos : Nat) (s : State), pos ≤ e.subject.size → μ.Good s.memo →
        Gathers e μ.Good (.going (s.enter e 0 pos).core)
          (e.harvest pos (e.scene.ways root (.start e.program pos)) s.best) := by
  obtain ⟨φ, y, hend, hgives⟩ := tree_gives hq h hencoding fun _ => True
  refine ⟨φ, fun μ fate hsafe hfull hlive pos s hpos hmemo => ?_⟩
  have hyields := hgives μ fate hsafe _ _ (ready_enter hpos hmemo _)
  refine hyields.gathers hend rfl hfull hlive (fun t ht => ?_) rfl
  exact (e.scene.ways_regular root).forward _ t ht

/-- Where there is no memory nothing can be wrong with it. -/
theorem attempts_gather_bare (hq : Quiet e) (h : e.program.Renders l root)
    (hencoding : e.subject.encoding = e.program.encoding) (pos : Nat) (s : State)
    (hpos : pos ≤ e.subject.size) (hmemo : s.memo = none) :
    Gathers e (· = none) (.going (s.enter e 0 pos).core)
      (e.harvest pos (e.scene.ways root (.start e.program pos)) s.best) := by
  obtain ⟨φ, hgather⟩ := attempts_gather hq h hencoding
  exact hgather .blank .hopeless (Or.inr (Or.inl rfl)) (fun _ => id) (Or.inr fun _ => id) pos s hpos
    hmemo

/-- What guards have remembered since the search began is right. -/
theorem attempts_gather_begun (hq : Quiet e) (h : e.program.Renders l root)
    (hencoding : e.subject.encoding = e.program.encoding) :
    ∃ μ : Memory, μ.Good (Matcher.newMemo e) ∧ ∀ (pos : Nat) (s : State),
      pos ≤ e.subject.size → μ.Good s.memo →
        Gathers e μ.Good (.going (s.enter e 0 pos).core)
          (e.harvest pos (e.scene.ways root (.start e.program pos)) s.best) := by
  cases hm : Matcher.newMemo e with
  | none => exact ⟨.blank, rfl, attempts_gather_bare hq h hencoding⟩
  | some m =>
    obtain ⟨φ, hgather⟩ := attempts_gather hq h hencoding
    unfold Matcher.newMemo at hm
    split at hm
    · rename_i hplain
      simp only [Bool.and_eq_true, Bool.not_eq_true'] at hplain
      refine ⟨.kept φ, fun ψ m' _ hm' id p hf => ?_, hgather _ .certain (safe_certain φ _)
        (fun _ => id) (Or.inl ⟨hplain.2, hplain.1.2⟩)⟩
      cases hm'
      rw [Memo.new?_hasFailed hm] at hf
      cases hf
    · cases hm

/-- Searches that begin in the same way, with programs made from the same tree. -/
structure Alike (e e' : Setting) : Prop where
  subject : e'.subject = e.subject
  origin : e'.origin = e.origin
  options : e'.options = e.options
  encoding : e'.program.encoding = e.program.encoding
  hints : e'.program.tables.hints = e.program.tables.hints
  captures : e'.program.tables.captures = e.program.tables.captures
  history : e'.program.has .captureHistory = e.program.has .captureHistory

theorem Alike.harvest_eq (h : Alike e e') (pos : Nat) (best : Option (Nat × Region)) :
    e'.harvest pos (e'.scene.ways root (.start e'.program pos)) best =
      e.harvest pos (e.scene.ways root (.start e.program pos)) best := by
  simp only [Setting.harvest, Setting.scene, Trail.start, h.subject, h.origin, h.options, h.history,
    h.captures]

/-- Attempts answer alike that come to the ways of the same tree. -/
theorem Alike.twins_of_gathers (h : Alike e e') (hq : Quiet e) (hq' : Quiet e')
    (Good Good' : Option Memo → Prop)
    (hgather : ∀ (pos : Nat) (s : State), pos ≤ e.subject.size → Good s.memo →
      Gathers e Good (.going (s.enter e 0 pos).core)
        (e.harvest pos (e.scene.ways root (.start e.program pos)) s.best))
    (hgather' : ∀ (pos : Nat) (s : State), pos ≤ e'.subject.size → Good' s.memo →
      Gathers e' Good' (.going (s.enter e' 0 pos).core)
        (e'.harvest pos (e'.scene.ways root (.start e'.program pos)) s.best)) :
    Twins e e' fun s s' => s'.best = s.best ∧ Good s.memo ∧ Good' s'.memo := by
  refine ⟨h.subject, h.origin, h.options, h.hints, fun h => h.1, ?_⟩
  rintro pos s s' hpos ⟨hbest, hmemo, hmemo'⟩
  obtain ⟨N, t, ht, hgood, htry⟩ := tryAt_gathers hq (hgather pos s hpos hmemo)
  obtain ⟨M, t', ht', hgood', htry'⟩ :=
    tryAt_gathers hq' (hgather' pos s' (h.subject ▸ hpos) hmemo')
  rw [h.harvest_eq, hbest] at ht' htry'
  refine ⟨max N M, (e.harvest pos (e.scene.ways root (.start e.program pos)) s.best).1.map .found,
    t, t', ⟨ht'.trans ht.symm, hgood, hgood'⟩, fun clock hn => ?_⟩
  exact ⟨htry clock (by omega), htry' clock (by omega)⟩

theorem Alike.twins (h : Alike e e') (hq : Quiet e) (hq' : Quiet e')
    (hr : e.program.Renders l root) (hr' : e'.program.Renders l' root)
    (hencoding : e.subject.encoding = e.program.encoding) :
    ∃ R : State → State → Prop, Twins e e' R ∧ ∀ s s' : State, s'.best = s.best →
      s.memo = Matcher.newMemo e → s'.memo = Matcher.newMemo e' → R s s' := by
  obtain ⟨μ, hnew, hgather⟩ := attempts_gather_begun hq hr hencoding
  obtain ⟨μ', hnew', hgather'⟩ :=
    attempts_gather_begun hq' hr' (by rw [h.subject, hencoding, h.encoding])
  exact ⟨_, h.twins_of_gathers hq hq' _ _ hgather hgather',
    fun s s' hbest hs hs' => ⟨hbest, hs ▸ hnew, hs' ▸ hnew'⟩⟩

end Machine

/-! ## Programs with guards and without -/

/-- The same pattern, with guards from another nesting of loops on. -/
def Pattern.Setting.withDepth (s : Pattern.Setting) (depth : Nat) : Pattern.Setting :=
  { s with limits := { s.limits with explosionDepth := depth } }

/-- Where no loop may have guards the depth makes no difference. -/
theorem Compile.generate_bare {a : Analyzed} {d : Dialect} {o : Options} {e : Encoding}
    (h : (!o.has .findLongest && guardsAllowed a.tree.root) = false) (depth depth' : Nat) :
    generate a d o e depth = generate a d o e depth' := by
  simp only [generate, layoutOf, h, Bool.false_eq_true, ↓reduceIte]

namespace Matcher

variable {p p' : Program} {l l' : Layout} {root : Node Measured}

/-- A search that does not end for a limit comes to the same with either of two programs that are
made from the same tree under the same options. -/
theorem searchWith_renders (hr : p.Renders l root) (hr' : p'.Renders l' root)
    (hencoding : p'.encoding = p.encoding) (hoptions : p'.tables.options = p.tables.options)
    (hcaptures : p'.tables.captures = p.tables.captures)
    (hhints : p'.tables.hints = p.tables.hints) (m : Matcher) (start range : Nat)
    (o : SearchOptions) {w : Watch} (hq : Quiet (m.setting start o w)) :
    ∃ N, ∀ clock, N ≤ clock →
      (searchWith { m with program := p' } start range o w clock).result =
        (searchWith { m with program := p } start range o w clock).result := by
  by_cases hout : (m.subject.size < start || m.subject.size < range) = true
  · refine ⟨0, fun clock _ => ?_⟩
    rw [searchWith, searchWith, if_pos hout, if_pos hout]
    rfl
  let e := setting { m with program := p } start o w
  let e' := setting { m with program := p' } start o w
  have hquiet : Quiet e := ⟨hq.retries, hq.searchRetries, hq.frames, hq.signal⟩
  have hquiet' : Quiet e' := ⟨hq.retries, hq.searchRetries, hq.frames, hq.signal⟩
  have hhistory : p'.has .captureHistory = p.has .captureHistory := by
    rw [hr.records, hr'.records, hoptions]
  have hsearch : e'.options = e.options := by simp only [e, e', setting, hoptions]
  have hsubject : e'.subject = e.subject := by simp only [e, e', setting, hoptions, hencoding]
  have halike : Alike e e' :=
    ⟨hsubject, rfl, hsearch, hencoding, hhints, hcaptures, hhistory⟩
  obtain ⟨R, htwins, hstart⟩ := halike.twins hquiet hquiet' hr hr' rfl
  have hbegin : R (begin m.state e) (begin m.state e') := hstart _ _ rfl rfl rfl
  have hresult clock := searchWith_result { m with program := p } o w clock hout
  have hresult' clock := searchWith_result { m with program := p' } o w clock hout
  simp only [hresult, hresult']
  split
  · exact htwins.forward_eq hbegin range
  · unfold backward
    rw [show (setting { m with program := p' } start o w).subject.leftAdjust _ =
      e.subject.leftAdjust e.origin by rw [← hsubject]; rfl]
    exact htwins.backwardFrom_eq hbegin (e.subject.leftAdjust_le_size e.origin)

/-- Guards do not change what a search finds: it comes to the same with guards from any nesting of
loops on as it does without guards. -/
theorem searchWith_withDepth {s : Pattern.Setting} {options : Options}
    {properties : PropertyRegistry} {depth : Nat} {p p₀ : Program}
    (hp : (Compilation.ofPattern (s.withDepth depth) options properties).result = .ok p)
    (hp₀ : (Compilation.ofPattern (s.withDepth 0) options properties).result = .ok p₀)
    (m : Matcher) (hretries : m.limits.retries = 0) (hsearchRetries : m.limits.searchRetries = 0)
    (hframes : m.limits.frames = 0) (start range : Nat) (o : SearchOptions) {w : Watch}
    (hsignal : ∀ n, w.signal n = false) :
    ∃ N, ∀ clock, N ≤ clock →
      (searchWith { m with program := p } start range o w clock).result =
        (searchWith { m with program := p₀ } start range o w clock).result := by
  obtain ⟨o₁, t, ho, ht, htree⟩ := Compilation.ofPattern_ok hp
  obtain ⟨o₂, t', ho', ht', htree₀⟩ := Compilation.ofPattern_ok hp₀
  obtain rfl : o₁ = o₂ := Except.ok.inj (ho.symm.trans ho')
  obtain rfl : t = t' := Except.ok.inj (ht.symm.trans ht')
  obtain ⟨a, code, tables, ha, hgen, -, hmade⟩ := Compilation.ofTree_ok htree
  obtain ⟨a', code', tables', ha', hgen', -, hmade'⟩ := Compilation.ofTree_ok htree₀
  obtain rfl : a = a' := Except.ok.inj (ha.symm.trans ha')
  cases hguards : !o₁.has .findLongest && guardsAllowed a.tree.root with
  | false =>
    obtain ⟨rfl, rfl⟩ := Prod.mk.inj (Except.ok.inj
      ((hgen.symm.trans (generate_bare hguards _ _)).trans hgen'))
    refine ⟨0, fun clock _ => ?_⟩
    rw [hmade, hmade']
    rfl
  | true =>
    have hordered := Pattern.parse_ordered ht
    have hunderstood := Analyzed.understood_of_guardsAllowed ha (Bool.and_eq_true_iff.mp hguards).2
    have hr := Compilation.ofTree_renders htree ha hordered hunderstood
    have hr₀ := Compilation.ofTree_renders htree₀ ha hordered hunderstood
    obtain ⟨hencoding, hoptions, hcaptures, hhints⟩ := Compilation.ofTree_tables htree ha
    obtain ⟨hencoding₀, hoptions₀, hcaptures₀, hhints₀⟩ := Compilation.ofTree_tables htree₀ ha
    exact searchWith_renders hr₀ hr (hencoding.trans hencoding₀.symm)
      (hoptions.trans hoptions₀.symm) (hcaptures.trans hcaptures₀.symm)
      (hhints.trans hhints₀.symm) m start range o ⟨hretries, hsearchRetries, hframes, hsignal⟩

/-- The pattern `(a*)*b`. -/
def nested : Pattern.Setting := ⟨#[40, 97, 42, 41, 42, 98], .native, .ascii, .standard⟩

theorem nested_compiles (depth : Nat) (h : depth = 2 ∨ depth = 0) :
    (Compilation.ofPattern (nested.withDepth depth) .empty .empty).result.toOption.isSome = true := by
  rcases h with rfl | rfl <;> decide +kernel

/-- Its program with guards in both loops. -/
def nestedGuarded : Program :=
  (Compilation.ofPattern (nested.withDepth 2) .empty .empty).result.toOption.get
    (nested_compiles 2 (Or.inl rfl))

/-- Its program without guards. -/
def nestedBare : Program :=
  (Compilation.ofPattern (nested.withDepth 0) .empty .empty).result.toOption.get
    (nested_compiles 0 (Or.inr rfl))

/-- In `aac` neither program finds anything. -/
theorem searchWith_nested :
    nestedGuarded.tables.guards = 2 ∧ nestedBare.tables.guards = 0 ∧
      ∃ N, ∀ clock, N ≤ clock →
        (searchWith ⟨nestedGuarded, #[97, 97, 99], ⟨0, 0, 1024, 0, 16384⟩, .initial⟩ 0 3 .empty
            .none clock).result =
          (searchWith ⟨nestedBare, #[97, 97, 99], ⟨0, 0, 1024, 0, 16384⟩, .initial⟩ 0 3 .empty
            .none clock).result := by
  refine ⟨by decide +kernel, by decide +kernel, ?_⟩
  exact searchWith_withDepth (ok_of_isSome (nested_compiles 2 (Or.inl rfl)))
    (ok_of_isSome (nested_compiles 0 (Or.inr rfl)))
    ⟨nestedBare, #[97, 97, 99], ⟨0, 0, 1024, 0, 16384⟩, .initial⟩ rfl rfl rfl 0 3 .empty
    fun _ => rfl

end Matcher
end RegexMachine
