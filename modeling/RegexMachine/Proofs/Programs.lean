import RegexMachine.Proofs.TreeRuns
import RegexMachine.Proofs.Trees

/-!
Programs of analyzed trees that call no groups: where the code of the tree stands in them, and what
running them comes to.
-/
namespace RegexMachine
open Compile

theorem ok_of_isSome {ε α : Type} {x : Except ε α} (h : x.toOption.isSome = true) :
    x = .ok (x.toOption.get h) := by
  cases x with
  | error e => cases h
  | ok a => rfl

/-! ## Making a program -/

theorem Compilation.ofTree_ok {s : Pattern.Setting} {o : Options} {t : PatternTree Span}
    {p : Program} (h : (Compilation.ofTree s o t).1 = .ok p) :
    ∃ a code tables, Analyzed.ofTree s.dialect s.encoding t = .ok a ∧
      Compile.generate a s.dialect o s.encoding s.limits.explosionDepth = .ok (code, tables) ∧
      Program.verify code tables = none ∧ p = ⟨code, tables, s.encoding⟩ := by
  unfold Compilation.ofTree at h
  cases ha : Analyzed.ofTree s.dialect s.encoding t with
  | error e =>
    rw [ha] at h
    cases h
  | ok a =>
    rw [ha] at h
    dsimp only [Compilation.ofAnalyzed] at h
    cases hg : Compile.generate a s.dialect o s.encoding s.limits.explosionDepth with
    | error e =>
      rw [hg] at h
      cases h
    | ok r =>
      obtain ⟨code, tables⟩ := r
      rw [hg] at h
      dsimp only [Program.assemble] at h
      cases hv : Program.verify code tables with
      | some e =>
        rw [hv] at h
        cases h
      | none =>
        rw [hv] at h
        cases h
        exact ⟨a, code, tables, rfl, hg, hv, rfl⟩

theorem Compilation.ofPattern_ok {s : Pattern.Setting} {options : Options}
    {properties : PropertyRegistry} {p : Program}
    (h : (Compilation.ofPattern s options properties).result = .ok p) :
    ∃ o t, s.dialect.effectiveOptions options = .ok o ∧
      (Pattern.parse s o properties).1 = .ok t ∧ (Compilation.ofTree s o t).1 = .ok p := by
  unfold ofPattern at h
  split at h
  · cases h
  · rename_i o ho
    dsimp only at h
    split at h
    · cases h
    · rename_i t ht
      exact ⟨o, t, ho, ht, h⟩

/-- State of the numbers before any code is written. -/
def Compile.Issued.start (a : Analyzed) (d : Dialect) (o : Options) : Compile.Issued :=
  ⟨#[], 0, 0, 0, Compile.baseFeatures a d o⟩

theorem Compile.generate_ok {a : Analyzed} {d : Dialect} {o : Options} {e : Encoding} {depth : Nat}
    {code : Chunk} {tables : Tables} (h : generate a d o e depth = .ok (code, tables)) :
    ∃ subs i, programCode a.tree.root a.calls (calledGroups a.calls)
        (layoutOf a (calledGroups a.calls) o e depth) (.start a d o) = .ok (code, subs) i ∧
      tables = tablesOf a subs i o e := by
  unfold generate at h
  dsimp only at h
  split at h
  · cases h
  · split at h
    · cases h
    · rename_i hcode
      cases h
      exact ⟨_, _, hcode, rfl⟩

theorem Compile.calledGroups_nil {g : CallGraph} (hg : ∀ k, g.isCalled k = false) :
    calledGroups g = [] := by
  rw [calledGroups, List.filter_eq_nil_iff]
  intro k _
  simp [hg k]

/-- The program of a tree without calls is the code of the tree. -/
theorem Compile.programCode_ok {root : Node Measured} {g : CallGraph} {l : Layout} {i i' : Issued}
    {code : Chunk} {subs : Array Subroutine} (hg : ∀ k, g.isCalled k = false)
    (h : programCode root g [] l i = .ok (code, subs) i') :
    ∃ main, nodeCode none (Place.start 0) root l i = .ok main i' ∧
      code = (main.push .accept).map (link #[]) ∧ subs = #[] := by
  unfold programCode at h
  rw [hg 0] at h
  obtain ⟨main, j, hmain, h⟩ := bind_ok h
  obtain ⟨r, k, hsubs, h⟩ := bind_ok h
  cases hsubs
  cases h
  exact ⟨main, hmain, rfl, rfl⟩

/-! ## What is verified -/

theorem Program.codeError?_none {code : Array Instr} {t : Tables} {place n x : Nat}
    (h : codeError? code t place n = none) (hx : place ≤ x ∧ x < place + n) {i : Instr}
    (hi : code[x]? = some i) : i.error? t code.size x = none := by
  induction n generalizing place with
  | zero => omega
  | succ n ih =>
    unfold codeError? at h
    cases he : (code[place]?).bind (·.error? t code.size place) with
    | some e =>
      rw [he] at h
      cases h
    | none =>
      rw [he] at h
      by_cases hp : place = x
      · subst hp
        rwa [hi] at he
      · exact ih h (by omega)

/-- Groups that are opened exist. -/
theorem Program.group_lt {code : Array Instr} {t : Tables} (h : verify code t = none) {x : Addr}
    {g : Nat} {undo : Bool} (hi : code[x]? = some (.groupStart g undo)) : g < t.captures + 1 := by
  have hlt : x < code.size := (Array.getElem?_eq_some_iff.mp hi).1
  have hcode : codeError? code t 0 code.size = none := by
    unfold verify at h
    split at h
    · cases h
    · split at h
      · cases h
      · exact (Option.or_eq_none_iff.mp h).1
  have herror := codeError?_none hcode ⟨Nat.zero_le x, by rwa [Nat.zero_add]⟩ hi
  have hgroup := (Option.or_eq_none_iff.mp herror).2
  simp [Instr.operandError?, Instr.badGroup?] at hgroup
  omega

/-! ## Where the tree stands -/

namespace Built

/-- A program on a subject. -/
def ofProgram (p : Program) (l : Layout) (s : Subject) (origin : Nat) : Built where
  code := p.code
  loops := p.tables.loops
  subs := #[]
  layout := l
  scene := ⟨s, origin, p.has .captureHistory⟩

end Built

/-- A program that was made from a tree that is understood. -/
structure Program.Renders (p : Program) (l : Layout) (root : Node Measured) : Prop where
  clear : root.Clear
  /-- Lengths have been measured in the encoding of the program. -/
  weighed : ∃ s : Scale, s.encoding = p.encoding ∧ root.Weighed s
  encoding : l.encoding = p.encoding
  calls : ∀ g, l.calls.isCalled g = false
  captures : l.capturesMatter = false
  groups : ∀ (x : Addr) g undo, p.code[x]? = some (.groupStart g undo) → g < p.tables.captures + 1
  secure : ∃ onPath, root.Secure l.undone onPath
  records : p.has .captureHistory = p.tables.options.has .captureHistory
  /-- Groups that are not restored have no history. -/
  history : ∀ g, l.undone.getD g true = false → p.has .captureHistory = false
  sparing : l.guardDepth = 0 ∨ root.guardable = true
  /-- The code of the tree is followed by the end of the match. -/
  code : ∃ i i' main, nodeCode none (Place.start 0) root l i = .ok main i' ∧
    p.code = (main.push .accept).map (link #[]) ∧ i.loops = #[] ∧ p.tables.loops = i'.loops

/-- Loops get guards only where they may have them. -/
theorem layoutOf_sparing {d : Dialect} {e : Encoding} {t : PatternTree Span} {a : Analyzed}
    (h : Analyzed.ofTree d e t = .ok a) {called : List Nat} {o : Options} {e' : Encoding}
    {depth : Nat} :
    (layoutOf a called o e' depth).guardDepth = 0 ∨ a.tree.root.guardable = true := by
  unfold layoutOf
  dsimp only
  split
  · rename_i hg
    exact Or.inr (Analyzed.guardable_of_guardsAllowed h (Bool.and_eq_true_iff.mp hg).2)
  · exact Or.inl rfl

/-- With a history all groups are restored. -/
theorem undoneGroups_history {root : Node Measured} {g : CallGraph} {captures k : Nat}
    {history : Bool} (h : (undoneGroups root g captures history).getD k true = false) :
    history = false := by
  cases history with
  | false => rfl
  | true =>
    have hall : (Array.replicate (captures + 1) true).getD k true = true := by
      rw [Array.getD_eq_getD_getElem?, Array.getElem?_replicate]
      split <;> rfl
    have := markUndone_marks g (!g.isCalled 0) _ root k hall
    unfold undoneGroups at h
    rw [h] at this
    cases this

/-- What a program has from its tree and its options, whatever its code is. -/
theorem Compilation.ofTree_tables {s : Pattern.Setting} {o : Options} {t : PatternTree Span}
    {p : Program} (h : (Compilation.ofTree s o t).1 = .ok p) {a : Analyzed}
    (ha : Analyzed.ofTree s.dialect s.encoding t = .ok a) :
    p.encoding = s.encoding ∧ p.tables.options = o ∧ p.tables.captures = a.tree.captures ∧
      p.tables.hints = Hints.ofTree s.encoding a.tree.root := by
  obtain ⟨a', code, tables, ha', hgen, -, rfl⟩ := ofTree_ok h
  obtain rfl : a = a' := Except.ok.inj (ha.symm.trans ha')
  obtain ⟨subs, i, -, rfl⟩ := generate_ok hgen
  exact ⟨rfl, rfl, rfl, rfl⟩

/-- A program without calls records a history if its options ask for one. -/
theorem Compilation.ofTree_records {s : Pattern.Setting} {o : Options} {t : PatternTree Span}
    {p : Program} (h : (Compilation.ofTree s o t).1 = .ok p) {a : Analyzed}
    (ha : Analyzed.ofTree s.dialect s.encoding t = .ok a) (hcalled : ∀ g, a.calls.isCalled g = false) :
    p.has .captureHistory = o.has .captureHistory := by
  obtain ⟨a', code, tables, ha', hgen, -, rfl⟩ := ofTree_ok h
  obtain rfl : a = a' := Except.ok.inj (ha.symm.trans ha')
  obtain ⟨subs, i, hcode, rfl⟩ := generate_ok hgen
  rw [calledGroups_nil hcalled] at hcode
  obtain ⟨main, hmain, -, -⟩ := programCode_ok hcalled hcode
  let B : Built := ⟨#[], #[], #[], layoutOf a [] o s.encoding s.limits.explosionDepth,
    ⟨⟨#[], s.encoding, false, false⟩, 0, false⟩⟩
  have hgrow := (Built.nodeCode_writes B a.tree.root none (layoutOf_sparing ha) _ _ _ _ hmain).1
  refine hgrow.history.trans ?_
  simp [Issued.start, baseFeatures, FlagSet.has_set distinct_features]

theorem Compilation.ofTree_renders {s : Pattern.Setting} {o : Options} {t : PatternTree Span}
    {p : Program} (h : (Compilation.ofTree s o t).1 = .ok p) {a : Analyzed}
    (ha : Analyzed.ofTree s.dialect s.encoding t = .ok a) (ht : t.root.Ordered)
    (hu : a.tree.root.understood = true) :
    p.Renders (layoutOf a [] o s.encoding s.limits.explosionDepth) a.tree.root := by
  have hcalled := Analyzed.ofTree_isCalled ha (Node.understood_callees hu)
  have hrecords := ofTree_records h ha hcalled
  obtain ⟨a', code, tables, ha', hgen, hverify, rfl⟩ := ofTree_ok h
  obtain rfl : a = a' := Except.ok.inj (ha.symm.trans ha')
  obtain ⟨subs, i, hcode, rfl⟩ := generate_ok hgen
  rw [calledGroups_nil hcalled] at hcode
  obtain ⟨main, hmain, rfl, rfl⟩ := programCode_ok hcalled hcode
  obtain ⟨scale, hscale, -, hweighed⟩ := Analyzed.ofTree_weighed ha
  let l := layoutOf a [] o s.encoding s.limits.explosionDepth
  have hsparing : l.guardDepth = 0 ∨ a.tree.root.guardable = true := layoutOf_sparing ha
  have hcaptures : l.capturesMatter = false := by
    obtain ⟨hrefs, hconditionals⟩ := Node.understood_refers hu
    simp only [l, layoutOf, Analyzed.ofTree_has ha (t := .hasBackref) rfl, hrefs, hconditionals,
      Bool.or_false]
  exact ⟨⟨hu, Analyzed.ofTree_ordered ha ht⟩, ⟨scale, hscale, hweighed⟩, rfl, hcalled, hcaptures,
    fun x g undo hi => Program.group_lt hverify hi, ⟨_, markUndone_secures _ _ _ (.refl _)⟩,
    hrecords, fun g hg => hrecords.trans (undoneGroups_history hg), hsparing,
    _, _, main, hmain, rfl, rfl, rfl⟩

/-! ## Running it -/

/-- What has been matched when an attempt begins. -/
def Trail.start (p : Program) (pos : Nat) : Trail := ⟨pos, .none p.tables.captures, none⟩

/-- Captures that agree in all fields are the same. -/
theorem Captures.Alike.eq {c d : Captures} (h : c.Alike .none d) : c = d := by
  obtain ⟨slots, history⟩ := c
  obtain ⟨slots', history'⟩ := d
  obtain rfl : history = history' := h.history
  congr 1
  apply Array.ext_getElem?
  intro g
  have hstart := h.start g id
  have hspan := h.span g id
  simp only [Captures.slot?] at hstart hspan
  cases hs : slots[g]? <;> cases hs' : slots'[g]? <;> simp [hs, hs'] at hstart hspan ⊢
  rename_i a b
  obtain ⟨start, span⟩ := a
  simp_all

namespace Machine

/-- What a program is run on, as far as the ways of trees depend on it. -/
def Setting.scene (e : Setting) : Scene := ⟨e.subject, e.origin, e.program.has .captureHistory⟩

variable {e : Setting} {l : Layout} {root : Node Measured}

theorem hosts_ofProgram (hq : Quiet e) (h : e.program.Renders l root)
    (hencoding : e.subject.encoding = e.program.encoding) :
    Hosts e (.ofProgram e.program l e.subject e.origin) where
  quiet := hq
  code := rfl
  loops := rfl
  subject := rfl
  origin := rfl
  history := rfl
  undone := h.history
  encoding := h.encoding.trans hencoding.symm
  captures := h.captures
  calls := h.calls
  groups := h.groups

/-- The tree stands at the beginning of the program, and the end of the match after it. Guards
stand for something if loops have any. -/
theorem tree_at (h : e.program.Renders l root) (later : Nat → Prop) :
    ∃ φ y, (.ofProgram e.program l e.subject e.origin : Built).NodeAt none root φ later
        ⟨none, 0, 0⟩ 0 y ∧ e.program.code[y]? = some .accept := by
  obtain ⟨i, i', main, hmain, hcode, hstart, hloops⟩ := h.code
  let B : Built := .ofProgram e.program l e.subject e.origin
  have hplaced : B.Placed 0 main := by
    intro k instr hk
    have hlt := (Array.getElem?_eq_some_iff.mp hk).1
    change e.program.code[0 + k]? = some (link #[] instr)
    rw [Nat.zero_add, hcode, Array.getElem?_map, Array.getElem?_push, if_neg (by omega), hk]
    rfl
  have hspell := (Built.nodeCode_writes B root none h.sparing _ _ _ _ hmain).2 hplaced
    fun id _ _ => congrArg (·[id]?) hloops
  obtain ⟨found, hfound⟩ := hspell later
  have hend : e.program.code[main.size]? = some .accept := by
    rw [hcode, Array.getElem?_map, Array.getElem?_push, if_pos rfl]
    rfl
  have hzone : Built.FitsZone ⟨none, 0, 0⟩ (Place.start 0) i :=
    ⟨rfl, Nat.zero_le _, Nat.zero_le _⟩
  refine ⟨some found, main.size, ?_, hend⟩
  have := hfound (some found) (Or.inr ⟨found, rfl, fun _ _ _ => rfl⟩) _ hzone
  rwa [show (Place.start 0).base = 0 from rfl, Nat.zero_add] at this

/-- From the beginning of the program the ways of the tree are tried in order. What guards remember
is the same for all starts. -/
theorem tree_gives (hq : Quiet e) (h : e.program.Renders l root)
    (hencoding : e.subject.encoding = e.program.encoding) (later : Nat → Prop) :
    ∃ (φ : Promise) (y : Addr), e.program.code[y]? = some .accept ∧ ∀ μ fate,
      Memory.Safe μ φ e.subject.size ⟨none, 0, 0⟩ none later fate → ∀ t : Trail,
        Gives e μ.Good fate ⟨none, 0, 0⟩ none (root.looseOf l.undone) .none 0 y t
          (e.scene.ways root t) := by
  have hB := hosts_ofProgram hq h hencoding
  obtain ⟨φ, y, hat, hend⟩ := tree_at (e := e) h later
  obtain ⟨s, hs, hweighed⟩ := h.weighed
  obtain ⟨onPath, hsecure⟩ := h.secure
  refine ⟨φ, y, hend, fun μ fate hsafe t => ?_⟩
  have hmeans : Means e _ μ none _ _ _ :=
    node_means hB (hs.trans hencoding.symm) root none onPath hsecure h.clear hweighed
  have hgives := hmeans φ later ⟨none, 0, 0⟩ 0 y fate none .none t hat (by rintro _ ⟨⟩)
    (Stale.fits_none _) (by rintro _ ⟨⟩) hsafe
  have hloose : Stale.none.or (root.looseOf l.undone) = root.looseOf l.undone := by
    funext g b
    exact propext (or_iff_right id)
  rwa [show (Built.ofProgram e.program l e.subject e.origin).layout.undone = l.undone from rfl,
    hloose] at hgives

/-- The first way from each place completes the match, whatever guards remember. -/
theorem safe_certain (φ : Promise) (size : Nat) :
    (Memory.kept φ).Safe φ size ⟨none, 0, 0⟩ none (fun _ => True) .certain :=
  Or.inr (Or.inr ⟨rfl, rfl, fun _ _ _ => Iff.rfl, fun _ _ _ h => absurd trivial h⟩)

/-- The state in which a run begins has matched nothing yet. -/
theorem ready_enter {Good : Option Memo → Prop} {st : State} {a : Addr} {pos : Nat}
    (hpos : pos ≤ e.subject.size) (hmemo : Good st.memo) (X : Stale) :
    Ready e Good ⟨none, 0, 0⟩ none X a (.start e.program pos) (st.enter e a pos).core where
  ip := rfl
  follows := ⟨rfl, hpos, rfl, .refl _ _, by simp [State.core, State.enter, Registers.clear, Captures.none],
    by simp [State.core, State.enter, Registers.clear]⟩
  standing _ _ h := nomatch h
  began _ h := nomatch h
  memo := hmemo

/-- A state that has matched in a way from a start on. -/
structure Finds (start : Nat) (r : Trail) (s : State) : Prop where
  start : s.start = start
  pos : s.pos = r.pos
  captures : s.regs.captures = r.captures
  keep : s.regs.keep = r.keep

/-- An attempt ends with the first way in which the tree can match, and without a match if there is
none. -/
theorem run_first {s : Pattern.Setting} {o : Options} {t : PatternTree Span} {a : Analyzed}
    (hprogram : (Compilation.ofTree s o t).1 = .ok e.program)
    (ha : Analyzed.ofTree s.dialect s.encoding t = .ok a) (ht : t.root.Ordered)
    (hu : a.tree.root.understood = true)
    (hencoding : e.subject.encoding = e.program.encoding) (hq : Quiet e)
    (hlongest : e.options.has .findLongest = false)
    (hempty : e.options.has .findNotEmpty = false) {st : State}
    (hmemo : ∀ m, st.memo = some m → ∀ id p, m.hasFailed id p = false) {pos : Nat}
    (hpos : pos ≤ e.subject.size) :
    match e.scene.ways a.tree.root (.start e.program pos) with
    | [] => ∃ N s', ∀ n, N ≤ n → run n e (st.enter e 0 pos) = (.exhausted, s')
    | r :: _ =>
      ∃ N s', Finds pos r s' ∧ ∀ n, N ≤ n → run n e (st.enter e 0 pos) = (.accepted, s') := by
  have hrenders := Compilation.ofTree_renders hprogram ha ht hu
  obtain ⟨φ, y, hend, hgives⟩ := tree_gives hq hrenders hencoding fun _ => True
  have hkept : φ.Kept st.memo := fun ψ m _ hm id p hf => by
    rw [hmemo m hm id p] at hf
    cases hf
  have hyields := hgives _ _ (safe_certain φ _) _ _ (ready_enter hpos hkept _)
  cases hways : e.scene.ways a.tree.root (.start e.program pos) with
  | nil =>
    rw [hways] at hyields
    obtain ⟨c, hreaches, -, hc⟩ := hyields.first fun _ => trivial
    obtain ⟨N, s', -, hrun⟩ :=
      (Point.Reaches.ends hreaches (Point.ends_exhausted e c hc.frames)) _ rfl
    exact ⟨N, s', hrun⟩
  | cons r rs =>
    rw [hways] at hyields
    obtain ⟨c, hreaches, -, hc⟩ := hyields.first fun _ => trivial
    have hi : e.program.code[c.ip]? = some .accept := by rw [hc.ip, hend]
    have hpass : c.isRefused e = false := by rw [Core.isRefused, hempty, Bool.false_and]
    have haccept := ends_accept hi hpass hlongest
    obtain ⟨N, s', hs', hrun⟩ := (Point.Reaches.ends hreaches haccept) _ rfl
    refine ⟨N, s', ?_, hrun⟩
    subst hs'
    exact ⟨hc.above.start, hc.follows.pos, hc.follows.captures.eq, hc.follows.keep⟩

/-- The tree of `(a|ab)c`. -/
def forkedTree : PatternTree Span where
  root := .sequence ⟨0, 7⟩
    [.group ⟨0, 6⟩ (.capture 1 none) (.alternation ⟨1, 5⟩
      [.atom ⟨1, 2⟩ (.literal #[97] false), .atom ⟨3, 5⟩ (.literal #[97, 98] false)]),
    .atom ⟨6, 7⟩ (.literal #[99] false)]
  captures := 1
  names := .empty
  callsWhole := false

def forkedSetting : Pattern.Setting := ⟨#[], .native, .ascii, .standard⟩

theorem forked_compiles :
    (Compilation.ofTree forkedSetting .empty forkedTree).1.toOption.isSome = true := by
  decide +kernel

theorem forked_analyzed :
    (Analyzed.ofTree .native .ascii forkedTree).toOption.isSome = true := by
  decide +kernel

/-- Its program, to be run on the text `abc`. -/
def forkedRun : Setting where
  program := (Compilation.ofTree forkedSetting .empty forkedTree).1.toOption.get forked_compiles
  subject := ⟨#[97, 98, 99], .ascii, false, false⟩
  limits := ⟨0, 0, 1024, 0, 16384⟩
  options := .empty
  origin := 0
  signal := fun _ => false
  tracing := false

/-- The second branch is taken, since the first does not lead to a match. -/
theorem run_forked :
    ∃ N s', Finds 0 ⟨3, ⟨#[.empty, ⟨some 0, some ⟨0, 2⟩⟩], []⟩, none⟩ s' ∧
      ∀ n, N ≤ n → run n forkedRun (State.initial.enter forkedRun 0 0) = (.accepted, s') := by
  have hordered : forkedTree.root.Ordered := by decide +kernel
  have hquiet : Quiet forkedRun := ⟨rfl, rfl, rfl, fun _ => rfl⟩
  have hfirst := run_first (e := forkedRun) (ok_of_isSome forked_compiles)
    (ok_of_isSome forked_analyzed) hordered (by decide +kernel) (by decide +kernel) hquiet rfl rfl
    (fun _ h => nomatch h : ∀ m, State.initial.memo = some m → _) (Nat.zero_le _ : 0 ≤ _)
  have hways : forkedRun.scene.ways
      ((Analyzed.ofTree .native .ascii forkedTree).toOption.get forked_analyzed).tree.root
      (.start forkedRun.program 0) =
        [⟨3, ⟨#[.empty, ⟨some 0, some ⟨0, 2⟩⟩], []⟩, none⟩] := by
    decide +kernel
  rw [hways] at hfirst
  exact hfirst

end Machine
end RegexMachine
