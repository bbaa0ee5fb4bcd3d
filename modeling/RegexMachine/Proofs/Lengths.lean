import RegexMachine.Analysis.Tree
import RegexMachine.Proofs.Nodes
import RegexMachine.Proofs.WayFacts

/-!
Texts lie inside the subject, and a node with a least length of at least one character consumes
something. The lengths are those that the analysis of a pattern tree finds.
-/
namespace RegexMachine

namespace Bytes

theorem agree_le {b lit : Bytes} {i k n : Nat} (h : agree b lit i k n = true) (hi : i ≤ b.size) :
    i + n ≤ b.size := by
  induction n generalizing i k with
  | zero => exact hi
  | succ n ih =>
    unfold agree at h
    split at h
    · rename_i x y hx hy
      have hlt : i < b.size := (Array.getElem?_eq_some_iff.mp hx).1
      have := ih (Bool.and_eq_true_iff.mp h).2 hlt
      omega
    · cases h

end Bytes

namespace Subject

variable {s : Subject}

theorem textLength?_eq {i n : Nat} {lit : Bytes} (h : s.textLength? i lit = some n) :
    s.bytes.startsAt i lit = true ∧ n = lit.size := by
  unfold textLength? at h
  split at h
  · exact ⟨by assumption, (Option.some.inj h).symm⟩
  · cases h

theorem textLength?_le {i n : Nat} {lit : Bytes} (h : s.textLength? i lit = some n)
    (hi : i ≤ s.size) : i + n ≤ s.size := by
  obtain ⟨hs, rfl⟩ := textLength?_eq h
  exact Bytes.agree_le hs hi

theorem charLenAt_le {i : Nat} (hi : i ≤ s.size) :
    i + s.encoding.charLenAt s.bytes i ≤ s.size := by
  unfold Encoding.charLenAt
  have : s.size = s.bytes.size := rfl
  omega

theorem foldChar_le (e : Encoding) {b : Bytes} {i : Nat} (hi : i < b.size) :
    i + max 1 (e.foldChar b i).2 ≤ b.size := by
  unfold Encoding.foldChar
  cases e <;> dsimp only
  · split <;> dsimp only <;> omega
  · omega
  · omega

/-- Folding goes on to a place inside the subject, past at least one character if anything is
wanted. -/
theorem foldedEnd?_bounds {folded : Bytes} {i done j : Nat}
    (h : s.foldedEnd? folded i done = some j) (hi : i ≤ s.size) :
    i ≤ j ∧ j ≤ s.size ∧ (done < folded.size → i < j) := by
  unfold foldedEnd? at h
  split at h
  · rename_i hle
    split at h
    · cases h
      exact ⟨Nat.le_refl _, hi, fun hlt => by omega⟩
    · cases h
  · split at h
    · rename_i hlt
      dsimp only at h
      split at h
      · have hstep := foldChar_le s.encoding (b := s.bytes) hlt
        have := foldedEnd?_bounds h hstep
        omega
      · cases h
    · cases h
termination_by s.size - i

theorem foldedLength?_bounds {folded : Bytes} {i n : Nat}
    (h : s.foldedLength? i folded = some n) (hi : i ≤ s.size) :
    i + n ≤ s.size ∧ (0 < folded.size → 0 < n) := by
  unfold foldedLength? at h
  obtain ⟨j, hj, rfl⟩ := Option.map_eq_some_iff.mp h
  have := foldedEnd?_bounds hj hi
  omega

theorem decode?_bounds {i c n : Nat} (h : s.decode? i = some (c, n)) :
    i + n ≤ s.size ∧ 0 < n := by
  unfold decode? at h
  split at h
  · cases h
  · rename_i hend
    have hlt : ¬ s.size ≤ i := mt atEnd_iff.2 hend
    cases Option.some.inj h
    exact ⟨charLenAt_le (by omega), charLenAt_pos hlt⟩

theorem classLength?_bounds {i n : Nat} {k : CharClass} (h : s.classLength? i k = some n) :
    i + n ≤ s.size ∧ 0 < n := by
  obtain ⟨⟨c, m⟩, hd, h⟩ := Option.bind_eq_some_iff.mp h
  dsimp only at h
  split at h
  · cases h
    exact decode?_bounds hd
  · cases h

theorem typeLength?_bounds {i n : Nat} {t : CharType} {negated ascii : Bool}
    (h : s.typeLength? i t negated ascii = some n) : i + n ≤ s.size ∧ 0 < n := by
  obtain ⟨⟨c, m⟩, hd, h⟩ := Option.bind_eq_some_iff.mp h
  dsimp only at h
  split at h
  · cases h
    exact decode?_bounds hd
  · cases h

theorem anyLength?_bounds {i n : Nat} {multiline : Bool} (h : s.anyLength? i multiline = some n) :
    i + n ≤ s.size ∧ 0 < n := by
  obtain ⟨hlt, hpos⟩ := anyLength?_pos h
  refine ⟨?_, hpos⟩
  unfold anyLength? at h
  split at h
  · cases h
  · cases h
    exact charLenAt_le (by omega)

end Subject

namespace Scene

variable (sc : Scene)

theorem literalLength?_bounds {bytes : Bytes} {fold : Bool} {i n : Nat}
    (h : sc.literalLength? bytes fold i = some n) (hi : i ≤ sc.subject.size) :
    i + n ≤ sc.subject.size := by
  unfold literalLength? at h
  split at h
  · cases h
    exact hi
  · split at h
    · exact (Subject.foldedLength?_bounds h hi).1
    · exact Subject.textLength?_le h hi

theorem atomWays_regular (a : Atom) : (sc.atomWays a).Regular sc.subject.size := by
  cases a with
  | empty => exact Way.regular_stay _
  | literal bytes fold => exact Way.regular_text fun i n hi h => sc.literalLength?_bounds h hi
  | charClass ranges negated =>
    exact Way.regular_text fun i n _ h => (Subject.classLength?_bounds h).1
  | charType t negated ascii =>
    exact Way.regular_text fun i n _ h => (Subject.typeLength?_bounds h).1
  | anyChar multiline => exact Way.regular_text fun i n _ h => (Subject.anyLength?_bounds h).1
  | anchor a => exact Way.regular_holds _ (sc.subject.holds sc.origin · a)
  | keep =>
    exact ⟨fun t r h => by cases List.mem_singleton.mp h; exact Nat.le_refl _,
      fun t r ht h => by cases List.mem_singleton.mp h; exact ht,
      fun t u h => by simp [atomWays, h]⟩
  | backref _ _ _ => exact Way.regular_none _
  | call _ _ => exact Way.regular_none _

theorem lookWays_regular (k : Look) (info : Info) {f : Way} (hf : f.Regular sc.subject.size) :
    (sc.lookWays k info f).Regular sc.subject.size := by
  have hbody : (if k.behind then f.behind sc.subject info.minChars info.maxChars
      else f).Regular sc.subject.size := by
    split
    · exact Way.regular_behind _ _ _ _ hf
    · exact hf
  unfold lookWays
  dsimp only
  split
  · exact hbody.never
  · exact hbody.ahead

mutual

theorem ways_regular : ∀ n : Node Measured, (sc.ways n).Regular sc.subject.size
  | .atom _ a => by
    rw [ways]
    exact sc.atomWays_regular a
  | .repeated _ b mode body => by
    have hf := (ways_regular body).rounds b (mode != .lazy)
    rw [ways]
    split
    · exact hf.first
    · exact hf
  | .group _ (.capture g _) body => by
    rw [ways]
    exact (ways_regular body).capture _ _
  | .group _ .plain body => by
    rw [ways]
    exact ways_regular body
  | .group _ .atomic body => by
    rw [ways]
    exact (ways_regular body).first
  | .group _ .absent _ => by
    rw [ways]
    exact Way.regular_none _
  | .conditional _ _ _ _ _ => by
    rw [ways]
    exact Way.regular_none _
  | .look _ k body => by
    rw [ways]
    exact sc.lookWays_regular k _ (ways_regular body)
  | .sequence _ items => by
    rw [ways]
    exact waysAll_regular items
  | .alternation _ [] => by
    rw [ways]
    exact Way.regular_stay _
  | .alternation _ (n :: ns) => by
    rw [ways]
    exact (ways_regular n).orElse (waysSome_regular ns)

theorem waysAll_regular : ∀ ns : List (Node Measured), (sc.waysAll ns).Regular sc.subject.size
  | [] => by
    rw [waysAll]
    exact Way.regular_stay _
  | n :: ns => by
    rw [waysAll]
    exact (ways_regular n).andThen (waysAll_regular ns)

theorem waysSome_regular : ∀ ns : List (Node Measured), (sc.waysSome ns).Regular sc.subject.size
  | [] => by
    rw [waysSome]
    exact Way.regular_none _
  | n :: ns => by
    rw [waysSome]
    exact (ways_regular n).orElse (waysSome_regular ns)

end

end Scene
/-! ## Least lengths -/

namespace Node

/-- Sum of the least lengths of items. -/
def totalMin (items : List (Node Measured)) : Nat :=
  items.foldl (fun n i => Info.addCapped n i.info.minChars) 0

/-- Least length of a branch that may be missing. -/
def optionMin (no : Option (Node Measured)) : Nat := (no.map (·.info.minChars)).getD 0

mutual

/-- The least lengths in a tree are those that measuring finds. -/
def Weighed (s : Scale) : Node Measured → Prop
  | atom note a => note.info.minChars = (s.atomInfo a).minChars
  | repeated note b _ body =>
    note.info.minChars = Info.mulCapped body.info.minChars b.min ∧ Weighed s body
  | group note .absent body => note.info.minChars = 0 ∧ Weighed s body
  | group note _ body => note.info.minChars = body.info.minChars ∧ Weighed s body
  | conditional note _ _ yes no =>
    note.info.minChars = min yes.info.minChars (optionMin no) ∧ Weighed s yes ∧ WeighedOption s no
  | look note _ body => note.info.minChars = 0 ∧ Weighed s body
  | sequence note items => note.info.minChars = totalMin items ∧ WeighedAll s items
  | alternation note branches =>
    note.info.minChars = Info.least (branches.map (·.info.minChars)) ∧ WeighedAll s branches

def WeighedOption (s : Scale) : Option (Node Measured) → Prop
  | none => True
  | some n => Weighed s n

def WeighedAll (s : Scale) : List (Node Measured) → Prop
  | [] => True
  | n :: ns => Weighed s n ∧ WeighedAll s ns

end

theorem measureAll_eq (s : Scale) (ns : List (Node Span)) (done : List (Node Measured)) :
    measureAll s ns done = done.reverse ++ ns.map (measure s) := by
  induction ns generalizing done with
  | nil => simp [measureAll]
  | cons n ns ih => simp [measureAll, ih]

theorem ofSequence_minChars (items : List (Node Measured)) :
    (Info.ofSequence (items.map info)).minChars = totalMin items := by
  simp only [Info.ofSequence, Info.make, totalMin, List.foldl_map]

theorem ofAlternation_minChars (branches : List (Node Measured)) :
    (Info.ofAlternation (branches.map info)).minChars =
      Info.least (branches.map (·.info.minChars)) := by
  simp only [Info.ofAlternation, Info.make, List.map_map]
  rfl

mutual

theorem measure_weighed (s : Scale) : ∀ n : Node Span, (measure s n).Weighed s
  | atom p a => by
    rw [measure]
    exact rfl
  | repeated p b m body => by
    rw [measure]
    exact ⟨rfl, measure_weighed s body⟩
  | group p k body => by
    have := measure_weighed s body
    cases k with
    | capture g name =>
      rw [measure]
      exact ⟨rfl, this⟩
    | plain =>
      rw [measure]
      exact ⟨rfl, this⟩
    | atomic =>
      rw [measure]
      exact ⟨rfl, this⟩
    | absent =>
      rw [measure]
      exact ⟨rfl, this⟩
  | conditional p t gs yes no => by
    have hno := measureOption_weighed s no
    rw [measure]
    refine ⟨?_, measure_weighed s yes, hno⟩
    cases measureOption s no <;> rfl
  | look p k body => by
    rw [measure]
    exact ⟨rfl, measure_weighed s body⟩
  | sequence p items => by
    rw [measure]
    exact ⟨ofSequence_minChars _, measureAll_weighed s items⟩
  | alternation p branches => by
    rw [measure]
    exact ⟨ofAlternation_minChars _, measureAll_weighed s branches⟩

theorem measureOption_weighed (s : Scale) :
    ∀ no : Option (Node Span), WeighedOption s (measureOption s no)
  | none => trivial
  | some n => by
    rw [measureOption]
    exact measure_weighed s n

theorem measureAll_weighed (s : Scale) :
    ∀ ns : List (Node Span), WeighedAll s (measureAll s ns [])
  | [] => by
    rw [measureAll]
    trivial
  | n :: ns => by
    have hn := measure_weighed s n
    have hns := measureAll_weighed s ns
    rw [measureAll_eq] at hns ⊢
    exact ⟨hn, hns⟩

end

/-- Measuring again and again ends with a tree measured by the scale that is returned. -/
theorem measureRounds_eq (s : Scale) (root : Node Span) (n : Nat) :
    ∃ s' : Scale, measureRounds s root n = (root.measure s', s') ∧
      s'.encoding = s.encoding ∧ s'.stringFolds = s.stringFolds := by
  induction n generalizing s with
  | zero => exact ⟨s, rfl, rfl, rfl⟩
  | succ n ih =>
    unfold measureRounds
    dsimp only
    split
    · exact ⟨s, rfl, rfl, rfl⟩
    · exact ih { s with groupMin := (root.measure s).groupMinima s.groupMin.size }

end Node

namespace Analyzed
open Node

theorem markAll_eq (g : CallGraph) (ns done : List (Node Measured)) :
    markAll g ns done = done.reverse ++ ns.map (mark g) := by
  induction ns generalizing done with
  | nil => simp [markAll]
  | cons n ns ih => simp [markAll, ih]

theorem mark_minChars (g : CallGraph) (n : Node Measured) :
    (mark g n).info.minChars = n.info.minChars := by
  cases n with
  | group note k body => cases k <;> rfl
  | _ => rfl

theorem map_mark_minChars (g : CallGraph) (ns : List (Node Measured)) :
    (ns.map (mark g)).map (·.info.minChars) = ns.map (·.info.minChars) := by
  rw [List.map_map]
  exact List.map_congr_left fun n _ => mark_minChars g n

theorem totalMin_mark (g : CallGraph) (ns : List (Node Measured)) :
    totalMin (ns.map (mark g)) = totalMin ns := by
  simp only [totalMin, List.foldl_map, mark_minChars]

mutual

theorem mark_weighed (g : CallGraph) (s : Scale) :
    ∀ n : Node Measured, n.Weighed s → (mark g n).Weighed s
  | .atom _ _, h => h
  | .repeated _ b m body, h => by
    rw [mark]
    exact ⟨by rw [mark_minChars]; exact h.1, mark_weighed g s body h.2⟩
  | .group _ k body, h => by
    cases k with
    | capture group name =>
      rw [mark]
      exact ⟨by rw [mark_minChars]; exact h.1, mark_weighed g s body h.2⟩
    | plain =>
      rw [mark]
      · exact ⟨by rw [mark_minChars]; exact h.1, mark_weighed g s body h.2⟩
      · nofun
    | atomic =>
      rw [mark]
      · exact ⟨by rw [mark_minChars]; exact h.1, mark_weighed g s body h.2⟩
      · nofun
    | absent =>
      rw [mark]
      · exact ⟨h.1, mark_weighed g s body h.2⟩
      · nofun
  | .conditional _ t gs yes no, h => by
    rw [mark]
    refine ⟨?_, mark_weighed g s yes h.2.1, markOption_weighed g s no h.2.2⟩
    rw [mark_minChars]
    cases no with
    | none => exact h.1
    | some n => exact h.1.trans (by simp [optionMin, markOption, mark_minChars])
  | .look _ k body, h => by
    rw [mark]
    exact ⟨h.1, mark_weighed g s body h.2⟩
  | .sequence _ items, h => by
    have := markAll_weighed g s items h.2
    rw [mark, markAll_eq]
    exact ⟨h.1.trans (totalMin_mark g items).symm, this⟩
  | .alternation _ branches, h => by
    have := markAll_weighed g s branches h.2
    rw [mark, markAll_eq]
    exact ⟨h.1.trans (by rw [List.reverse_nil, List.nil_append, map_mark_minChars]), this⟩

theorem markOption_weighed (g : CallGraph) (s : Scale) :
    ∀ no : Option (Node Measured), WeighedOption s no → WeighedOption s (markOption g no)
  | none, _ => trivial
  | some n, h => by
    rw [markOption]
    exact mark_weighed g s n h

theorem markAll_weighed (g : CallGraph) (s : Scale) :
    ∀ ns : List (Node Measured), WeighedAll s ns → WeighedAll s (ns.map (mark g))
  | [], _ => trivial
  | n :: ns, h => ⟨mark_weighed g s n h.1, markAll_weighed g s ns h.2⟩

end

/-- A measured tree has been measured by a scale of its encoding, perhaps after its lookbehinds were
split. -/
theorem measure_eq {d : Dialect} {e : Encoding} {t : PatternTree Span} {root : Node Measured}
    (h : Analyzed.measure d e t = .ok root) :
    ∃ (s : Scale) (n : Node Span), s.encoding = e ∧ s.stringFolds = e.hasStringFolds ∧
      root = Node.measure s n ∧
      (n = t.root ∨ ∃ s' : Scale, n = splitLooks d (Node.measure s' t.root)) := by
  obtain ⟨s, hs, he, hf⟩ := measureRounds_eq (Scale.start e t.captures) t.root
    ((Scale.start e t.captures).groupMin.size + 1)
  simp only [Analyzed.measure, bind, Except.bind, measured, hs] at h
  split at h
  · cases h
  · split at h
    · obtain ⟨s', hs', he', hf'⟩ := measureRounds_eq s (splitLooks d (Node.measure s t.root))
        (s.groupMin.size + 1)
      rw [hs'] at h
      cases h
      exact ⟨s', _, he'.trans he, hf'.trans hf, rfl, Or.inr ⟨s, rfl⟩⟩
    · cases h
      exact ⟨s, _, he, hf, rfl, Or.inl rfl⟩

/-- What an analyzed tree is made of. -/
theorem ofTree_parts {d : Dialect} {e : Encoding} {t : PatternTree Span} {a : Analyzed}
    (h : Analyzed.ofTree d e t = .ok a) :
    ∃ root, Analyzed.measure d e t = .ok root ∧
      CallGraph.ofTree root t.captures = .ok a.calls ∧ a.tree.root = mark a.calls root ∧
      a.tree.captures = t.captures := by
  simp only [Analyzed.ofTree, bind, Except.bind] at h
  split at h
  · cases h
  · rename_i root hroot
    split at h
    · cases h
    · rename_i calls hcalls
      cases h
      exact ⟨root, hroot, hcalls, rfl, rfl⟩

/-- The lengths in an analyzed tree are those that measuring finds. -/
theorem ofTree_weighed {d : Dialect} {e : Encoding} {t : PatternTree Span} {a : Analyzed}
    (h : Analyzed.ofTree d e t = .ok a) :
    ∃ s : Scale, s.encoding = e ∧ s.stringFolds = e.hasStringFolds ∧ a.tree.root.Weighed s := by
  obtain ⟨root, hroot, -, htree, -⟩ := ofTree_parts h
  obtain ⟨s, n, he, hf, rfl, -⟩ := measure_eq hroot
  rw [htree]
  exact ⟨s, he, hf, mark_weighed a.calls s _ (Node.measure_weighed s n)⟩

end Analyzed

/-! ## Progress -/

namespace Node

mutual

/-- Whether a tree is made of parts that have ways: no references, conditionals, calls or absent
operators. Loops that count their rounds have bodies that consume something. -/
def understood : Node Measured → Bool
  | atom _ (.backref _ _ _) => false
  | atom _ (.call _ _) => false
  | atom _ _ => true
  | repeated _ b _ body =>
    (repeatPlan b body != .counted || 0 < body.info.minChars) && understood body
  | group _ .absent _ => false
  | group _ _ body => understood body
  | conditional _ _ _ _ _ => false
  | look _ _ body => understood body
  | sequence _ items => understoodAll items
  | alternation _ branches => understoodAll branches

def understoodAll : List (Node Measured) → Bool
  | [] => true
  | n :: ns => understood n && understoodAll ns

end

theorem understoodAll_eq (ns : List (Node Measured)) : understoodAll ns = ns.all understood := by
  induction ns with
  | nil => rfl
  | cons n ns ih => rw [understoodAll, List.all_cons, ih]

theorem understood_children {n c : Node Measured} (h : n.understood = true)
    (hc : c ∈ n.children) : c.understood = true := by
  cases n with
  | atom _ _ => cases hc
  | repeated _ _ _ body =>
    obtain rfl := List.mem_singleton.mp hc
    exact (Bool.and_eq_true_iff.mp h).2
  | group _ k body =>
    obtain rfl := List.mem_singleton.mp hc
    cases k with
    | absent => cases h
    | _ => exact h
  | conditional _ _ _ _ _ => cases h
  | look _ _ body =>
    obtain rfl := List.mem_singleton.mp hc
    exact h
  | sequence _ items =>
    rw [understood, understoodAll_eq, List.all_eq_true] at h
    exact h c hc
  | alternation _ branches =>
    rw [understood, understoodAll_eq, List.all_eq_true] at h
    exact h c hc

theorem understood_subtrees {n m : Node Measured} (h : n.understood = true)
    (hm : m ∈ n.subtrees) : m.understood = true := by
  induction n using Node.induction with
  | step n ih =>
    rcases mem_subtrees.mp hm with rfl | ⟨c, hc, hm⟩
    · exact h
    · exact ih c hc (understood_children h hc) hm

/-- A tree made of parts that have ways, with bounds in order. -/
structure Clear (n : Node Measured) : Prop where
  understood : n.understood = true
  ordered : n.Ordered

theorem Clear.child {n c : Node Measured} (h : n.Clear) (hc : c ∈ n.children) : c.Clear :=
  ⟨understood_children h.understood hc, h.ordered.child hc⟩

theorem Clear.body {note : Measured} {b : Bounds} {mode : RepeatMode} {body : Node Measured}
    (h : (repeated note b mode body).Clear) : body.Clear := h.child (List.mem_singleton.mpr rfl)

theorem totalMin_pos {items : List (Node Measured)} (h : 0 < totalMin items) :
    ∃ n ∈ items, 0 < n.info.minChars := by
  have key : ∀ (acc : Nat) (ns : List (Node Measured)),
      0 < ns.foldl (fun n i => Info.addCapped n i.info.minChars) acc →
        0 < acc ∨ ∃ n ∈ ns, 0 < n.info.minChars := by
    intro acc ns
    induction ns generalizing acc with
    | nil => exact Or.inl
    | cons n ns ih =>
      intro hpos
      rcases ih _ hpos with hacc | ⟨m, hm, hmin⟩
      · by_cases hn : 0 < n.info.minChars
        · exact Or.inr ⟨n, by simp, hn⟩
        · left
          simp only [Info.addCapped] at hacc
          omega
      · exact Or.inr ⟨m, by simp [hm], hmin⟩
  rcases key 0 items h with h0 | h
  · exact absurd h0 (Nat.lt_irrefl 0)
  · exact h

theorem least_le {ns : List Nat} {n : Nat} (h : n ∈ ns) : Info.least ns ≤ n := by
  have key : ∀ (acc : Nat) (ns : List Nat), ns.foldl min acc ≤ acc ∧ ∀ n ∈ ns, ns.foldl min acc ≤ n := by
    intro acc ns
    induction ns generalizing acc with
    | nil => exact ⟨Nat.le_refl _, by simp⟩
    | cons m ns ih =>
      obtain ⟨hacc, hmem⟩ := ih (min acc m)
      refine ⟨Nat.le_trans hacc (Nat.min_le_left _ _), fun n hn => ?_⟩
      rcases List.mem_cons.mp hn with rfl | hn
      · exact Nat.le_trans hacc (Nat.min_le_right _ _)
      · exact hmem n hn
  cases ns with
  | nil => cases h
  | cons m ns =>
    rcases List.mem_cons.mp h with rfl | h
    · exact (key _ ns).1
    · exact (key m ns).2 n h

end Node

namespace Encoding
open Unicode

theorem foldCode_ne_nil (c top : Nat) : foldCode c top ≠ [] := by
  have hstring : ∀ {c s}, stringFold? c = some s → s ≠ [] := by
    intro c s h
    obtain ⟨p, hp, rfl⟩ := Option.map_eq_some_iff.mp h
    have hall : ∀ p ∈ stringFolds, p.2 ≠ [] := by decide
    exact hall p (List.mem_of_find?_eq_some hp)
  unfold foldCode
  split
  · exact hstring (by assumption)
  · dsimp only
    split
    · exact hstring (by assumption)
    · split <;> simp

theorem encodeAll_ne_nil {cs : List Nat} {bs : List UInt8} (h : encodeAll utf8 cs = some bs)
    (hcs : cs ≠ []) : bs ≠ [] := by
  cases cs with
  | nil => exact absurd rfl hcs
  | cons c cs =>
    unfold encodeAll at h
    split at h
    · rename_i head rest hhead hrest
      cases h
      unfold encode at hhead
      dsimp only at hhead
      split at hhead
      · cases hhead
        unfold utf8Bytes
        dsimp only
        repeat' split
        all_goals simp
      · cases hhead
    · cases h

theorem foldChar_ne_nil (e : Encoding) {b : Bytes} {i : Nat} (hi : i < b.size) :
    (e.foldChar b i).1 ≠ [] := by
  unfold foldChar
  cases e with
  | ascii => simp
  | latin1 => simp [foldCode_ne_nil]
  | utf8 =>
    dsimp only
    split
    · simp
    · dsimp only
      have hlen := charLen_pos utf8 (b.byteAt i)
      cases hc : encodeAll utf8
          (foldCode (utf8.decode b i (i + min (utf8.charLen (b.byteAt i)) (b.size - i))) 0x10FFFF) with
      | some bs => exact encodeAll_ne_nil hc (foldCode_ne_nil _ _)
      | none =>
        intro h
        have := congrArg List.length h
        simp [Bytes.slice] at this
        omega

theorem foldFrom_size (e : Encoding) (b : Bytes) (i : Nat) (out : Bytes) :
    out.size ≤ (e.foldFrom b i out).size ∧ (i < b.size → 0 < (e.foldFrom b i out).size) := by
  rw [foldFrom]
  split
  · rename_i hi
    have hne := foldChar_ne_nil e hi
    have := (foldFrom_size e b (i + max 1 (e.foldChar b i).2) (out ++ (e.foldChar b i).1)).1
    have hpos : 0 < (e.foldChar b i).1.length := List.length_pos_iff.mpr hne
    have hsize : (out ++ (e.foldChar b i).1).size = out.size + (e.foldChar b i).1.length := by
      rw [← Array.length_toList, Array.toList_appendList, List.length_append,
        Array.length_toList]
    dsimp only
    omega
  · exact ⟨Nat.le_refl _, fun h => absurd h (by assumption)⟩
termination_by b.size - i

/-- A text that is not empty has a fold that is not empty. -/
theorem foldBytes_size_pos (e : Encoding) {b : Bytes} (h : 0 < b.size) :
    0 < (e.foldBytes b).size := (foldFrom_size e b 0 #[]).2 h

theorem charCount_empty (e : Encoding) {b : Bytes} (h : b.size = 0) : e.charCount b = 0 := by
  rw [charCount, countFrom]
  split
  · omega
  · rfl

end Encoding

namespace Way

variable {size : Nat} {f g : Way}

theorem Advances.orElse (hf : Advances size f) (hg : Advances size g) :
    Advances size (f.orElse g) := fun t r ht h =>
  (List.mem_append.mp h).elim (hf t r ht) (hg t r ht)

theorem Advances.first (hf : Advances size f) : Advances size f.first := fun t r ht h =>
  hf t r ht (List.mem_of_mem_take h)

theorem Advances.capture (hf : Advances size f) (log : Bool) (g : Nat) :
    Advances size (f.capture log g) := by
  intro t r ht h
  obtain ⟨m, hm, rfl⟩ := List.mem_map.mp h
  exact hf { t with captures := t.captures.setStart g (some t.pos) } m ht hm

theorem Advances.plus (hf : Advances size f) (hr : Regular size f) (greedy : Bool) :
    Advances size (plus size greedy f) := by
  intro t r ht h
  obtain ⟨m, hm, hr'⟩ := List.mem_flatMap.mp h
  exact Nat.lt_of_lt_of_le (hf t m ht hm) ((hr.again greedy t.pos).forward m r hr')

/-- Rounds of a body that consumes something consume something, if there is at least one. -/
theorem Advances.rounds (hf : Advances size f) (hr : Regular size f) {b : Bounds}
    (hmin : 0 < b.min) (hord : b.max.all (b.min ≤ ·) = true) (greedy : Bool) :
    Advances size (rounds size b greedy f) := by
  obtain ⟨n, hn⟩ : ∃ n, b.min = n + 1 := ⟨b.min - 1, by omega⟩
  unfold Way.rounds
  split
  · rename_i hmax
    simp [hmax, hn] at hord
  · rw [hn]
    exact (hf.andThen_left (hr.times n)).andThen_left (hr.upTo greedy _)
  · rw [hn]
    exact (hf.plus hr greedy).andThen_right (hr.times n)

end Way

namespace Scene
open Node

variable {sc : Scene} {s : Scale}

theorem literalWays_advances (he : s.encoding = sc.subject.encoding) {bytes : Bytes} {fold : Bool}
    (h : 0 < (s.literalInfo bytes fold).minChars) :
    (Way.text (sc.literalLength? bytes fold)).Advances sc.subject.size := by
  have hbytes : 0 < bytes.size ∧ (fold = true →
      0 < (sc.subject.encoding.foldBytes bytes).size) := by
    unfold Scale.literalInfo at h
    dsimp only at h
    split at h
    · have hfolded : 0 < (s.encoding.foldBytes bytes).size := by
        refine Nat.pos_of_ne_zero fun h0 => ?_
        simp [Info.make, Encoding.charCount_empty _ h0] at h
      refine ⟨Nat.pos_of_ne_zero fun h0 => ?_, fun _ => he ▸ hfolded⟩
      have : s.encoding.foldBytes bytes = #[] := by
        rw [Encoding.foldBytes, Encoding.foldFrom, dif_neg (by omega)]
      simp [this] at hfolded
    · have hsize : 0 < bytes.size := by
        refine Nat.pos_of_ne_zero fun h0 => ?_
        simp [Info.make, Encoding.charCount_empty _ h0] at h
      exact ⟨hsize, fun _ => Encoding.foldBytes_size_pos _ hsize⟩
  intro t r ht hr
  obtain ⟨n, hn, rfl⟩ := Way.mem_text hr
  have hpos : 0 < n := by
    unfold literalLength? at hn
    split at hn
    · rename_i hempty
      have : bytes.size = 0 := by simpa using hempty
      omega
    · split at hn
      · rename_i hfold
        exact (Subject.foldedLength?_bounds hn ht).2 (hbytes.2 hfold)
      · obtain ⟨_, rfl⟩ := Subject.textLength?_eq hn
        exact hbytes.1
  exact Nat.lt_add_of_pos_right hpos

theorem atomWays_advances (he : s.encoding = sc.subject.encoding) {a : Atom}
    (h : 0 < (s.atomInfo a).minChars) : (sc.atomWays a).Advances sc.subject.size := by
  cases a with
  | empty => cases h
  | literal bytes fold => exact literalWays_advances he h
  | charClass ranges negated =>
    unfold atomWays
    exact Way.advances_text fun i n h => (Subject.classLength?_bounds h).2
  | charType t negated ascii =>
    unfold atomWays
    exact Way.advances_text fun i n h => (Subject.typeLength?_bounds h).2
  | anyChar multiline =>
    unfold atomWays
    exact Way.advances_text fun i n h => (Subject.anyLength?_bounds h).2
  | anchor a => cases h
  | keep => cases h
  | backref _ _ _ => exact fun t r _ h => absurd h List.not_mem_nil
  | call _ _ => exact fun t r _ h => absurd h List.not_mem_nil

mutual

/-- A tree that consumes at least one character consumes something in every way. -/
theorem ways_advances (he : s.encoding = sc.subject.encoding) :
    ∀ n : Node Measured, n.Weighed s → n.Clear → 0 < n.info.minChars →
      (sc.ways n).Advances sc.subject.size
  | .atom _ a, hw, _, hmin => by
    rw [ways]
    exact atomWays_advances he (hw ▸ hmin)
  | .repeated _ b mode body, hw, hu, hmin => by
    have hprod : 0 < Info.mulCapped body.info.minChars b.min := hw.1 ▸ hmin
    have hpos : 0 < body.info.minChars * b.min := by
      unfold Info.mulCapped at hprod
      omega
    have hbody := ways_advances he body hw.2 hu.body (Nat.pos_of_mul_pos_right hpos)
    have hrounds := hbody.rounds (sc.ways_regular body) (Nat.pos_of_mul_pos_left hpos)
      hu.ordered.self (mode != .lazy)
    rw [ways]
    split
    · exact hrounds.first
    · exact hrounds
  | .group _ (.capture g _) body, hw, hu, hmin => by
    rw [ways]
    exact (ways_advances he body hw.2 (hu.child (List.mem_singleton.mpr rfl)) (hw.1 ▸ hmin)).capture _ _
  | .group _ .plain body, hw, hu, hmin => by
    rw [ways]
    exact ways_advances he body hw.2 (hu.child (List.mem_singleton.mpr rfl)) (hw.1 ▸ hmin)
  | .group _ .atomic body, hw, hu, hmin => by
    rw [ways]
    exact (ways_advances he body hw.2 (hu.child (List.mem_singleton.mpr rfl)) (hw.1 ▸ hmin)).first
  | .group _ .absent _, _, hu, _ => nomatch hu.understood
  | .conditional _ _ _ _ _, _, hu, _ => nomatch hu.understood
  | .look _ _ _, hw, _, hmin => absurd hmin (by rw [Node.info, Node.note, hw.1]; simp)
  | .sequence _ items, hw, hu, hmin => by
    rw [ways]
    exact waysAll_advances he items hw.2 (fun _ => hu.child) (totalMin_pos (hw.1 ▸ hmin))
  | .alternation _ [], hw, _, hmin => absurd (hw.1 ▸ hmin) (by simp [Info.least])
  | .alternation _ (n :: ns), hw, hu, hmin => by
    have hall : ∀ m ∈ n :: ns, 0 < m.info.minChars := by
      intro m hm
      have : Info.least ((n :: ns).map (·.info.minChars)) ≤ m.info.minChars :=
        least_le (List.mem_map.mpr ⟨m, hm, rfl⟩)
      have := hw.1 ▸ hmin
      omega
    have hparts : ∀ m ∈ n :: ns, m.Clear := fun _ => hu.child
    rw [ways]
    exact (ways_advances he n hw.2.1 (hparts n (by simp)) (hall n (by simp))).orElse
      (waysSome_advances he ns hw.2.2 (fun m hm => hparts m (by simp [hm]))
        fun m hm => hall m (by simp [hm]))

theorem waysAll_advances (he : s.encoding = sc.subject.encoding) :
    ∀ ns : List (Node Measured), WeighedAll s ns → (∀ n ∈ ns, n.Clear) →
      (∃ n ∈ ns, 0 < n.info.minChars) → (sc.waysAll ns).Advances sc.subject.size
  | [], _, _, hmin => by simp at hmin
  | n :: ns, hw, hu, hmin => by
    rw [waysAll]
    obtain ⟨m, hm, hpos⟩ := hmin
    rcases List.mem_cons.mp hm with heq | hm
    · exact (ways_advances he n hw.1 (hu n (by simp)) (heq ▸ hpos)).andThen_left (sc.waysAll_regular ns)
    · exact (waysAll_advances he ns hw.2 (fun k hk => hu k (by simp [hk])) ⟨m, hm, hpos⟩).andThen_right (sc.ways_regular n)

theorem waysSome_advances (he : s.encoding = sc.subject.encoding) :
    ∀ ns : List (Node Measured), WeighedAll s ns → (∀ n ∈ ns, n.Clear) →
      (∀ n ∈ ns, 0 < n.info.minChars) → (sc.waysSome ns).Advances sc.subject.size
  | [], _, _, _ => by
    rw [waysSome]
    exact fun t r _ h => absurd h List.not_mem_nil
  | n :: ns, hw, hu, hmin => by
    rw [waysSome]
    exact (ways_advances he n hw.1 (hu n (by simp)) (hmin n (by simp))).orElse
      (waysSome_advances he ns hw.2 (fun k hk => hu k (by simp [hk]))
        fun m hm => hmin m (by simp [hm]))

end

end Scene

end RegexMachine
