import RegexMachine.Proofs.EarlyCalls
import RegexMachine.Proofs.RoutineCourses

/-!
Lengths of groups that are called. Measuring starts from groups that may be empty and goes on from the
lengths it has found, so that at any time no group is taken for longer than it is then measured; nor are
groups shortened where lookbehinds are split. What the analysis leaves behind is a tree in which a call
is no longer than its group, and in which no lookbehind makes calls.
-/
namespace RegexMachine

/-! ## Measuring is monotone -/

namespace Info

theorem addCapped_mono {a a' b b' : Nat} (ha : a ≤ a') (hb : b ≤ b') :
    addCapped a b ≤ addCapped a' b' := by
  unfold addCapped
  omega

theorem mulCapped_mono {a a' : Nat} (h : a ≤ a') (b : Nat) : mulCapped a b ≤ mulCapped a' b := by
  have := Nat.mul_le_mul_right b h
  unfold mulCapped
  omega

theorem foldl_addCapped_mono {α : Type} {f f' : α → Nat} {l : List α} (h : ∀ x ∈ l, f x ≤ f' x)
    {a a' : Nat} (ha : a ≤ a') :
    l.foldl (fun n x => addCapped n (f x)) a ≤ l.foldl (fun n x => addCapped n (f' x)) a' := by
  induction l generalizing a a' with
  | nil => exact ha
  | cons x l ih =>
    exact ih (fun y hy => h y (List.mem_cons_of_mem _ hy))
      (addCapped_mono ha (h x List.mem_cons_self))

theorem least_mono {α : Type} {f f' : α → Nat} {l : List α} (h : ∀ x ∈ l, f x ≤ f' x) :
    least (l.map f) ≤ least (l.map f') := by
  have hfold : ∀ (l : List α), (∀ x ∈ l, f x ≤ f' x) → ∀ {a a' : Nat}, a ≤ a' →
      (l.map f).foldl min a ≤ (l.map f').foldl min a' := by
    intro l
    induction l with
    | nil => exact fun _ _ _ h => h
    | cons x l ih =>
      intro h a a' ha
      have hx := h x List.mem_cons_self
      exact ih (fun y hy => h y (List.mem_cons_of_mem _ hy)) (by omega)
  cases l with
  | nil => exact Nat.le_refl _
  | cons x l =>
    exact hfold l (fun y hy => h y (List.mem_cons_of_mem _ hy)) (h x List.mem_cons_self)

end Info

/-- A scale that takes groups for no longer than another. -/
structure Scale.Le (s s' : Scale) : Prop where
  encoding : s.encoding = s'.encoding
  stringFolds : s.stringFolds = s'.stringFolds
  groupMin : ∀ g, s.groupMin.getD g 0 ≤ s'.groupMin.getD g 0

theorem Scale.Le.refl (s : Scale) : s.Le s := ⟨rfl, rfl, fun _ => Nat.le_refl _⟩

theorem Scale.Le.atomInfo {s s' : Scale} (h : s.Le s') (a : Atom) :
    (s.atomInfo a).minChars ≤ (s'.atomInfo a).minChars := by
  obtain ⟨e, f, mins⟩ := s
  obtain ⟨e', f', mins'⟩ := s'
  obtain ⟨rfl, rfl, hmins⟩ := h
  cases a with
  | call t g => exact hmins g
  | _ => exact Nat.le_refl _

namespace Node
variable {α : Type} {s s' : Scale} {d : Dialect}

/-- Least length of a node whose parts have the lengths given. -/
def lengthOf (s : Scale) (len : Node α → Nat) : Node α → Nat
  | atom _ a => (s.atomInfo a).minChars
  | repeated _ b _ body => Info.mulCapped (len body) b.min
  | group _ .absent _ => 0
  | group _ _ body => len body
  | conditional _ _ _ yes no => min (len yes) ((no.map len).getD 0)
  | look _ _ _ => 0
  | sequence _ items => items.foldl (fun n i => Info.addCapped n (len i)) 0
  | alternation _ branches => Info.least (branches.map len)

theorem lengthOf_mono {len len' : Node α → Nat} (hs : s.Le s') {n : Node α}
    (h : ∀ c ∈ n.children, len c ≤ len' c) : lengthOf s len n ≤ lengthOf s' len' n := by
  cases n with
  | atom note a => exact hs.atomInfo a
  | repeated note b mode body => exact Info.mulCapped_mono (h body (by simp [children])) _
  | group note k body =>
    cases k with
    | absent => exact Nat.le_refl _
    | _ => exact h body (by simp [children])
  | conditional note t gs yes no =>
    have hyes := h yes (by simp [children])
    cases no with
    | none => simp [lengthOf]
    | some n =>
      have hno := h n (by simp [children])
      simp only [lengthOf, Option.map_some, Option.getD_some]
      omega
  | look note k body => exact Nat.le_refl _
  | sequence note items => exact Info.foldl_addCapped_mono h (Nat.le_refl _)
  | alternation note branches => exact Info.least_mono h

theorem Weighed.minChars {t : Node Measured} (h : t.Weighed s) :
    t.info.minChars = lengthOf s (·.info.minChars) t := by
  cases t with
  | atom note a => exact h
  | group note k body => cases k <;> exact h.1
  | _ => exact h.1

theorem measure_minChars (s : Scale) (n : Node Span) :
    (measure s n).info.minChars = lengthOf s (fun c => (measure s c).info.minChars) n := by
  cases n with
  | group p k body => cases k <;> rfl
  | conditional p t gs yes no => cases no <;> rfl
  | sequence p items =>
    simp only [measure, measureAll_eq, info, note, Info.ofSequence, Info.make, lengthOf,
      List.reverse_nil, List.nil_append, List.foldl_map]
  | alternation p branches =>
    simp only [measure, measureAll_eq, info, note, Info.ofAlternation, Info.make, lengthOf,
      List.reverse_nil, List.nil_append, List.map_map]
    rfl
  | _ => rfl

/-- Where groups are taken for longer, trees are measured to be longer. -/
theorem measure_mono (hs : s.Le s') (n : Node Span) :
    (measure s n).info.minChars ≤ (measure s' n).info.minChars := by
  induction n using Node.induction with
  | step n ih =>
    rw [measure_minChars, measure_minChars]
    exact lengthOf_mono hs ih

theorem lengthOf_splitLooks (s : Scale) (len : Node Span → Nat) {t : Node Measured}
    (ht : t.splitsBehind d = false) :
    lengthOf s len (splitLooks d t) = lengthOf s (fun c => len (splitLooks d c)) t := by
  cases t with
  | group note k body => cases k <;> rfl
  | conditional note t gs yes no => cases no <;> rfl
  | look note k body =>
    rw [splitsBehind] at ht
    rw [splitLooks, if_neg (by simp [ht])]
    rfl
  | sequence note items => simp [splitLooks, splitLooksAll_eq, lengthOf, List.foldl_map]
  | alternation note branches => simp [splitLooks, splitLooksAll_eq, lengthOf, Function.comp_def]
  | _ => rfl

/-- Splitting its lookbehinds makes no tree shorter. -/
theorem splitLooks_minChars {t : Node Measured} (h : t.Weighed s) :
    t.info.minChars ≤ (measure s (splitLooks d t)).info.minChars := by
  induction t using Node.induction with
  | step t ih =>
    rw [h.minChars]
    cases ht : t.splitsBehind d with
    | true =>
      cases t with
      | look note k body => exact Nat.zero_le _
      | _ => cases ht
    | false =>
      rw [measure_minChars, lengthOf_splitLooks s _ ht]
      exact lengthOf_mono (.refl s) fun c hc => ih c hc (h.child hc)

/-! ## Groups -/

theorem captured?_measure (s : Scale) (n : Node Span) :
    (measure s n).captured? = n.captured?.map fun b => (b.1, measure s b.2) := by
  cases n with
  | group p k body => cases k <;> rfl
  | _ => rfl

theorem calledBody?_measure (s : Scale) (root : Node Span) (g : Nat) :
    (measure s root).calledBody? g = (root.calledBody? g).map (measure s) :=
  calledBody?_rebuild (children_measure s) (captured?_measure s) root g

theorem Distinct.measure {n : Node Span} (h : n.Distinct) (s : Scale) : (n.measure s).Distinct :=
  ⟨groupNumbers_measure s n ▸ h.nodup, groupNumbers_measure s n ▸ h.pos⟩

theorem Distinct.splitLooks {n : Node Measured} (h : n.Distinct) (d : Dialect) :
    (n.splitLooks d).Distinct :=
  ⟨groupNumbers_splitLooks d n ▸ h.nodup, groupNumbers_splitLooks d n ▸ h.pos⟩

theorem Weighed.captured? {m body : Node Measured} {g : Nat} (h : m.Weighed s)
    (hg : m.captured? = some (g, body)) : m.info.minChars = body.info.minChars := by
  obtain ⟨note, name, rfl⟩ := captured?_some hg
  exact h.1

theorem groupMinima_size (n : Node Measured) (size : Nat) : (n.groupMinima size).size = size := by
  unfold groupMinima
  refine Array.foldl_induction (fun _ (mins : Array Nat) => mins.size = size) (by simp) ?_
  intro i mins hmins
  unfold enterMinimum
  split
  · rwa [Array.size_setIfInBounds]
  · exact hmins

/-- Of a group that is defined once, the length found is that of what its calls run. -/
theorem groupMinima_getD {n : Node Measured} {g size : Nat} (hn : n.Distinct) (hw : n.Weighed s)
    (hg : g < size) : (n.groupMinima size).getD g 0 = Machine.callWeight n g := by
  have hfold : ∀ (ms : List (Node Measured)) (mins : Array Nat) (v : Nat), mins.size = size →
      (∀ m ∈ ms, m.number? = some g → m.info.minChars = v) →
      ((∃ m ∈ ms, m.number? = some g) ∨ mins.getD g 0 = v) →
      (ms.foldl enterMinimum mins).getD g 0 = v := by
    intro ms
    induction ms with
    | nil => exact fun _ _ _ _ h => h.resolve_left (by simp)
    | cons m ms ih =>
      intro mins v hsize hms h
      have hrest : ∀ m ∈ ms, m.number? = some g → m.info.minChars = v :=
        fun m hm => hms m (List.mem_cons_of_mem _ hm)
      have hother (hm : m.number? ≠ some g) : (∃ m ∈ ms, m.number? = some g) ∨ mins.getD g 0 = v := by
        refine h.imp_left ?_
        rintro ⟨k, hk, hnumber⟩
        rcases List.mem_cons.mp hk with rfl | hk
        · exact absurd hnumber hm
        · exact ⟨k, hk, hnumber⟩
      rw [List.foldl_cons]
      unfold enterMinimum
      split
      · rename_i note k name body
        refine ih _ v (by rwa [Array.size_setIfInBounds]) hrest ?_
        rw [getD_setIfInBounds]
        by_cases hk : k = g
        · rw [if_pos ⟨hk, by omega⟩]
          exact Or.inr (hms _ List.mem_cons_self (hk ▸ rfl))
        · rw [if_neg fun h => hk h.1]
          exact hother fun h => hk (Option.some.inj h)
      · rename_i hm
        refine ih _ v hsize hrest (hother fun h => ?_)
        obtain ⟨⟨k, body⟩, hcaptured, -⟩ := Option.map_eq_some_iff.mp h
        obtain ⟨note, name, rfl⟩ := captured?_some hcaptured
        exact hm _ _ _ _ rfl
  unfold groupMinima
  rw [← Array.foldl_toList]
  have hcaptured : ∀ m ∈ n.subtrees, ∀ body, m.captured? = some (g, body) →
      m.info.minChars = Machine.callWeight n g := fun m hm body hbody => by
    rw [Machine.callWeight, hn.calledBody?_eq hm hbody, (hw.subtree hm).captured? hbody]
    rfl
  refine hfold _ _ _ (by simp) (fun m hm hnumber => ?_) ?_
  · obtain ⟨⟨g', body⟩, hbody, rfl⟩ := Option.map_eq_some_iff.mp hnumber
    exact hcaptured m (Array.mem_toList_iff.mp hm) body hbody
  · rw [getD_setIfInBounds]
    by_cases hzero : 0 = g
    · subst hzero
      exact Or.inr (if_pos ⟨rfl, by simpa using hg⟩)
    · rw [if_neg fun h => hzero h.1, Machine.callWeight]
      cases hbody : n.calledBody? g with
      | none => exact Or.inr (by simp [Array.getD_eq_getD_getElem?, hg])
      | some body =>
        obtain ⟨rfl, -⟩ | ⟨-, m, hm, hbody⟩ := calledBody?_mem hbody
        · exact absurd rfl hzero
        · exact Or.inl ⟨m, Array.mem_toList_iff.mpr hm, number?_of_captured hbody⟩

/-- No group is taken for longer than it is measured to be. -/
def Cautious (s : Scale) (n : Node Span) : Prop :=
  ∀ g, s.groupMin.getD g 0 ≤ Machine.callWeight (measure s n) g

theorem callWeight_mono (hs : s.Le s') (n : Node Span) (g : Nat) :
    Machine.callWeight (measure s n) g ≤ Machine.callWeight (measure s' n) g := by
  rw [Machine.callWeight, Machine.callWeight, calledBody?_measure, calledBody?_measure]
  cases n.calledBody? g with
  | none => exact Nat.le_refl _
  | some body => exact measure_mono hs body

/-- A round of measuring leaves the lengths cautious. -/
theorem Cautious.round {n : Node Span} (h : Cautious s n) (hn : n.Distinct) :
    Cautious { s with groupMin := (measure s n).groupMinima s.groupMin.size } n := by
  have hnext : ∀ g, g < s.groupMin.size →
      ((measure s n).groupMinima s.groupMin.size).getD g 0 = Machine.callWeight (measure s n) g :=
    fun g hg => groupMinima_getD (hn.measure s) (measure_weighed s n) hg
  have hle : s.Le { s with groupMin := (measure s n).groupMinima s.groupMin.size } := by
    refine ⟨rfl, rfl, fun g => ?_⟩
    by_cases hg : g < s.groupMin.size
    · exact Nat.le_trans (h g) (Nat.le_of_eq (hnext g hg).symm)
    · simp [Nat.le_of_not_lt hg]
  intro g
  by_cases hg : g < s.groupMin.size
  · exact Nat.le_trans (Nat.le_of_eq (hnext g hg)) (callWeight_mono hle n g)
  · have hnone : ((measure s n).groupMinima s.groupMin.size).getD g 0 = 0 := by
      simp [groupMinima_size, Nat.le_of_not_lt hg]
    exact Nat.le_trans (Nat.le_of_eq hnone) (Nat.zero_le _)

theorem Cautious.rounds {n : Node Span} (hn : n.Distinct) (rounds : Nat) {s : Scale}
    (h : Cautious s n) : ∃ s', measureRounds s n rounds = (measure s' n, s') ∧ Cautious s' n := by
  induction rounds generalizing s with
  | zero => exact ⟨s, rfl, h⟩
  | succ rounds ih =>
    unfold measureRounds
    dsimp only
    split
    · exact ⟨s, rfl, h⟩
    · exact ih (h.round hn)

theorem cautious_start (e : Encoding) (captures : Nat) (n : Node Span) :
    Cautious (.start e captures) n := by
  intro g
  have hnone : (Scale.start e captures).groupMin.getD g 0 = 0 := by
    rw [Scale.start, Array.getD_eq_getD_getElem?, Array.getElem?_replicate]
    split <;> rfl
  exact Nat.le_trans (Nat.le_of_eq hnone) (Nat.zero_le _)

/-! ## Splitting lookbehinds -/

theorem mem_splitLook {n m : Node Span} (hm : m ∈ n.subtrees) {b : Nat × Node Span}
    (hb : m.captured? = some b) (span : Span) (k : Look) :
    m ∈ (splitLook span k (branchesOf n)).subtrees := by
  have hbranch : ∃ c ∈ branchesOf n, m ∈ c.subtrees := by
    unfold branchesOf
    split
    · rcases mem_subtrees.mp hm with rfl | hm
      · cases hb
      · exact hm
    · exact ⟨n, List.mem_singleton.mpr rfl, hm⟩
  obtain ⟨c, hc, hm⟩ := hbranch
  have hlook : m ∈ (look span k c).subtrees :=
    mem_subtrees.mpr (Or.inr ⟨c, List.mem_singleton.mpr rfl, hm⟩)
  unfold splitLook
  dsimp only
  split <;> exact mem_subtrees.mpr (Or.inr ⟨_, List.mem_map_of_mem hc, hlook⟩)

/-- Where a group is defined, it is defined after lookbehinds have been split. -/
theorem captured?_splitLooks {t m body : Node Measured} {g : Nat} (hm : m ∈ t.subtrees)
    (hg : m.captured? = some (g, body)) (d : Dialect) :
    ∃ m' ∈ (splitLooks d t).subtrees, m'.captured? = some (g, splitLooks d body) := by
  induction t using Node.induction with
  | step t ih =>
    rcases mem_subtrees.mp hm with rfl | ⟨c, hc, hm⟩
    · obtain ⟨note, name, rfl⟩ := captured?_some hg
      exact ⟨_, self_mem_subtrees _, rfl⟩
    · obtain ⟨m', hm', hg'⟩ := ih c hc hm
      cases ht : t.splitsBehind d with
      | true =>
        cases t with
        | look note k body =>
          obtain rfl := List.mem_singleton.mp hc
          rw [splitsBehind] at ht
          rw [splitLooks, if_pos ht]
          exact ⟨m', mem_splitLook hm' hg' _ _, hg'⟩
        | _ => cases ht
      | false =>
        refine ⟨m', mem_subtrees.mpr (Or.inr ⟨splitLooks d c, ?_, hm'⟩), hg'⟩
        rw [children_splitLooks d ht]
        exact List.mem_map_of_mem hc

/-- Splitting lookbehinds makes no group shorter. -/
theorem callWeight_splitLooks {t : Node Measured} (ht : t.Distinct) (hw : t.Weighed s) (d : Dialect)
    (g : Nat) :
    Machine.callWeight t g ≤ Machine.callWeight (measure s (splitLooks d t)) g := by
  cases hbody : t.calledBody? g with
  | none =>
    rw [Machine.callWeight, hbody]
    exact Nat.zero_le _
  | some body =>
    have hbody' : (splitLooks d t).calledBody? g = some (splitLooks d body) := by
      rcases calledBody?_mem hbody with ⟨rfl, rfl⟩ | ⟨-, m, hm, hg⟩
      · rfl
      · obtain ⟨m', hm', hg'⟩ := captured?_splitLooks hm hg d
        exact (ht.splitLooks d).calledBody?_eq hm' hg'
    rw [Machine.callWeight, Machine.callWeight, calledBody?_measure, hbody, hbody']
    exact splitLooks_minChars (hw.subtree (calledBody?_mem_subtrees hbody))

theorem Cautious.splitLooks {n : Node Span} (h : Cautious s n) (hn : n.Distinct) (d : Dialect) :
    Cautious s (splitLooks d (measure s n)) :=
  fun g => Nat.le_trans (h g) (callWeight_splitLooks (hn.measure s) (measure_weighed s n) d g)

/-! ## Calls in lookbehinds -/

theorem checkLooksOption_ok {no : Option (Node Measured)} (h : checkLooksOption d no = .ok ()) :
    ∀ c ∈ no.toList, checkLooks d c = .ok () := by
  cases no with
  | none => nofun
  | some n => exact List.forall_mem_singleton.mpr h

theorem checkLooksAll_ok {ns : List (Node Measured)} (h : checkLooksAll d ns = .ok ()) :
    ∀ c ∈ ns, checkLooks d c = .ok () := by
  induction ns with
  | nil => nofun
  | cons n ns ih =>
    simp only [checkLooksAll, bind, Except.bind] at h
    split at h
    · cases h
    · rename_i hn
      exact List.forall_mem_cons.mpr ⟨hn, ih h⟩

theorem checkLooks_child {n c : Node Measured} (h : checkLooks d n = .ok ()) (hc : c ∈ n.children) :
    checkLooks d c = .ok () := by
  cases n with
  | atom note a => cases hc
  | conditional note t gs yes no =>
    simp only [checkLooks, bind, Except.bind] at h
    split at h
    · cases h
    · rename_i hyes
      rcases List.mem_cons.mp hc with rfl | hc
      · exact hyes
      · exact checkLooksOption_ok h c hc
  | look note k body =>
    obtain rfl := List.mem_singleton.mp hc
    simp only [checkLooks, bind, Except.bind] at h
    split at h
    · cases h
    · assumption
  | sequence note items => exact checkLooksAll_ok h c hc
  | alternation note branches => exact checkLooksAll_ok h c hc
  | _ =>
    obtain rfl := List.mem_singleton.mp hc
    exact h

theorem checkLooks_behind {note : Measured} {k : Look} {body : Node Measured}
    (h : checkLooks d (.look note k body) = .ok ()) (hk : k.behind = true) :
    unboundedBehind body = false := by
  simp only [checkLooks, bind, Except.bind, hk, if_true] at h
  split at h
  · cases h
  · unfold checkBehind at h
    split at h
    · cases h
    · exact Bool.eq_false_iff.mpr ‹_›

theorem callees_eq_nil_iff {n : Node α} :
    n.callees = [] ↔ n.Everywhere fun m => m.callee?.isNone := by
  rw [callees, List.filterMap_eq_nil_iff, everywhere_iff]
  simp only [Array.mem_toList_iff, Option.isNone_iff_eq_none]

theorem callees_measure (s : Scale) (n : Node Span) : (measure s n).callees = n.callees := by
  rw [callees, callees, subtrees_rebuild (children_measure s), Array.toList_map, List.filterMap_map]
  refine List.filterMap_congr fun m _ => ?_
  cases m with
  | atom p a => cases a <;> rfl
  | _ => rfl

theorem callees_eq_nil_of_measured {n : Node Span}
    (h : (measure s n).info.traits.has .hasCall = false) : (measure s n).callees = [] := by
  rw [measure_has rfl] at h
  refine callees_eq_nil_iff.mpr (everywhere_iff.mpr fun m hm => ?_)
  have howns : m.owns .hasCall = false := by
    simpa using Array.any_eq_false'.mp h m hm
  cases m with
  | atom note a => cases a <;> first | rfl | cases howns
  | _ => rfl

/-- A tree that has passed the check makes no calls in its lookbehinds. -/
theorem checkLooks_mute {n : Node Span} (h : checkLooks d (measure s n) = .ok ()) :
    (measure s n).Everywhere behindMute := by
  induction n using Node.induction with
  | step n ih =>
    refine everywhere_of_children ?_ ?_
    · cases n with
      | look p k body =>
        cases hk : k.behind with
        | false => simp [measure, behindMute, hk]
        | true =>
          have hbody := checkLooks_behind h hk
          simp only [unboundedBehind, Bool.or_eq_false_iff] at hbody
          simp [measure, behindMute, callees_eq_nil_of_measured hbody.1.1]
      | _ => rfl
    · intro c hc
      have hchecked := checkLooks_child h hc
      rw [children_measure] at hc
      obtain ⟨m, hm, rfl⟩ := List.mem_map.mp hc
      exact ih m hm hchecked

theorem everywhere_mute {n : Node α} (h : n.callees = []) : n.Everywhere behindMute := by
  refine everywhere_iff.mpr fun m hm => ?_
  cases m with
  | look note k body =>
    have hbody : body.callees = [] := callees_eq_nil_of_mem
      (subtrees_trans (child_mem_subtrees (List.mem_singleton.mpr rfl)) hm) h
    simp [behindMute, hbody]
  | _ => rfl

theorem callees_splitLooks {t : Node Measured} (h : t.callees = []) (d : Dialect) :
    (splitLooks d t).callees = [] := by
  refine callees_eq_nil_iff.mpr (Everywhere.splitLooks (callees_eq_nil_iff.mp h)
    (fun n hn hcallee => ?_) (fun _ _ _ => rfl) fun span k n _ => ?_)
  · cases n with
    | look note k body =>
      rw [splitsBehind] at hn
      rw [splitLooks, if_neg (by simp [hn])]
      rfl
    | atom note a => cases a <;> first | rfl | cases hcallee
    | _ => rfl
  · unfold splitLook
    dsimp only
    split <;> rfl

/-- Lookbehinds that are split make no calls where they made none. -/
theorem splitLooks_mute {t : Node Measured} (h : t.Everywhere behindMute) (d : Dialect) :
    (splitLooks d t).Everywhere behindMute := by
  induction t using Node.induction with
  | step t ih =>
    have hself := h.self
    cases ht : t.splitsBehind d with
    | true =>
      cases t with
      | look note k body =>
        rw [splitsBehind, Bool.and_eq_true] at ht
        have hbody : body.callees = [] := by simpa [behindMute, ht.1] using hself
        refine everywhere_mute (callees_splitLooks ?_ d)
        refine callees_eq_nil_iff.mpr (everywhere_of_children rfl fun c hc => ?_)
        obtain rfl := List.mem_singleton.mp hc
        exact callees_eq_nil_iff.mp hbody
      | _ => cases ht
    | false =>
      refine everywhere_of_children ?_ ?_
      · cases t with
        | look note k body =>
          rw [splitsBehind] at ht
          rw [splitLooks, if_neg (by simp [ht])]
          cases hk : k.behind with
          | false => simp [behindMute, hk]
          | true =>
            have hbody : body.callees = [] := by simpa [behindMute, hk] using hself
            simp [behindMute, callees_splitLooks hbody]
        | _ => rfl
      · rw [children_splitLooks d ht]
        simp only [List.mem_map]
        rintro _ ⟨c, hc, rfl⟩
        exact ih c hc (h.child hc)

theorem measure_mute {n : Node Span} (h : n.Everywhere behindMute) (s : Scale) :
    (measure s n).Everywhere behindMute := by
  refine Everywhere.rebuild h (children_measure s) fun m hm => ?_
  cases m with
  | look p k body =>
    rw [measure, behindMute, callees_measure]
    exact hm
  | _ => rfl

end Node

namespace Analyzed
open Node

theorem mark_mute {n : Node Measured} (h : n.Everywhere behindMute) (c : CallGraph) :
    (mark c n).Everywhere behindMute := by
  refine Everywhere.rebuild h (children_mark c) fun m hm => ?_
  cases m with
  | look note k body =>
    rw [mark, behindMute, callees_mark]
    exact hm
  | group note k body => cases k <;> rfl
  | _ => rfl

theorem callWeight_mark (c : CallGraph) (root : Node Measured) (g : Nat) :
    Machine.callWeight (mark c root) g = Machine.callWeight root g := by
  rw [Machine.callWeight, Machine.callWeight, CallGraph.calledBody?_mark]
  cases root.calledBody? g with
  | none => rfl
  | some body => exact mark_minChars c body

/-- What the analysis finds out about the calls of a tree in which no group is defined twice: none is
longer than its group, and none is made in a lookbehind. -/
theorem ofTree_cautious {d : Dialect} {e : Encoding} {t : PatternTree Span} {a : Analyzed}
    (h : ofTree d e t = .ok a) (hroot : t.root.Distinct) :
    ∃ s, a.tree.root.Weighed s ∧ a.tree.root.Everywhere behindMute ∧
      ∀ g, s.groupMin.getD g 0 ≤ Machine.callWeight a.tree.root g := by
  obtain ⟨root, hmeasure, -, hmark, -⟩ := ofTree_parts h
  rw [hmark]
  suffices hfound : ∃ s n, root = Node.measure s n ∧ root.Everywhere behindMute ∧ Cautious s n by
    obtain ⟨s, n, rfl, hmute, hcautious⟩ := hfound
    exact ⟨s, mark_weighed _ s _ (measure_weighed s n), mark_mute hmute _, fun g => by
      rw [callWeight_mark]
      exact hcautious g⟩
  obtain ⟨s, hs, hcautious⟩ := (cautious_start e t.captures t.root).rounds hroot
    ((Scale.start e t.captures).groupMin.size + 1)
  simp only [measure, bind, Except.bind, measured, hs] at hmeasure
  split at hmeasure
  · cases hmeasure
  · have hmute := checkLooks_mute ‹_›
    split at hmeasure
    · obtain ⟨s', hs', hcautious'⟩ := (hcautious.splitLooks hroot d).rounds
        ((hroot.measure s).splitLooks d) (s.groupMin.size + 1)
      rw [hs'] at hmeasure
      cases hmeasure
      exact ⟨s', _, rfl, measure_mute (splitLooks_mute hmute d) s', hcautious'⟩
    · cases hmeasure
      exact ⟨s, _, rfl, hmute, hcautious⟩

end Analyzed
end RegexMachine
