import RegexMachine.Proofs.Numbers
import RegexMachine.Proofs.Subroutines

/-!
References, conditions and calls mean groups that a pattern has, and the lengths that are found of a
tree are in order: nothing is shorter at most than it is at least.
-/
namespace RegexMachine

/-! ## Names -/

namespace NameTable

/-- The names of a table stand for groups up to the number given. -/
def UpTo (t : NameTable) (count : Nat) : Prop := ∀ e ∈ t.entries, ∀ g ∈ e.2, 0 < g ∧ g ≤ count

theorem UpTo.mono {t : NameTable} {m n : Nat} (h : t.UpTo m) (hmn : m ≤ n) : t.UpTo n :=
  fun e he g hg => ⟨(h e he g hg).1, Nat.le_trans (h e he g hg).2 hmn⟩

theorem mem_insertInto {name : String} {group : Nat} {es : List (String × List Nat)}
    {e : String × List Nat} (he : e ∈ insertInto name group es) {g : Nat} (hg : g ∈ e.2) :
    g = group ∨ ∃ e' ∈ es, g ∈ e'.2 := by
  induction es with
  | nil =>
    obtain rfl := List.mem_singleton.mp he
    exact Or.inl (List.mem_singleton.mp hg)
  | cons entry es ih =>
    obtain ⟨n, gs⟩ := entry
    unfold insertInto at he
    split at he
    · rcases List.mem_cons.mp he with rfl | he
      · dsimp only at hg
        split at hg
        · exact Or.inr ⟨(n, gs), by simp, hg⟩
        · rcases List.mem_append.mp hg with hg | hg
          · exact Or.inr ⟨(n, gs), by simp, hg⟩
          · exact Or.inl (List.mem_singleton.mp hg)
      · exact Or.inr ⟨e, List.mem_cons_of_mem _ he, hg⟩
    · rcases List.mem_cons.mp he with rfl | he
      · exact Or.inr ⟨(n, gs), by simp, hg⟩
      · exact (ih he).imp id fun ⟨e', he', hg'⟩ => ⟨e', List.mem_cons_of_mem _ he', hg'⟩

theorem UpTo.insert {t : NameTable} {count group : Nat} (h : t.UpTo count) (name : String)
    (hgroup : 0 < group ∧ group ≤ count) : (t.insert name group).UpTo count := by
  intro e he g hg
  rcases mem_insertInto he hg with rfl | ⟨e', he', hg'⟩
  · exact hgroup
  · exact h e' he' g hg'

theorem UpTo.groups? {t : NameTable} {count : Nat} (h : t.UpTo count) {name : String} {gs : List Nat}
    (hgs : t.groups? name = some gs) : ∀ g ∈ gs, 0 < g ∧ g ≤ count := by
  obtain ⟨es, es', hentries, -⟩ := List.lookup_eq_some_iff.mp hgs
  exact h (name, gs) (hentries ▸ by simp)

end NameTable

namespace Pattern.Numbering

theorem upTo_add {n : Numbering} (h : n.names.UpTo n.count) (only : Bool) (d : GroupDef) :
    (n.add only d).names.UpTo (n.add only d).count := by
  have hmono := h.mono (Nat.le_succ n.count)
  unfold add
  split
  · exact h
  · dsimp only
    split
    · exact hmono
    · exact hmono.insert _ ⟨Nat.succ_pos _, Nat.le_refl _⟩

theorem upTo_ofDefs (only : Bool) (defs : Array GroupDef) :
    (ofDefs only defs).names.UpTo (ofDefs only defs).count :=
  Array.foldl_induction (motive := fun _ (n : Numbering) => n.names.UpTo n.count)
    (fun _ he => absurd he List.not_mem_nil) fun _ _ h => upTo_add h only _

/-- What a target means exists. -/
theorem targets?_upTo {n : Numbering} (hn : n.Bounded) (hnames : n.names.UpTo n.count) {t : Target}
    {gs : List Nat} (h : n.targets? t = some gs) : ∀ g ∈ gs, 0 < g ∧ g ≤ n.count := by
  have hnumber : ∀ raw, (n.number? raw).map ([·]) = some gs → ∀ g ∈ gs, 0 < g ∧ g ≤ n.count := by
    intro raw hraw g hg
    obtain ⟨g', hg', rfl⟩ := Option.map_eq_some_iff.mp hraw
    obtain rfl := List.mem_singleton.mp hg
    exact hn.number?_le hg'
  cases t with
  | name s => exact hnames.groups? h
  | number raw => exact hnumber raw h
  | relative raw => exact hnumber raw h

end Pattern.Numbering

/-! ## References -/

namespace Node

variable {α β : Type} {count : Nat}

/-- Groups that a node refers to without calling them. -/
def referents : Node α → List Nat
  | atom _ (.backref _ gs _) => gs
  | conditional _ _ gs _ _ => gs
  | _ => []

/-- Whether the groups that a node refers to and calls exist. The whole pattern can be called. -/
def isBound (count : Nat) (n : Node α) : Bool :=
  n.referents.all (fun g => decide (0 < g) && decide (g ≤ count)) && n.callee?.all (· ≤ count)

/-- All references and calls of a tree are bound. -/
def Bound (count : Nat) (n : Node α) : Prop := n.Everywhere (isBound count)

theorem isBound_iff {n : Node α} : n.isBound count = true ↔
    (∀ g ∈ n.referents, 0 < g ∧ g ≤ count) ∧ ∀ g, n.callee? = some g → g ≤ count := by
  cases h : n.callee? <;> simp [isBound, h]

theorem isBound_measure (s : Scale) (n : Node Span) :
    (measure s n).isBound count = n.isBound count := by
  cases n with
  | atom p a => cases a <;> simp [measure, isBound, referents, callee?]
  | _ => simp [measure, isBound, referents, callee?]

theorem isBound_splitLooks {d : Dialect} {n : Node Measured} (hn : n.splitsBehind d = false) :
    (splitLooks d n).isBound count = n.isBound count := by
  cases n with
  | look p k body =>
    rw [splitsBehind] at hn
    simp [splitLooks, hn, isBound, referents, callee?]
  | atom p a => cases a <;> simp [splitLooks, isBound, referents, callee?]
  | _ => simp [splitLooks, isBound, referents, callee?]

theorem Bound.measure {n : Node Span} (h : n.Bound count) (s : Scale) :
    (n.measure s).Bound count :=
  Everywhere.rebuild h (children_measure s) fun n hn => (isBound_measure s n).trans hn

theorem Bound.splitLooks {n : Node Measured} (h : n.Bound count) (d : Dialect) :
    (n.splitLooks d).Bound count := by
  refine Everywhere.splitLooks h (fun n hn hb => (isBound_splitLooks hn).trans hb)
    (fun _ _ _ => rfl) fun span k n _ => ?_
  unfold splitLook
  dsimp only
  split <;> rfl

end Node

theorem Analyzed.isBound_mark {count : Nat} (g : CallGraph) (n : Node Measured) :
    (mark g n).isBound count = n.isBound count := by
  cases n with
  | group p k body => cases k <;> rfl
  | _ => rfl

/-- Analysis leaves references as they are. -/
theorem Analyzed.ofTree_bound {d : Dialect} {e : Encoding} {t : PatternTree Span} {a : Analyzed}
    (h : Analyzed.ofTree d e t = .ok a) {count : Nat} (ht : t.root.Bound count) :
    a.tree.root.Bound count := by
  obtain ⟨root, hroot, -, htree, -⟩ := ofTree_parts h
  obtain ⟨s, n, -, -, rfl, hn⟩ := measure_eq hroot
  rw [htree]
  refine Node.Everywhere.rebuild (p := Node.isBound count) (n := n.measure s) ?_
    (children_mark a.calls) fun m hm => (isBound_mark a.calls m).trans hm
  refine Node.Bound.measure ?_ s
  rcases hn with rfl | ⟨s', rfl⟩
  · exact ht
  · exact (ht.measure s').splitLooks d

namespace Pattern

namespace Numbering

variable {n : Numbering}

theorem bindReference_upTo (hn : n.Bounded) (hnames : n.names.UpTo n.count) {span : Span}
    {t : Target} {gs : List Nat} (h : n.bindReference span t = .ok gs) :
    ∀ g ∈ gs, 0 < g ∧ g ≤ n.count := by
  unfold bindReference at h
  split at h
  · rename_i hgs
    cases h
    exact targets?_upTo hn hnames hgs
  · cases h

theorem bindCall_le (hn : n.Bounded) (hnames : n.names.UpTo n.count) {span : Span} {t : Target}
    {g : Nat} (h : n.bindCall span t = .ok g) : g ≤ n.count := by
  unfold bindCall at h
  split at h
  · cases h
    exact Nat.zero_le _
  · split at h
    · rename_i hgs
      cases h
      exact (targets?_upTo hn hnames hgs g (by simp)).2
    · cases h
    · cases h

theorem bind_isBound (hn : n.Bounded) (hnames : n.names.UpTo n.count) {m r : Node Span}
    (h : bind n m = .ok r) : r.isBound n.count = true := by
  rw [Node.isBound_iff]
  cases m with
  | atom s a =>
    simp only [bind, Bind.bind, Except.bind] at h
    split at h
    · cases h
    · rename_i b hb
      cases h
      cases a with
      | backref t gs fold =>
        simp only [bindAtom, Bind.bind, Except.bind] at hb
        split at hb
        · cases hb
        · rename_i gs' hgs
          cases hb
          exact ⟨bindReference_upTo hn hnames hgs, by rintro _ ⟨⟩⟩
      | call t g =>
        simp only [bindAtom, Bind.bind, Except.bind] at hb
        split at hb
        · cases hb
        · rename_i g' hg
          cases hb
          exact ⟨by rintro _ ⟨⟩, fun k hk => Option.some.inj hk ▸ bindCall_le hn hnames hg⟩
      | _ =>
        cases hb
        exact ⟨by rintro _ ⟨⟩, by rintro _ ⟨⟩⟩
  | conditional s t gs yes no =>
    simp only [bind, Bind.bind, Except.bind] at h
    split at h
    · cases h
    · rename_i gs' hgs
      repeat' split at h
      all_goals cases h
      exact ⟨bindReference_upTo hn hnames hgs, by rintro _ ⟨⟩⟩
  | _ =>
    simp only [bind, Bind.bind, Except.bind] at h
    split at h
    · cases h
    · cases h
      exact ⟨by rintro _ ⟨⟩, by rintro _ ⟨⟩⟩

theorem bind_bound (hn : n.Bounded) (hnames : n.names.UpTo n.count) {m r : Node Span}
    (h : bind n m = .ok r) : r.Bound n.count := by
  induction m using Node.induction generalizing r with
  | step m ih =>
    obtain ⟨-, hparts⟩ := bind_ok h
    refine Node.everywhere_of_children (bind_isBound hn hnames h) fun c hc => ?_
    obtain ⟨k, hk, hbind⟩ := hparts c hc
    exact ih k hk hbind

end Numbering

/-- A tree whose groups have been numbered is that of the numbering of the groups that were opened. -/
theorem resolve_ok {d : Dialect} {c : Cursor} {root : Node Span} {t : PatternTree Span}
    (h : resolve d c root = .ok t) :
    (Numbering.ofDefs (onlyNamed d c) c.groups).bind root = .ok t.root ∧
      t.captures = (Numbering.ofDefs (onlyNamed d c) c.groups).count ∧
      t.names = (Numbering.ofDefs (onlyNamed d c) c.groups).names := by
  have hlast (n : Numbering) (h : (do return ⟨← n.bind root, n.count, n.names, c.callsWhole⟩ :
      Except PatternError (PatternTree Span)) = .ok t) :
      n.bind root = .ok t.root ∧ t.captures = n.count ∧ t.names = n.names := by
    simp only [Bind.bind, Except.bind] at h
    split at h
    · cases h
    · rename_i hb
      cases h
      exact ⟨hb, rfl, rfl⟩
  unfold resolve at h
  dsimp only at h
  split at h
  · split at h
    · cases h
    · exact hlast _ h
  · exact hlast _ h

/-- A pattern that has been read was read to its end, and its groups have been numbered. -/
theorem parse_ok {s : Setting} {o : Options} {properties : PropertyRegistry} {t : PatternTree Span}
    (h : (parse s o properties).1 = .ok t) :
    ∃ root c, readPattern s.reading (Cursor.start o properties) = .ok root c ∧
      resolve s.dialect c root = .ok t := by
  unfold parse at h
  split at h
  · cases h
  · rename_i root c hread
    cases hr : resolve s.dialect c root with
    | error e =>
      rw [hr] at h
      cases h
    | ok t' =>
      rw [hr] at h
      cases h
      exact ⟨root, c, hread, hr⟩

/-- References and calls of a pattern mean groups that it has. -/
theorem parse_bound {s : Setting} {o : Options} {properties : PropertyRegistry}
    {t : PatternTree Span} (h : (parse s o properties).1 = .ok t) : t.root.Bound t.captures := by
  obtain ⟨root, c, -, hresolve⟩ := parse_ok h
  obtain ⟨hbind, hcaptures, -⟩ := resolve_ok hresolve
  rw [hcaptures]
  exact Numbering.bind_bound (Numbering.bounded_ofDefs _ _) (Numbering.upTo_ofDefs _ _) hbind

end Pattern

/-! ## Lengths -/

namespace Info

/-- The least length is no more than the greatest. -/
def InOrder (i : Info) : Prop := ∀ n, i.maxChars = some n → i.minChars ≤ n

theorem capped?_eq {m n : Nat} (h : capped? m = some n) : n = m ∧ m ≤ cap := by
  unfold capped? at h
  split at h
  · exact ⟨(Option.some.inj h).symm, ‹_›⟩
  · cases h

theorem inOrder_repeat {b : Bounds} {body : Info} (hb : b.max.all (b.min ≤ ·) = true)
    (h : body.InOrder) : (ofRepeat b body).InOrder := by
  intro n hn
  change mulMax body.maxChars b.max = some n at hn
  change min cap (body.minChars * b.min) ≤ n
  cases hmax : b.max with
  | none =>
    rw [hmax] at hn
    cases hbody : body.maxChars with
    | none =>
      rw [hbody] at hn
      cases hn
    | some m =>
      rw [hbody] at hn
      cases m with
      | zero =>
        have := h 0 hbody
        obtain hzero : body.minChars = 0 := by omega
        simp [hzero]
      | succ m => cases hn
  | some k =>
    rw [hmax] at hn hb
    have hmin : b.min ≤ k := by simpa using hb
    cases k with
    | zero =>
      obtain hzero : b.min = 0 := by omega
      simp [hzero]
    | succ k =>
      cases hbody : body.maxChars with
      | none =>
        rw [hbody] at hn
        cases hn
      | some m =>
        have hle := h m hbody
        rw [hbody] at hn
        cases m with
        | zero =>
          obtain hzero : body.minChars = 0 := by omega
          simp [hzero]
        | succ m =>
          obtain ⟨rfl, -⟩ := capped?_eq hn
          exact Nat.le_trans (Nat.min_le_right _ _) (Nat.mul_le_mul hle hmin)

theorem inOrder_group {k : Grouping} {body : Info} (h : body.InOrder) : (ofGroup k body).InOrder := by
  cases k with
  | absent => exact nofun
  | _ => exact h

theorem wider_eq {a b : Option Nat} {n : Nat} (h : wider a b = some n) :
    ∃ k m, a = some k ∧ b = some m ∧ n = max k m := by
  cases a with
  | none => cases h
  | some k =>
    cases b with
    | none => cases h
    | some m => exact ⟨k, m, rfl, rfl, (Option.some.inj h).symm⟩

theorem inOrder_conditional {yes no : Info} (t : Traits) (h : yes.InOrder) :
    (ofConditional yes no t).InOrder := by
  intro n hn
  obtain ⟨k, m, hk, -, rfl⟩ := wider_eq hn
  exact Nat.le_trans (Nat.min_le_left _ _) (Nat.le_trans (h k hk) (Nat.le_max_left _ _))

theorem inOrder_sequence {parts : List Info} (h : ∀ i ∈ parts, i.InOrder) :
    (ofSequence parts).InOrder := by
  have key : ∀ (parts : List Info) (lo : Nat) (hi : Option Nat), (∀ i ∈ parts, i.InOrder) →
      (∀ n, hi = some n → lo ≤ n) → ∀ n, parts.foldl (fun m i => addMax m i.maxChars) hi = some n →
        parts.foldl (fun n i => addCapped n i.minChars) lo ≤ n := by
    intro parts
    induction parts with
    | nil => exact fun lo hi _ h => h
    | cons i parts ih =>
      intro lo hi hall h
      refine ih _ _ (fun j hj => hall j (List.mem_cons_of_mem _ hj)) fun n hn => ?_
      dsimp only at hn ⊢
      cases hi with
      | none => cases hn
      | some m =>
        cases hmax : i.maxChars with
        | none =>
          rw [hmax] at hn
          cases hn
        | some k =>
          rw [hmax] at hn
          obtain ⟨rfl, -⟩ := capped?_eq hn
          have hm := h m rfl
          have hk := hall i (by simp) k hmax
          exact Nat.le_trans (Nat.min_le_right _ _) (Nat.add_le_add hm hk)
  exact fun n hn => key parts 0 (some 0) h (fun n _ => Nat.zero_le n) n hn

theorem inOrder_alternation {parts : List Info} (h : ∀ i ∈ parts, i.InOrder) :
    (ofAlternation parts).InOrder := by
  have hmax : ∀ (parts : List Info) (hi : Option Nat) (n : Nat),
      parts.foldl (fun m i => wider m i.maxChars) hi = some n →
        (∃ m, hi = some m) ∧ ∀ i ∈ parts, ∃ k, i.maxChars = some k ∧ k ≤ n := by
    intro parts
    have hgrow : ∀ (parts : List Info) (hi : Option Nat) (n : Nat),
        parts.foldl (fun m i => wider m i.maxChars) hi = some n → ∃ m, hi = some m ∧ m ≤ n := by
      intro parts
      induction parts with
      | nil => exact fun hi n h => ⟨n, h, Nat.le_refl _⟩
      | cons i parts ih =>
        intro hi n h
        obtain ⟨m, hm, hle⟩ := ih _ _ h
        obtain ⟨a, b, ha, -, rfl⟩ := wider_eq hm
        exact ⟨a, ha, Nat.le_trans (Nat.le_max_left _ _) hle⟩
    induction parts with
    | nil => exact fun hi n h => ⟨⟨n, h⟩, nofun⟩
    | cons i parts ih =>
      intro hi n h
      obtain ⟨m, hm, hle⟩ := hgrow parts _ n h
      obtain ⟨a, b, ha, hb, rfl⟩ := wider_eq hm
      refine ⟨⟨a, ha⟩, fun j hj => ?_⟩
      rcases List.mem_cons.mp hj with rfl | hj
      · exact ⟨b, hb, Nat.le_trans (Nat.le_max_right _ _) hle⟩
      · exact (ih _ _ h).2 j hj
  intro n hn
  cases parts with
  | nil => exact Nat.zero_le _
  | cons i parts =>
    obtain ⟨k, hk, hle⟩ := (hmax _ _ n hn).2 i (by simp)
    have hleast : (ofAlternation (i :: parts)).minChars ≤ i.minChars :=
      Node.least_le List.mem_cons_self
    exact Nat.le_trans hleast (Nat.le_trans (h i (by simp) k hk) hle)

end Info

namespace Node

theorem literalInfo_inOrder (s : Scale) (bytes : Bytes) (fold : Bool) :
    (s.literalInfo bytes fold).InOrder := by
  unfold Scale.literalInfo
  dsimp only
  split
  · intro n hn
    obtain rfl := Option.some.inj hn
    simp only [Info.make]
    omega
  · intro n hn
    obtain rfl := Option.some.inj hn
    exact Nat.le_refl _

theorem atomInfo_inOrder (s : Scale) (a : Atom) : (s.atomInfo a).InOrder := by
  cases a with
  | literal bytes fold => exact literalInfo_inOrder s bytes fold
  | backref t gs fold => exact nofun
  | call t g => exact nofun
  | _ => exact fun n hn => Nat.le_of_eq (Option.some.inj hn)

/-- The lengths that are measured of a tree are in order if its bounds are. -/
theorem measure_inOrder (s : Scale) {n : Node Span} (h : n.Ordered) : (n.measure s).info.InOrder := by
  induction n using Node.induction with
  | step n ih =>
    have hpart : ∀ c ∈ n.children, (c.measure s).info.InOrder := fun c hc => ih c hc (h.child hc)
    cases n with
    | atom p a =>
      rw [measure]
      exact atomInfo_inOrder s a
    | repeated p b m body =>
      rw [measure]
      exact Info.inOrder_repeat h.self (hpart body (by simp [children]))
    | group p k body =>
      rw [measure]
      exact Info.inOrder_group (hpart body (by simp [children]))
    | conditional p t gs yes no =>
      rw [measure]
      exact Info.inOrder_conditional _ (hpart yes (by simp [children]))
    | look p k body =>
      rw [measure]
      exact fun n hn => Nat.le_of_eq (Option.some.inj hn)
    | sequence p items =>
      rw [measure, measureAll_eq]
      refine Info.inOrder_sequence fun i hi => ?_
      simp only [List.reverse_nil, List.nil_append, List.map_map, List.mem_map] at hi
      obtain ⟨c, hc, rfl⟩ := hi
      exact hpart c hc
    | alternation p branches =>
      rw [measure, measureAll_eq]
      refine Info.inOrder_alternation fun i hi => ?_
      simp only [List.reverse_nil, List.nil_append, List.map_map, List.mem_map] at hi
      obtain ⟨c, hc, rfl⟩ := hi
      exact hpart c hc

end Node

namespace Analyzed

theorem mark_maxChars (g : CallGraph) (n : Node Measured) :
    (mark g n).info.maxChars = n.info.maxChars := by
  cases n with
  | group note k body => cases k <;> rfl
  | _ => rfl

/-- The lengths in an analyzed tree are in order. -/
theorem ofTree_inOrder {d : Dialect} {e : Encoding} {t : PatternTree Span} {a : Analyzed}
    (h : Analyzed.ofTree d e t = .ok a) (ht : t.root.Ordered) :
    ∀ m ∈ a.tree.root.subtrees, m.info.InOrder := by
  obtain ⟨root, hroot, -, htree, -⟩ := ofTree_parts h
  obtain ⟨s, n, -, -, rfl, hn⟩ := measure_eq hroot
  have hordered : n.Ordered := by
    rcases hn with rfl | ⟨s', rfl⟩
    · exact ht
    · exact (ht.measure s').splitLooks d
  rw [htree, Node.subtrees_rebuild (children_mark a.calls),
    Node.subtrees_rebuild (Node.children_measure s)]
  intro m hm
  obtain ⟨k, hk, rfl⟩ := Array.mem_map.mp hm
  obtain ⟨c, hc, rfl⟩ := Array.mem_map.mp hk
  have hc : c.Ordered := Node.ordered_iff.mpr fun m hm =>
    Node.ordered_iff.mp hordered m (Node.subtrees_trans hm hc)
  intro n hn
  rw [mark_maxChars] at hn
  rw [mark_minChars]
  exact Node.measure_inOrder s hc n hn

end Analyzed
end RegexMachine
