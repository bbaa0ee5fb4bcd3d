import Mathlib.Data.List.Nodup
import Mathlib.Data.List.Perm.Subperm
import Mathlib.Data.List.ProdSigma
import RegexMachine.Proofs.Charts
import RegexMachine.Proofs.GroupLengths

/-!
How deep calls go. On the way from one open call to the next the subject is read on, unless the next
group is called early or is one that has no calls. Since no group comes back to itself early, no group is
called where a call of it is still open, and there are only so many groups and places.
-/
namespace RegexMachine
open Compile Relation

/-! ## Ways back to a group -/

namespace Node
variable {root : Node Measured} {c d : Nat × Nat}

/-- A match of one group that begins at a position can call another group at another. -/
def Enters (root : Node Measured) (c d : Nat × Nat) : Prop :=
  ∃ n, root.calledBody? c.1 = some n ∧ n.Meets c.2 d.1 d.2

/-- A group that has no calls. -/
def Mute (root : Node Measured) (g : Nat) : Prop :=
  ∃ n, root.calledBody? g = some n ∧ n.callees = []

/-- Size of what a call of a group runs. -/
def bodySize (root : Node Measured) (g : Nat) : Nat := (root.calledBody? g).elim 0 (·.subtrees.size)

/-- What a group without calls can enter is a group inside it. -/
theorem Mute.enters (hroot : root.Distinct) (hc : root.Mute c.1) (h : root.Enters c d) :
    root.Mute d.1 ∧ root.bodySize d.1 < root.bodySize c.1 := by
  obtain ⟨n, hn, hmute⟩ := hc
  obtain ⟨n', hn', hmeets⟩ := h
  obtain rfl := Option.some.inj (hn.symm.trans hn')
  rcases hmeets.site with hcall | hdefined
  · rw [hmute] at hcall
    cases hcall
  · obtain ⟨m, hm, body, hcaptured⟩ := exists_captured hdefined
    have hbody := hroot.calledBody?_eq (subtrees_trans hm (calledBody?_mem_subtrees hn)) hcaptured
    refine ⟨⟨body, hbody, callees_eq_nil_of_mem (captured?_body_mem hm hcaptured) hmute⟩, ?_⟩
    rw [bodySize, bodySize, hbody, hn]
    exact Nat.lt_of_lt_of_le (subtrees_size_child (captured?_child hcaptured)) (subtrees_size_le hm)

theorem Mute.path (hroot : root.Distinct) (hc : root.Mute c.1) (h : TransGen root.Enters c d) :
    root.Mute d.1 ∧ root.bodySize d.1 < root.bodySize c.1 := by
  induction h with
  | single hstep => exact hc.enters hroot hstep
  | tail _ hstep ih =>
    obtain ⟨hmute, hlt⟩ := ih
    obtain ⟨hmute', hlt'⟩ := hmute.enters hroot hstep
    exact ⟨hmute', Nat.lt_trans hlt' hlt⟩

theorem Enters.cases (hroot : root.Distinct) (h : root.Enters c d) :
    root.Mute d.1 ∨ c.2 < d.2 ∨ c.2 = d.2 ∧ CallGraph.Early root c.1 d.1 := by
  obtain ⟨n, hn, hmeets⟩ := h
  rcases hmeets.place with hlt | ⟨heq, hearly⟩ | ⟨m, hm, body, hcaptured, hmute⟩
  · exact Or.inr (Or.inl hlt)
  · exact Or.inr (Or.inr ⟨heq, n, hn, hearly⟩)
  · exact Or.inl ⟨body,
      hroot.calledBody?_eq (subtrees_trans hm (calledBody?_mem_subtrees hn)) hcaptured, hmute⟩

/-- Along a path of calls the subject is read on, unless they are all early or no calls are left. -/
theorem enters_path (hroot : root.Distinct) (h : TransGen root.Enters c d) :
    root.Mute d.1 ∨ c.2 < d.2 ∨ c.2 = d.2 ∧ TransGen (CallGraph.Early root) c.1 d.1 := by
  induction h with
  | single hstep =>
    exact (hstep.cases hroot).imp_right (Or.imp_right (And.imp_right .single))
  | tail _ hstep ih =>
    rcases ih with hmute | hlt | ⟨heq, hpath⟩
    · exact Or.inl (hmute.enters hroot hstep).1
    · refine (hstep.cases hroot).imp_right fun h => Or.inl ?_
      rcases h with hlt' | ⟨heq, -⟩
      · exact Nat.lt_trans hlt hlt'
      · exact heq ▸ hlt
    · rcases hstep.cases hroot with hmute | hlt | ⟨heq', hearly⟩
      · exact Or.inl hmute
      · exact Or.inr (Or.inl (heq ▸ hlt))
      · exact Or.inr (Or.inr ⟨heq.trans heq', hpath.tail hearly⟩)

/-- No group is entered where it was entered before. -/
theorem enters_acyclic (hroot : root.Distinct) (hearly : ∀ g, ¬ TransGen (CallGraph.Early root) g g)
    (c : Nat × Nat) : ¬ TransGen root.Enters c c := by
  intro hcycle
  rcases enters_path hroot hcycle with hmute | hlt | ⟨-, hpath⟩
  · exact Nat.lt_irrefl _ (hmute.path hroot hcycle).2
  · exact Nat.lt_irrefl _ hlt
  · exact hearly _ hpath

end Node

/-! ## Positions -/

namespace Machine
variable {p : Program} {l : Layout} {root : Node Measured} {scale : Scale} {e : Setting}
  {b : Addr} {s : State} {γ : Nat → Nat} {kind : Nat → Prop} {Γ : Ground} {A : Invocation}
  {r : Registers} {K : List Frame}

/-- Code leads nowhere beyond the end of the subject. -/
theorem Leads.le {i : Instr} {a x : Addr} {y z : Nat} (h : Leads e i a y x z) :
    z ≤ max y e.subject.size := by
  have hsame {q : Nat} (h : q = y) : q ≤ max y e.subject.size := h ▸ Nat.le_max_left ..
  have htext {width : Nat → Option Nat} (hw : ∀ q n, width q = some n → q + n ≤ max q e.subject.size)
      (h : Extent.text width y z) : z ≤ max y e.subject.size := by
    obtain ⟨n, hn, rfl⟩ := h
    exact hw y n hn
  have hend {q n : Nat} (h : q + n ≤ e.subject.size) : q + n ≤ max q e.subject.size :=
    Nat.le_trans h (Nat.le_max_right ..)
  cases i with
  | byte c =>
    refine htext (fun q n hq => ?_) h.2
    unfold Subject.byteLength? at hq
    split at hq
    · cases hq
      obtain ⟨hlt, -⟩ := Array.getElem?_eq_some_iff.mp (beq_iff_eq.mp ‹_›)
      exact hend hlt
    · cases hq
  | text bytes => exact htext (fun _ _ hq => (Subject.textLength?_onward hq).2) h.2
  | foldedText bytes => exact htext (fun _ _ hq => (Subject.foldedLength?_onward hq).2) h.2
  | charClass k => exact htext (fun _ _ hq => hend (Subject.classLength?_bounds hq).1) h.2
  | charType t negated ascii => exact htext (fun _ _ hq => hend (Subject.typeLength?_bounds hq).1) h.2
  | anyChar multiline => exact htext (fun _ _ hq => hend (Subject.anyLength?_bounds hq).1) h.2
  | anyChars _ => exact h.2.2
  | anyCharsBefore _ _ => exact h.2.2
  | backref _ _ => exact h.2.2
  | absent _ => exact h.2.2
  | stepBack _ _ => exact Nat.le_trans h.2 (Nat.le_max_left ..)
  | repeatEnter id =>
    obtain ⟨_, _, -, hq⟩ := h
    exact hsame hq
  | repeatNext id =>
    obtain ⟨_, _, -, hq⟩ := h
    exact hsame hq
  | _ => first | exact h.elim | exact hsame h.2

theorem Reach.le {a c : Addr} {x y : Nat} (h : Reach e a x c y) : y ≤ max x e.subject.size := by
  induction h with
  | entry => exact Nat.le_max_left ..
  | step _ _ hto ih =>
    have := hto.le
    omega
  | call _ _ _ _ ih ih' => omega

/-- No open call was made beyond the end of the subject, or of where the run was entered. -/
theorem Held.calls_le {m : Nat} (hsize : e.subject.size ≤ m) (hΓ : Γ.frames = [])
    (hroot : ∀ a x, Γ.root.places a x → x ≤ m) (h : Held e kind γ Γ A r K) :
    (∀ a x, A.places a x → x ≤ m) ∧ ∀ c ∈ openCalls 0 K, γ c.2 ≤ m := by
  induction h with
  | ground =>
    rw [hΓ]
    exact ⟨hroot, nofun⟩
  | own hf h ih =>
    rw [openCalls_skip hf.not_call]
    exact ih
  | call hcode hplace hs hsaved hdepth h ih =>
    have hcall := ih.1 _ _ hplace
    rw [openCalls, if_pos rfl]
    refine ⟨fun a x hreach => ?_, List.forall_mem_cons.mpr ⟨hcall, ih.2⟩⟩
    have := Reach.le hreach
    omega
  | returned hG hcallee hlike h ih ih' =>
    rw [openCalls, hG.openCalls, openCalls, if_neg (Nat.succ_ne_zero _)]
    exact ih'

/-! ## Open calls -/

/-- The group that an open call has entered, and the position at which it was called. -/
def callSite (e : Setting) (γ : Nat → Nat) (c : Nat × Nat) : Nat × Nat :=
  ((e.program.tables.subroutines[c.1]?).elim 0 (·.group), γ c.2)

theorem Links.enters {new old : Nat × Nat} (hp : Orderly e.program l root scale True)
    (h : Links e γ new old) : root.Enters (callSite e γ old) (callSite e γ new) := by
  obtain ⟨a, t, r, hcall, hr, hreach⟩ := h
  obtain ⟨n, g, hn, hsub, hmeets⟩ := hp.sub_calls (Array.mem_of_getElem? hr) hreach hcall
  obtain ⟨r', hr', rfl⟩ := hp.compiled.called g _ hsub
  refine ⟨n, ?_, ?_⟩
  · rw [callSite, hr]
    exact hn
  · rw [callSite, callSite, hr']
    exact hmeets trivial

/-- Of the calls that are open, no two have entered the same group at the same position. -/
theorem sites_nodup {calls : List (Nat × Nat)} (hp : Orderly e.program l root scale True)
    (hearly : ∀ g, ¬ TransGen (CallGraph.Early root) g g) (h : calls.IsChain (Links e γ)) :
    (calls.map (callSite e γ)).Nodup := by
  have htrans : Trans (fun new old => TransGen root.Enters old new)
      (fun new old => TransGen root.Enters old new) (fun new old => TransGen root.Enters old new) :=
    ⟨fun h h' => h'.trans h⟩
  have hchain : (calls.map (callSite e γ)).IsChain fun new old => TransGen root.Enters old new :=
    (List.isChain_map _).mpr (h.imp fun _ _ h => .single (h.enters hp))
  refine hchain.pairwise.imp fun habove hsame => ?_
  subst hsame
  exact Node.enters_acyclic (hp.distinct trivial) hearly _ habove

theorem length_le_of_nodup {sites : List (Nat × Nat)} {m n : Nat} (h : sites.Nodup)
    (hlt : ∀ c ∈ sites, c.1 < m ∧ c.2 < n) : sites.length ≤ m * n := by
  have hsub : sites ⊆ List.range m ×ˢ List.range n := fun c hc =>
    List.mem_product.mpr ((hlt c hc).imp List.mem_range.mpr List.mem_range.mpr)
  have hle := (List.subperm_of_subset h hsub).length_le
  rwa [List.length_product, List.length_range, List.length_range] at hle

end Machine

/-! ## Programs of patterns -/

/-- The program of a tree in which no group is defined twice keeps to its courses, lengths included. -/
theorem Compilation.ofTree_strict {s : Pattern.Setting} {o : Options} {t : PatternTree Span}
    {p : Program} (h : (Compilation.ofTree s o t).1 = .ok p)
    (ht : ∀ g ∈ t.root.groupNumbers, 0 < g ∧ g ≤ t.captures) (hseparate : t.root.Separate)
    (hordered : t.root.Ordered) (hroot : t.root.Distinct) :
    ∃ a scale, Analyzed.ofTree s.dialect s.encoding t = .ok a ∧
      Machine.Orderly p (patternLayout a s o) a.tree.root scale True := by
  obtain ⟨a, _, ha, horderly, -⟩ := ofTree_orderly h ht hseparate hordered
  obtain ⟨scale, hweighed, hmute, hcautious⟩ := Analyzed.ofTree_cautious ha hroot
  have hnumbers := Analyzed.ofTree_groupNumbers ha
  exact ⟨a, scale, ha, horderly.compiled, horderly.closings, hweighed, horderly.ordered, fun _ => hmute,
    fun _ => ⟨hnumbers ▸ hroot.nodup, hnumbers ▸ hroot.pos⟩,
    fun _ g _ hpos => Nat.lt_of_lt_of_le hpos (hcautious g)⟩

namespace Machine
variable {p : Program} {e : Setting} {b : Addr} {γ : Nat → Nat} {s : State}

/-- A recursion reads on. In every state of every run of a pattern that defines no group twice, the run
of an absent operator's body included, no two open calls have entered the same subroutine at the same
position. The depth of calls is their number, so the groups and the places of the subject bound it,
whatever the limit for recursion. -/
theorem recursion_reads_on {setting : Pattern.Setting} {options : Options}
    {properties : PropertyRegistry}
    (hprogram : (Compilation.ofPattern setting options properties).result = .ok p)
    (honce : Pattern.definesOnce setting options properties = true) (h : Charted p e b γ s) :
    ((openCalls 0 s.stack.frames).map fun c => (c.1, γ c.2)).Nodup ∧
      s.regs.depth = (openCalls 0 s.stack.frames).length ∧
      (s.start ≤ e.subject.size →
        s.regs.depth ≤ (p.tables.captures + 1) * (e.subject.size + 1)) := by
  obtain ⟨o, t, ho, hparse, htree⟩ := Compilation.ofPattern_ok hprogram
  obtain ⟨a, scale, ha, hp⟩ := Compilation.ofTree_strict htree (Pattern.parse_groupNumbers hparse)
    (Pattern.parse_separate hparse) (Pattern.parse_ordered hparse) (Pattern.definesOnce_root honce ho hparse)
  obtain rfl := h.visited.program
  have hearly := Analyzed.early_acyclic ha (hp.distinct trivial) fun g hg => by
    rw [Analyzed.ofTree_groupNumbers ha] at hg
    exact (Pattern.parse_groupNumbers hparse g hg).2
  obtain ⟨A, hheld, -⟩ := h.held hp
  obtain ⟨-, hchain, hsubs⟩ := hheld.calls hp rfl
  have hdepth := (hheld.depth rfl rfl).1
  have hsites := sites_nodup hp hearly hchain
  refine ⟨?_, hdepth, fun hstart => ?_⟩
  · -- What is called at the same position for the same subroutine is called for the same group.
    refine List.Nodup.of_map (fun c : Nat × Nat =>
      ((e.program.tables.subroutines[c.1]?).elim 0 (·.group), c.2)) ?_
    rw [List.map_map]
    exact hsites
  · rw [hdepth, ← List.length_map (callSite e γ)]
    refine length_le_of_nodup hsites fun c hc => ?_
    obtain ⟨call, hcall, rfl⟩ := List.mem_map.mp hc
    obtain ⟨r, hr⟩ := hsubs call hcall
    refine ⟨?_, Nat.lt_succ_of_le ?_⟩
    · rw [callSite, hr]
      exact Nat.lt_succ_of_le (hp.compiled.group r (Array.mem_of_getElem? hr))
    · refine (hheld.calls_le (Nat.le_refl _) rfl (fun a x hreach => ?_)).2 call hcall
      have := Reach.le hreach
      omega

/-- The pattern `(a\g<1>?b)`, whose group calls itself. -/
def nesting : Pattern.Setting :=
  ⟨#[40, 97, 92, 103, 60, 49, 62, 63, 98, 41], .native, .ascii, .standard⟩

theorem nesting_compiles :
    (Compilation.ofPattern nesting .empty .empty).result.toOption.isSome = true := by
  decide +kernel

/-- Its program. -/
def nestingProgram : Program :=
  (Compilation.ofPattern nesting .empty .empty).result.toOption.get nesting_compiles

/-- A run of it on the text `aaabbb`. -/
def nestingRun : Setting :=
  ⟨nestingProgram, ⟨#[97, 97, 97, 98, 98, 98], .ascii, false, false⟩, ⟨0, 0, 1024, 0, 16384⟩, .empty,
    0, fun _ => false, false⟩

/-- Where the run begins. -/
def nestingStart : State := (State.initial.enter nestingRun 0 0).emit nestingRun (.start 0)

theorem nested_isSome : (nestingStart.stays? nestingRun 0 9).isSome = true := by decide +kernel

/-- Three calls are open. -/
def nested : State := (nestingStart.stays? nestingRun 0 9).get nested_isSome

/-- They were made at different positions. -/
theorem nested_reads_on :
    ∃ b γ, Charted nestingProgram nestingRun b γ nested ∧
      ((openCalls 0 nested.stack.frames).map fun c => (c.1, γ c.2)).Nodup ∧
      nested.regs.depth = (openCalls 0 nested.stack.frames).length ∧
      nested.regs.depth ≤ (nestingProgram.tables.captures + 1) * (nestingRun.subject.size + 1) := by
  have hp : (Compilation.ofPattern nesting .empty .empty).result = .ok nestingProgram :=
    ok_of_isSome nesting_compiles
  have honce : Pattern.definesOnce nesting .empty .empty = true := by decide +kernel
  have hrun : nestingRun.program = nestingProgram := by unfold nestingRun; with_reducible rfl
  have hstays : Staying nestingRun 0 nestingStart nested :=
    staying_of_stays? (Option.some_get nested_isSome).symm
  obtain ⟨b, γ, h⟩ := (hstays.visited (.attempt hrun .initial 0)).charted
  have hstart : nested.start ≤ nestingRun.subject.size := by decide +kernel
  obtain ⟨hnodup, hdepth, hbound⟩ := recursion_reads_on hp honce h
  exact ⟨b, γ, h, hnodup, hdepth, hbound hstart⟩

/-- The calls of its group lie one above the other. -/
example : nested.regs.depth = 3 := by decide +kernel

end Machine
end RegexMachine
