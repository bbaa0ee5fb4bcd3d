import RegexMachine.Proofs.Courses
import RegexMachine.Proofs.Definitions
import RegexMachine.Proofs.InvocationSteps
import RegexMachine.Proofs.Routines

/-!
The routines of a program keep to the courses of their trees. What is called changes no groups or
loops but its own, and makes the calls that its group has.
-/
namespace RegexMachine
open Compile Machine

/-! ## Routines -/

namespace Machine

/-- Least length of what a call of a group runs. -/
def callWeight (root : Node Measured) (g : Nat) : Nat := (root.calledBody? g).elim 0 (·.info.minChars)

/-- A program whose routines keep to their courses. Lengths hold on the way if `strict` does. -/
structure Orderly (p : Program) (l : Layout) (root : Node Measured) (s : Scale) (strict : Prop) :
    Prop where
  compiled : p.Compiled l root
  closings : ∀ (a b : Addr) i j mark, p.code[a]? = some i → p.code[b]? = some j →
    i.closed? = some mark → j.closed? = some mark → a = b
  weighed : root.Weighed s
  ordered : root.Ordered
  mute : strict → root.Everywhere Node.behindMute
  distinct : strict → root.Distinct
  calls : strict → ∀ g ∈ root.callees, 0 < s.groupMin.getD g 0 → 0 < callWeight root g

/-- The code of trees of a program, with the loops of one routine. -/
def course (e : Setting) (l : Layout) (root : Node Measured) (s : Scale) (strict : Prop)
    (loops : Array CountedLoop) : Course where
  built := ⟨e.program.code, loops, e.program.tables.subroutines, l, ⟨e.subject, e.origin, false⟩⟩
  setting := e
  scale := s
  weight := callWeight root
  strict := strict

/-- The code of a subroutine, which opens and closes its own group besides. -/
def subProcedure (C : Course) (r : Subroutine) (n : Node Measured) (y : Addr) : Procedure where
  entry := r.entry
  rules p := ⟨C.setting, C.returns, fun i q =>
    C.allows n r.loops.first p i q ∨ r.group ≠ 0 ∧ i.Saves r.group⟩
  exits p := C.ends y n.info.minChars p

/-- The main code. -/
def mainProcedure (C : Course) (n : Node Measured) (y : Addr) : Procedure where
  entry := 0
  rules p := C.rules n 0 p
  exits p := C.ends y 0 p

variable {e : Setting} {l : Layout} {root n : Node Measured} {s : Scale} {strict : Prop}
  {loops : Array CountedLoop} {r : Subroutine} {x y a : Addr} {p q : Nat} {i : Instr}

/-- The routines of a program. -/
inductive IsRoutine (e : Setting) (l : Layout) (root : Node Measured) (s : Scale) (strict : Prop) :
    Procedure → Prop
  | sub {r : Subroutine} {n : Node Measured} {loops : Array CountedLoop} {y : Addr}
    (hr : r ∈ e.program.tables.subroutines)
    (hroutine : Program.Compiled.Routine e.program l root ⟨e.subject, e.origin, false⟩ r n loops y) :
    IsRoutine e l root s strict (subProcedure (course e l root s strict loops) r n y)
  | main {loops : Array CountedLoop} {y : Addr} (hy : e.program.code[y]? = some .accept)
    (hmain : ∀ p, ((course e l root s False loops).rules root 0 p).Confines
      ((course e l root s False loops).ends y 0 p) 0 p) :
    IsRoutine e l root s strict (mainProcedure (course e l root s False loops) root y)

namespace Orderly

theorem sound (h : Orderly e.program l root s strict)
    (hB : Serves e.program ⟨e.program.code, loops, e.program.tables.subroutines, l,
      ⟨e.subject, e.origin, false⟩⟩) (strict' : Prop) : (course e l root s strict' loops).Sound :=
  ⟨hB, h.closings⟩

theorem relax (h : Orderly e.program l root s strict) : Orderly e.program l root s False :=
  ⟨h.compiled, h.closings, h.weighed, h.ordered, False.elim, False.elim, False.elim⟩

/-- Whatever a call runs is known. -/
theorem knows (h : Orderly e.program l root s strict) (hn : n ∈ root.subtrees) :
    (course e l root s strict loops).Knows n where
  weighed := h.weighed.subtree hn
  ordered := Node.everywhere_iff.mpr fun m hm =>
    Node.everywhere_iff.mp h.ordered m (Node.subtrees_trans hm hn)
  mute hs := Node.everywhere_iff.mpr fun m hm =>
    Node.everywhere_iff.mp (h.mute hs) m (Node.subtrees_trans hm hn)
  calls hs g hg := h.calls hs g (Node.callees_subset hn g hg)
  defs hs m hm g body hcaptured _ hpos := by
    change 0 < callWeight root g
    rwa [callWeight, (h.distinct hs).calledBody?_eq (Node.subtrees_trans hm hn) hcaptured]

/-- The code of a subroutine keeps to the course of its group's body. -/
theorem sub_confines (h : Orderly e.program l root s strict)
    (hr : Program.Compiled.Routine e.program l root ⟨e.subject, e.origin, false⟩ r n loops y) :
    let P := subProcedure (course e l root s strict loops) r n y
    (P.rules p).Confines (P.exits p) P.entry p := by
  have hC := h.sound hr.serves strict
  have hbody {x w : Addr} (hat : (course e l root s strict loops).built.NodeAt none n none
      (fun _ => True) ⟨none, 0, r.loops.first⟩ x w) :=
    (hC.node n none (h.knows (Node.calledBody?_mem_subtrees hr.runs)) _ _ _ _ _ hat p).rules_mono
      ((subProcedure (course e l root s strict loops) r n y).rules p) rfl rfl fun _ _ => Or.inl
  have hcode := hr.code fun _ => True
  unfold Built.RoutineAt at hcode
  intro P
  split at hcode
  · exact hbody hcode
  · have hgroup : r.group ≠ 0 := ‹_›
    obtain ⟨w, last, hstart, hat, hend, hlast, rfl⟩ := hcode
    have hnext {a : Addr} {i : Instr} {exits : Addr → Nat → Prop} {q : Nat}
        (hi : e.program.code[a]? = some i) (hsaves : i.Saves r.group) (hcall : ∀ t sub, i ≠ .call t sub)
        (hto : ∀ b z, Leads e i a q b z → b = a + 1 ∧ z = q)
        (hthen : (P.rules p).Confines exits (a + 1) q) : (P.rules p).Confines exits a q :=
      .go (.instr hi (Or.inr ⟨hgroup, hsaves⟩) hcall fun b z hb => by
        obtain ⟨rfl, rfl⟩ := hto b z hb
        exact hthen)
    refine hnext hstart ⟨rfl, rfl⟩ nofun (fun _ _ h => h) ((hbody hat).andThen ?_)
    rintro b q ⟨rfl, hq⟩
    have hthen : (P.rules p).Confines (P.exits p) (b + 1) q := .exit ⟨rfl, hq⟩
    rcases hlast with rfl | rfl
    · exact hnext hend ⟨rfl, rfl⟩ nofun (fun _ _ h => h) hthen
    · exact hnext hend rfl nofun (fun _ _ h => h) hthen

theorem main_confines (h : Orderly e.program l root s strict) :
    ∃ loops y, Serves e.program (course e l root s False loops).built ∧
      e.program.code[y]? = some .accept ∧ ∀ p,
      ((course e l root s False loops).rules root 0 p).Confines
        ((course e l root s False loops).ends y 0 p) 0 p := by
  obtain ⟨loops, y, hB, hy, hmain⟩ := h.compiled.main ⟨e.subject, e.origin, false⟩
  refine ⟨loops, y, hB, hy, fun p => ?_⟩
  have hC := h.sound hB False
  have hnone {w : Nat} : ∀ b q, (course e l root s False loops).ends y w p b q →
      (course e l root s False loops).ends y 0 p b q := fun b q hq => ⟨hq.1, hq.2.none⟩
  dsimp only at hmain
  split at hmain
  · exact (hC.call hmain False.elim).exits_mono hnone
  · obtain ⟨φ, hnode⟩ := hmain fun _ => True
    exact (hC.node root none (h.relax.knows (Node.self_mem_subtrees root)) _ _ _ _ _ hnode p).exits_mono
      hnone

/-- All routines of a program keep to their courses. -/
theorem confined (h : Orderly e.program l root s strict) :
    Procedure.Confined e (IsRoutine e l root s strict) where
  setting P hP q := by cases hP <;> rfl
  confines P hP q := by
    cases hP with
    | sub hr hroutine => exact h.sub_confines hroutine
    | main hy hmain => exact hmain q
  ends P hP q b y i hb hi := by
    cases hP with
    | sub hr hroutine =>
      obtain ⟨rfl, -⟩ := hb
      cases hroutine.ret.symm.trans hi
      exact ⟨fun _ _ => id, nofun⟩
    | main hy hmain =>
      obtain ⟨rfl, -⟩ := hb
      cases hy.symm.trans hi
      exact ⟨fun _ _ => id, nofun⟩
  returns P hP q y hret := by
    cases hP with
    | sub hr hroutine => exact hret.elim id And.right
    | main hy hmain => exact hret
  calls P hP q t x y hends := by
    -- What is called for a group gets as far as its body.
    have hreturns : ∀ loops, (course e l root s strict loops).returns t x y := fun loops g sub hsub ht => by
      obtain ⟨r, hr, rfl⟩ := h.compiled.called g sub hsub
      have hmem := Array.mem_of_getElem? hr
      obtain ⟨n, loops', w, hroutine⟩ := h.compiled.routine hmem ⟨e.subject, e.origin, false⟩
      have hentry : r.entry = t := by
        change (e.program.tables.subroutines[sub]?).elim 0 (·.entry) = t at ht
        rwa [hr] at ht
      obtain ⟨b, -, hpast⟩ := hends _ (.sub hmem hroutine) hentry
      change (course e l root s strict loops).Past (callWeight root r.group) x y
      rw [callWeight, hroutine.runs]
      exact hpast
    cases hP with
    | sub hr hroutine => exact hreturns _
    | @main loops y hy hmain =>
      exact fun g sub hsub ht => ⟨(hreturns loops g sub hsub ht).1, False.elim⟩

/-- What code may do that a call has entered. -/
theorem sub_allows (h : Orderly e.program l root s strict) (hr : r ∈ e.program.tables.subroutines)
    (hreach : Reach e r.entry p a q) (hi : e.program.code[a]? = some i) :
    ∃ n loops, root.calledBody? r.group = some n ∧ loops.size = r.loops.stop ∧
      (i = .ret ∧ (course e l root s strict loops).Past n.info.minChars p q ∨
        (course e l root s strict loops).allows n r.loops.first p i q ∨
        r.group ≠ 0 ∧ i.Saves r.group) := by
  obtain ⟨n, loops, y, hroutine⟩ := h.compiled.routine hr ⟨e.subject, e.origin, false⟩
  refine ⟨n, loops, hroutine.runs, hroutine.stop, ?_⟩
  refine (h.confined.allows (.sub hr hroutine) hreach hi).imp_left ?_
  rintro ⟨rfl, hpast⟩
  exact ⟨Option.some.inj (hi.symm.trans hroutine.ret), hpast⟩

/-- What the main code may do. -/
theorem main_allows (h : Orderly e.program l root s strict) (hreach : Reach e 0 p a q)
    (hi : e.program.code[a]? = some i) :
    i = .accept ∨ ∃ loops, (course e l root s False loops).allows root 0 p i q := by
  obtain ⟨loops, y, -, hy, hmain⟩ := h.main_confines
  refine (h.confined.allows (.main hy hmain) hreach hi).imp ?_ fun hallows => ⟨loops, hallows⟩
  rintro ⟨rfl, -⟩
  exact Option.some.inj (hi.symm.trans hy)

/-- A call enters the code of its subroutine. -/
theorem call_target (h : Orderly e.program l root s strict) {t sub : Nat}
    (hcall : e.program.code[a]? = some (.call t sub))
    (hr : e.program.tables.subroutines[sub]? = some r) : t = r.entry := by
  obtain ⟨raw, hraw, -⟩ := h.compiled.written
  rw [hraw, Array.getElem?_map, Option.map_eq_some_iff] at hcall
  obtain ⟨j, -, hj⟩ := hcall
  cases j with
  | call t' sub' =>
    cases hj
    rw [hr]
    rfl
  | _ => cases hj

/-- What a call has begun changes no groups but those of its subroutine. -/
theorem sub_saves (h : Orderly e.program l root s strict) (hr : r ∈ e.program.tables.subroutines)
    (hreach : Reach e r.entry p a q) (hi : e.program.code[a]? = some i) {g : Nat} (hg : i.Saves g) :
    ∃ n, root.calledBody? r.group = some n ∧ (r.group ≠ 0 ∧ g = r.group ∨ g ∈ n.groupNumbers) := by
  obtain ⟨n, loops, hn, -, ⟨rfl, -⟩ | hallows | ⟨hgroup, hsaves⟩⟩ := h.sub_allows hr hreach hi
  · exact hg.elim
  · refine ⟨n, hn, Or.inr ?_⟩
    cases i with
    | groupStart k undo => exact hg.1 ▸ hallows
    | groupEnd k undo => exact hg.1 ▸ hallows
    | groupEndRecursive k => exact hallows.elim
    | _ => exact hg.elim
  · refine ⟨n, hn, Or.inl ⟨hgroup, ?_⟩⟩
    cases i with
    | groupStart k undo => exact hg.1.symm.trans hsaves.1
    | groupEnd k undo => exact hg.1.symm.trans hsaves.1
    | groupEndRecursive k => exact Eq.trans (Eq.symm hg) hsaves
    | _ => exact hg.elim

/-- What a call has begun changes no groups and loops but those of its subroutine. -/
theorem calls_scoped (h : Orderly e.program l root s strict) : Scoped e := by
  intro a t sub r hcall hr x b y i hreach hi
  obtain rfl := h.call_target hcall hr
  have hmem := Array.mem_of_getElem? hr
  constructor
  · intro g hg
    obtain ⟨n, hn, hin⟩ := h.sub_saves hmem hreach hi hg
    obtain ⟨_, _, _, hroutine⟩ := h.compiled.routine hmem ⟨e.subject, e.origin, false⟩
    rw [hroutine.captures]
    exact mem_groupRange (hin.imp And.right (groupNode_groups hn g))
  · intro id hid
    obtain ⟨n, loops, -, hstop, ⟨rfl, -⟩ | hallows | ⟨-, hsaves⟩⟩ := h.sub_allows hmem hreach hi
    · exact hid.elim
    · cases i with
      | repeatEnter k => exact hid ▸ hstop ▸ hallows
      | repeatNext k => exact hid ▸ hstop ▸ hallows
      | _ => exact hid.elim
    · cases i with
      | repeatEnter k => exact hsaves.elim
      | repeatNext k => exact hsaves.elim
      | _ => exact hid.elim

/-- What a call has begun makes the calls of the body of its group. -/
theorem sub_calls (h : Orderly e.program l root s strict) (hr : r ∈ e.program.tables.subroutines)
    (hreach : Reach e r.entry p a q) {t sub : Nat} (hcall : e.program.code[a]? = some (.call t sub)) :
    ∃ n g, root.calledBody? r.group = some n ∧ (l.subroutines[g]?).join = some sub ∧
      (strict → n.Meets p g q) := by
  obtain ⟨n, loops, hn, -, ⟨hret, -⟩ | ⟨g, hsub, hmeets⟩ | ⟨-, hsaves⟩⟩ := h.sub_allows hr hreach hcall
  · cases hret
  · exact ⟨n, g, hn, hsub, hmeets⟩
  · exact hsaves.elim

end Orderly
end Machine

/-- Programs of patterns are orderly, and what is called in them is restored. -/
theorem Compilation.ofTree_orderly {s : Pattern.Setting} {o : Options} {t : PatternTree Span}
    {p : Program} (h : (Compilation.ofTree s o t).1 = .ok p)
    (ht : ∀ g ∈ t.root.groupNumbers, 0 < g ∧ g ≤ t.captures) (hseparate : t.root.Separate)
    (hordered : t.root.Ordered) :
    ∃ a scale, Analyzed.ofTree s.dialect s.encoding t = .ok a ∧
      Orderly p (patternLayout a s o) a.tree.root scale False ∧
      ∀ r ∈ p.tables.subroutines, ∀ body, a.tree.root.calledBody? r.group = some body →
        ∀ g, (r.group ≠ 0 ∧ g = r.group ∨ g ∈ body.groupNumbers) → p.Restores g := by
  obtain ⟨a, ha, hp⟩ := ofTree_layout h ht hseparate
  obtain ⟨i, i', htidy, -⟩ := ofTree_tidy h ha
  obtain ⟨scale, -, -, hweighed⟩ := Analyzed.ofTree_weighed ha
  exact ⟨a, scale, ha, ⟨hp, fun _ _ _ _ _ => htidy.unique, hweighed, Analyzed.ofTree_ordered ha hordered,
    False.elim, False.elim, False.elim⟩, fun r hr body hbody g => sub_restores h ha hr hbody⟩

end RegexMachine
