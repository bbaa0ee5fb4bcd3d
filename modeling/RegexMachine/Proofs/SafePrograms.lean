import RegexMachine.Proofs.Routines

/-!
Compiled programs are safe: whatever a run meets, it finds what it needs, and every match that it
ends with is an extent of the pattern.
-/
namespace RegexMachine
open Compile

/-- What the extents of a tree depend on when a program is run. -/
def Compile.Layout.reading (l : Layout) (e : Machine.Setting) : Reading :=
  ⟨e.subject, e.origin, l.encoding, l.calls.isCalled⟩

/-- The extents of a pattern from a start on. -/
def Machine.matchExtent (l : Layout) (root : Node Measured) (e : Machine.Setting) : Extent :=
  (l.reading e).extent ((l.reading e).callExtent root.calledBody?) root

namespace Machine

variable {p : Program} {l : Layout} {root : Node Measured} {e : Setting}

/-- A match begins and ends where the pattern can match. -/
def Matches (l : Layout) (root : Node Measured) (e : Setting) (c : View) : Prop :=
  matchExtent l root e c.start c.pos

theorem Matches.le {c : View} (h : Matches l root e c) : c.start ≤ c.pos :=
  ((l.reading e).extent_onward (fun _ _ _ => Reading.callExtent_onward) root _ _ h).1

variable {Goal : Setting → View → Prop} {N : Nat}

/-- Groups that backtracking restores. -/
abbrev Undoes (l : Layout) (g : Nat) : Prop := l.undone.getD g true = true

/-- The groups of a subroutine are in its range, its own among them. -/
theorem Routine.entered {sc : Scene} {r : Subroutine} {n : Node Measured} {loops : Array CountedLoop}
    {y : Addr} (h : Program.Compiled.Routine p l root sc r n loops y) :
    ∀ g, g = r.group ∨ g ∈ n.groupNumbers → g ∈ r.captures.toList := by
  intro g hg
  rw [h.captures]
  exact mem_groupRange (hg.imp id (groupNode_groups h.runs g))

/-- The body of a group that is called stands apart, also from the group itself. -/
theorem called_apart (hp : p.Compiled l root) {g : Nat} {n : Node Measured}
    (hn : root.calledBody? g = some n) : n.Apart ∧ (g ≠ 0 → g ∉ n.groupNumbers) := by
  rcases Node.calledBody?_mem hn with ⟨rfl, rfl⟩ | ⟨-, m, hm, hcaptured⟩
  · exact ⟨hp.apart, fun h => absurd rfl h⟩
  · have hmapart : m.Apart := hp.apart.subtree hm
    obtain ⟨note, name, rfl⟩ := Node.captured?_some hcaptured
    exact ⟨hmapart.child (List.mem_singleton.mpr rfl), fun _ => Node.isApart_capture.mp hmapart.self⟩

/-- A subroutine is safe for a step more than those that it calls. -/
theorem written_returns (hp : p.Compiled l root) (he : e.program = p) {r : Subroutine}
    (hr : r ∈ p.tables.subroutines) {calls : Setting → Nat → Extent} (honward : Forward calls)
    (hcalls : ∀ sc loops, Callable Goal N p ⟨p.code, loops, p.tables.subroutines, l, sc⟩ calls) :
    ∃ body, root.calledBody? r.group = some body ∧
      Returns Goal N e (Undoes l) r ((l.reading e).extent (calls e) body) := by
  obtain ⟨n, loops, y, hr'⟩ := hp.routine hr ⟨e.subject, e.origin, false⟩
  let B : Built := ⟨p.code, loops, p.tables.subroutines, l, ⟨e.subject, e.origin, false⟩⟩
  have hz : Zone.Ok ⟨none, 0, r.loops.first⟩ := nofun
  refine ⟨n, hr'.runs, he ▸ hr'.fits, y, he ▸ hr'.ret, fun u hu hloose hentered => ?_⟩
  obtain ⟨hapart, hself⟩ := called_apart hp hr'.runs
  obtain ⟨hgroup, hrestored⟩ := hp.restored r hr n hr'.runs
  have hheld : u.Holds B.layout.undone n.groupNumbers :=
    ⟨fun g hg => Bool.eq_false_iff.mpr fun h => hloose g h hg, fun g hg => hloose g (hrestored g hg),
      fun g hg => hentered g (Routine.entered hr' g (Or.inr hg))⟩
  have htree : ∀ v : Scope, v.loops = r.loops.stop → v.Holds l.undone n.groupNumbers →
      Solid Goal N e v v.loose (B.NodeAt none n) ((l.reading e).extent (calls e) n) := fun v hv hheld =>
    (node_sound hr'.serves (hcalls _ _) honward n false none (.of_marked hrestored) hapart).still hrestored he
      (hv.trans hr'.stop.symm) hheld
  have hcode := hr'.code fun _ => True
  unfold Built.RoutineAt at hcode
  split at hcode
  · exact htree u hu hheld none _ _ _ _ hz hcode
  · rename_i hne
    obtain ⟨w, last, hstart, hbody, hend, hlast, rfl⟩ := hcode
    subst he
    have hfree := hloose r.group (hgroup hne)
    have hopened := hentered r.group (Routine.entered hr' _ (Or.inl rfl))
    have hin : (u.without r.group hfree).Holds l.undone n.groupNumbers :=
      Scope.Holds.without ⟨hheld.restored, List.forall_mem_cons.mpr ⟨hfree, hheld.apart⟩,
        List.forall_mem_cons.mpr ⟨hopened, hheld.entered⟩⟩ (hself hne) hfree
    exact sure_grouped true hz (Nat.lt_succ_of_le (hp.group r hr)) hstart hend
      (by rcases hlast with rfl | rfl <;> rfl) (fun _ => by rcases hlast with rfl | rfl <;> rfl)
      (fun p q h => ((l.reading e).extent_onward (honward e) n p q h).1) hfree
      hopened (Scope.admits_loose _) (fun _ h => h) nofun
      (htree (u.without r.group hfree) hu hin none _ _ _ _ hz hbody)

/-- All subroutines are safe for any number of steps. -/
theorem subroutine_returns (hp : p.Compiled l root) (N : Nat) :
    ∀ r ∈ p.tables.subroutines, ∀ e : Setting, e.program = p →
      Returns Goal N e (Undoes l) r ((l.reading e).callExtent root.calledBody? r.group) := by
  induction N using Nat.strongRecOn with
  | ind N ih =>
    intro r hr e he
    -- What is called has fewer steps.
    have hcalls : ∀ sc loops, Callable Goal N p ⟨p.code, loops, p.tables.subroutines, l, sc⟩
        fun e => (l.reading e).callExtent root.calledBody? := fun sc loops g sub hsub => by
      obtain ⟨r', hr', rfl⟩ := hp.called g sub hsub
      exact ⟨r', hr', fun m hm e he => ih m hm r' (Array.mem_of_getElem? hr') e he⟩
    obtain ⟨body, hbody, hfits, y, hret, hsure⟩ := written_returns hp he hr
      (fun _ _ _ _ => Reading.callExtent_onward) hcalls
    exact ⟨hfits, y, hret, fun u hu hloose hentered => (hsure u hu hloose hentered).weaken
      fun _ _ => Reading.callExtent_of_body hbody⟩

theorem compiled_callable (hp : p.Compiled l root) (loops : Array CountedLoop) (sc : Scene) :
    Callable Goal N p ⟨p.code, loops, p.tables.subroutines, l, sc⟩ fun e =>
      (l.reading e).callExtent root.calledBody? := fun g sub hsub => by
  obtain ⟨r, hr, rfl⟩ := hp.called g sub hsub
  exact ⟨r, hr, fun m _ e he => subroutine_returns hp m r (Array.mem_of_getElem? hr) e he⟩

/-- The main code is safe from its beginning to the end of the match, whatever is loose before it. -/
theorem main_sure (hp : p.Compiled l root) (he : e.program = p) :
    ∃ φ y u L, e.program.code[y]? = some .accept ∧
      Sure Goal N e u L φ ⟨none, 0, 0⟩ 0 y (matchExtent l root e) := by
  obtain ⟨loops, y, hB, haccept, hmain⟩ := hp.main ⟨e.subject, e.origin, false⟩
  have hcallable : Callable Goal N p _ _ := compiled_callable hp loops ⟨e.subject, e.origin, false⟩
  let u : Scope := ⟨loops.size, fun _ => False, fun _ => True, fun _ h => h.elim⟩
  have hnone : ∀ g, u.loose g → l.undone.getD g true = false := fun _ h => h.elim
  dsimp only at hmain
  split at hmain
  · refine ⟨none, y, u, u.loose, he ▸ haccept, ?_⟩
    refine (call_sound hB hcallable he hnone hmain).weaken fun q r hqr => ?_
    obtain ⟨n, hn, h⟩ := Reading.callExtent_body hqr
    obtain rfl : root = n := Option.some.inj hn
    exact h
  · obtain ⟨φ, hnode⟩ := hmain fun _ => True
    exact ⟨φ, y, u, _, he ▸ haccept, node_sound hB hcallable (fun _ _ _ _ => Reading.callExtent_onward)
      root _ none hp.secure hp.apart e u he rfl ⟨hnone, fun _ _ h => h, fun _ _ => trivial⟩ _ _ _ _ _ nofun hnode⟩

end Machine
end RegexMachine
