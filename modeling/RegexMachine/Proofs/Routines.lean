import RegexMachine.Proofs.SafeTrees
import RegexMachine.Proofs.Subroutines

/-!
Where the routines of a program stand: the main code up to the end of the match, and for every group
that is called its body up to a return.
-/
namespace RegexMachine
open Compile Machine

/-- The code of a group that is called: its body, with the group opened before it and closed after it
unless it is the whole pattern. -/
def Built.RoutineAt (B : Built) (group : Nat) (body : Part) : Part := fun φ later z x y =>
  if group = 0 then body φ later z x y
  else ∃ w last, B.code[x]? = some (.groupStart group true) ∧ body φ later z (x + 1) w ∧
    B.code[w]? = some last ∧ (last = .groupEnd group true ∨ last = .groupEndRecursive group) ∧
    y = w + 1

variable {p : Program} {l : Layout} {root : Node Measured}

/-- Chunks whose loops the program has are served by it. -/
theorem Program.Compiled.serves (hp : p.Compiled l root) {loops : Array CountedLoop}
    (hloops : ∀ id < loops.size, p.tables.loops[id]? = loops[id]?) (sc : Scene) :
    Serves p ⟨p.code, loops, p.tables.subroutines, l, sc⟩ where
  code := rfl
  subs := rfl
  loops id _ hid := (hloops id (Array.getElem?_eq_some_iff.mp hid).1).trans hid
  groups _ _ _ hi := Program.group_lt hp.verified hi

/-- Instructions of a chunk stand in the linked code. -/
theorem placed_of_stands (l : Layout) {raw : Chunk} (hraw : p.code = raw.map (link p.tables.subroutines))
    {x : Addr} {chunk more : Chunk}
    (h : ∀ k instr, (chunk ++ more)[k]? = some instr → raw[x + k]? = some instr)
    (loops : Array CountedLoop) (sc : Scene) :
    (⟨p.code, loops, p.tables.subroutines, l, sc⟩ : Built).Placed x (chunk ++ more) := by
  intro k i hk
  change p.code[x + k]? = _
  rw [hraw, Array.getElem?_map, h k i hk]
  rfl

namespace Program.Compiled

/-- What is known of a subroutine: what it runs, its groups and loops, and where its code stands. -/
structure Routine (p : Program) (l : Layout) (root : Node Measured) (sc : Scene) (r : Subroutine)
    (n : Node Measured) (loops : Array CountedLoop) (y : Addr) : Prop where
  runs : root.calledBody? r.group = some n
  serves : Serves p ⟨p.code, loops, p.tables.subroutines, l, sc⟩
  stop : loops.size = r.loops.stop
  fits : r.Fits p.tables
  captures : r.captures = groupRange (groupNode root r.group) r.group
  ret : p.code[y]? = some .ret
  code : ∀ later, let B : Built := ⟨p.code, loops, p.tables.subroutines, l, sc⟩
    B.RoutineAt r.group (B.NodeAt none n) none later ⟨none, 0, r.loops.first⟩ r.entry y

theorem routine (hp : p.Compiled l root) {r : Subroutine} (hr : r ∈ p.tables.subroutines)
    (sc : Scene) : ∃ n loops y, Routine p l root sc r n loops y := by
  obtain ⟨raw, hraw, hwritten, -⟩ := hp.written
  obtain ⟨i, i', chunk, hbody, hstands, hcaptures, hrange, hle, hsize, hloops⟩ := hwritten r hr
  let B : Built := ⟨p.code, i'.loops, p.tables.subroutines, l, sc⟩
  have hbare : B.layout.guardDepth = 0 := hp.bare r hr
  have hfirst : r.loops.first = i.loops.size := by rw [hrange]
  have hstop : B.loops.size = r.loops.stop := by rw [hrange]
  have hfits : r.Fits p.tables := by
    refine ⟨?_, by rwa [hfirst, ← hstop], by rwa [← hstop]⟩
    rw [hcaptures]
    exact groupRange_stop (hp.group r hr) fun k hk => (hp.numbers k (groupNode_subset k hk)).2
  rw [← Array.append_singleton] at hstands
  obtain ⟨hplaced, hend⟩ := (placed_of_stands l hraw hstands i'.loops sc : B.Placed _ _).append
  obtain ⟨body, hfind, hcode⟩ := groupBody_ok hbody
  refine ⟨body, i'.loops, r.entry + chunk.size, hfind, hp.serves hloops sc, hstop, hfits, hcaptures,
    hend.instr rfl rfl, fun later => ?_⟩
  -- A tree that was written where the loops of the subroutine begin.
  have htree {place : Place} {code : Chunk} (hin : place.within = none)
      (hwrote : nodeCode none place body l i = .ok code i') (hat : B.Placed place.base code) :
      B.NodeAt none body none later ⟨none, 0, r.loops.first⟩ place.base (place.base + code.size) := by
    obtain ⟨-, hspell⟩ := Built.nodeCode_writes B body none (Or.inl hbare) _ _ _ _ hwrote
    obtain ⟨found, hfound⟩ := hspell hat (fun _ _ _ => rfl) later
    exact hfound none (Or.inl ⟨rfl, hbare⟩) ⟨none, 0, r.loops.first⟩
      ⟨hin.symm, Nat.zero_le _, Nat.le_of_eq hfirst⟩
  unfold Built.RoutineAt
  split at hcode
  · rw [if_pos ‹_›]
    exact htree rfl hcode hplaced
  · rw [if_neg ‹_›]
    obtain ⟨code, last, hcode, rfl, hlast⟩ := hcode
    obtain ⟨hplaced, hclose⟩ := hplaced.append
    obtain ⟨hopen, hinside⟩ := hplaced.append
    have hclosed : B.code[r.entry + 1 + code.size]? = some last := by
      refine hclose.instr (by grind) ?_
      rcases hlast with rfl | rfl <;> rfl
    exact ⟨r.entry + 1 + code.size, last, hopen.instr rfl rfl, htree rfl hcode (hinside.moved rfl),
      hclosed, hlast, by grind⟩

/-- The main code: the whole pattern, or a call of it. -/
theorem main (hp : p.Compiled l root) (sc : Scene) :
    ∃ loops y, Serves p ⟨p.code, loops, p.tables.subroutines, l, sc⟩ ∧ p.code[y]? = some .accept ∧
      let B : Built := ⟨p.code, loops, p.tables.subroutines, l, sc⟩
      if l.calls.isCalled 0 then B.CallAt 0 0 y
      else ∀ later, ∃ φ, B.NodeAt none root φ later ⟨none, 0, 0⟩ 0 y := by
  obtain ⟨raw, hraw, -, i, i', main, hstart, -, hmain, hstands, -, hloops⟩ := hp.written
  let B : Built := ⟨p.code, i'.loops, p.tables.subroutines, l, sc⟩
  rw [← Array.append_singleton] at hstands
  have hstands' : ∀ k instr, (main ++ #[.accept])[k]? = some instr → raw[0 + k]? = some instr := by
    simpa using hstands
  obtain ⟨hplaced, hend⟩ := (placed_of_stands l hraw hstands' i'.loops sc : B.Placed _ _).append
  refine ⟨i'.loops, 0 + main.size, hp.serves hloops sc, hend.instr rfl rfl, ?_⟩
  dsimp only
  split at hmain
  · rw [if_pos ‹_›]
    exact (Built.callCode_at (B := B) (x := 0) hmain).2 hplaced
  · rw [if_neg ‹_›]
    intro later
    obtain ⟨-, hspell⟩ := Built.nodeCode_writes B root none hp.sparing _ _ _ _ hmain
    obtain ⟨found, hfound⟩ := hspell hplaced (fun _ _ _ => rfl) later
    exact ⟨some found, hfound (some found) (Or.inr ⟨found, rfl, fun _ _ _ => rfl⟩) ⟨none, 0, 0⟩
      ⟨rfl, Nat.zero_le _, Nat.zero_le _⟩⟩

end Program.Compiled
end RegexMachine
