import RegexMachine.Proofs.GuardedSearches
import RegexMachine.Proofs.OrderlyCode
import RegexMachine.Proofs.Routines
import RegexMachine.Proofs.Separation

/-!
Compiled programs are in order. Each of their instructions lies in the main code or in a subroutine,
and so the plain loop can stand for every instruction that takes any characters in one step.
-/
namespace RegexMachine
open Compile Machine

variable {p : Program} {l : Layout} {root : Node Measured} {g : CallGraph} {x y : Nat}

/-! ## Subroutines side by side -/

/-- The code of a called group stands between two addresses, and a return after it. -/
def Compile.BodyAt (root : Node Measured) (g : CallGraph) (l : Layout) (code : Chunk)
    (loops : Array CountedLoop) (x y : Nat) : Prop :=
  l.guardDepth = 0 ∧ ∃ group i i' body,
    groupBody root g group (.start x) l i = .ok body i' ∧ y = x + body.size ∧
    (∀ k instr, (body.push .ret)[k]? = some instr → code[x + k]? = some instr) ∧
    ∀ id < i'.loops.size, loops[id]? = i'.loops[id]?

theorem Compile.BodyAt.append {code : Chunk} {i i' : Issued}
    (h : BodyAt root g l code i.loops x y) (more : Chunk) (hgrow : i.Grows i') :
    BodyAt root g l (code ++ more) i'.loops x y := by
  obtain ⟨hbare, group, j, j', body, hbody, hy, hstands, hloops⟩ := h
  refine ⟨hbare, group, j, j', body, hbody, hy, fun k instr hk => ?_, fun id hid => ?_⟩
  · have := hstands k instr hk
    rwa [Array.getElem?_append_left (Array.getElem?_eq_some_iff.mp this).1]
  · have hsame := hloops id hid
    have hlt : id < i.loops.size := by
      rw [Array.getElem?_eq_getElem hid] at hsame
      exact (Array.getElem?_eq_some_iff.mp hsame).1
    rw [hgrow.loops id hlt, hsame]

theorem Compile.Written.body {code : Chunk} {loops : Array CountedLoop} {r : Subroutine}
    (h : Written root g l code loops r) (hbare : l.guardDepth = 0) :
    ∃ y, BodyAt root g l code loops r.entry y := by
  obtain ⟨i, i', body, hbody, hstands, -, -, -, -, hloops⟩ := h
  exact ⟨_, hbare, r.group, i, i', body, hbody, rfl, hstands, hloops⟩

theorem Compile.addSubroutine_body (hbare : l.guardDepth = 0) {code code' : Chunk} {group : Nat}
    {r : Subroutine} {i i' : Issued}
    (h : addSubroutine root g code group l i = .ok (code', r) i') :
    ∃ y, BodyAt root g l code' i'.loops code.size y ∧ code'.size = y + 1 := by
  unfold addSubroutine at h
  rw [bind_get] at h
  obtain ⟨body, j, hbody, h⟩ := bind_ok h
  rw [bind_get] at h
  split at h
  · cases h
  · cases h
    refine ⟨code.size + body.size, ⟨hbare, group, i, i', body, hbody, rfl, fun k instr hk => ?_,
      fun _ _ => rfl⟩, ?_⟩
    · rw [Array.append_assoc, Array.getElem?_append_right (Nat.le_add_right _ _),
        Nat.add_sub_cancel_left]
      simpa using hk
    · simp
      omega

/-- Subroutines fill the code from where the first one was added. -/
theorem Compile.addSubroutines_fill {called : List Nat} (hs : called ≠ [] → l.guardDepth = 0)
    {code code' : Chunk} {subs subs' : Array Subroutine} {i i' : Issued}
    (h : addSubroutines root g code subs called l i = .ok (code', subs') i') (k : Nat)
    (hle : code.size ≤ k) (hlt : k < code'.size) :
    ∃ x y, BodyAt root g l code' i'.loops x y ∧ x ≤ k ∧ k ≤ y := by
  induction called generalizing code subs i with
  | nil =>
    cases h
    omega
  | cons group rest ih =>
    obtain ⟨⟨code₁, r⟩, j, hadd, h⟩ := bind_ok h
    obtain ⟨y, hbody, hsize⟩ := addSubroutine_body (hs (by simp)) hadd
    obtain ⟨hgrow, ⟨more, rfl⟩, -⟩ := addSubroutines_ok (fun _ => hs (by simp)) h
    by_cases hk : k < code₁.size
    · exact ⟨code.size, y, hbody.append more hgrow, hle, by omega⟩
    · exact ih (fun _ => hs (by simp)) h (by omega)

/-! ## Programs -/

namespace Program.Compiled

/-- A tree that was written for this program. -/
theorem tree_orderly (hp : p.Compiled l root) (hmarks : p.MarksApart) {n : Node Measured}
    (hsparing : l.guardDepth = 0 ∨ n.guardable = true) {place : Place} {i i' : Issued}
    {chunk : Chunk} (hcode : nodeCode none place n l i = .ok chunk i')
    (hloops : ∀ id < i'.loops.size, p.tables.loops[id]? = i'.loops[id]?) {sc : Scene}
    (hplaced : (⟨p.code, i'.loops, p.tables.subroutines, l, sc⟩ : Built).Placed place.base chunk)
    (hend : p.IsOpen (place.base + chunk.size)) :
    p.IsOpen place.base ∧
      (p.OpensRoutines → p.OrderlyIn place.base (place.base + chunk.size)) := by
  let B : Built := ⟨p.code, i'.loops, p.tables.subroutines, l, sc⟩
  obtain ⟨-, hspell⟩ := Built.nodeCode_writes B n none hsparing _ _ _ _ hcode
  obtain ⟨found, hfound⟩ := hspell hplaced (fun _ _ _ => rfl) fun _ => True
  have hat := hfound (some found) (Or.inr ⟨found, rfl, fun _ _ _ => rfl⟩)
    ⟨place.within, 0, 0⟩ ⟨rfl, Nat.zero_le _, Nat.zero_le _⟩
  have hsits := Sits.node (hp.serves hloops sc) hmarks n none
  exact ⟨hsits.opens hat hend, fun hr => hsits.orderly hr hat hend (faces_none _)⟩

theorem body_orderly (hp : p.Compiled l root) (hmarks : p.MarksApart) {raw : Chunk}
    (hraw : p.code = raw.map (link p.tables.subroutines))
    (h : BodyAt root l.calls l raw p.tables.loops x y) :
    p.IsOpen x ∧ (p.OpensRoutines → p.OrderlyIn x (y + 1)) := by
  obtain ⟨hbare, group, i, i', chunk, hbody, rfl, hstands, hloops⟩ := h
  let B : Built :=
    ⟨p.code, i'.loops, p.tables.subroutines, l, ⟨⟨#[], l.encoding, false, false⟩, 0, false⟩⟩
  rw [← Array.append_singleton] at hstands
  obtain ⟨hplaced, hret⟩ := (placed_of_stands l hraw hstands i'.loops _ : B.Placed _ _).append
  have hret : p.code[x + chunk.size]? = some .ret := hret.instr rfl rfl
  obtain ⟨body, -, hcode⟩ := groupBody_ok hbody
  split at hcode
  · obtain ⟨hopen, hin⟩ := hp.tree_orderly hmarks (Or.inl hbare) hcode hloops hplaced
      (isOpen_of_instr hret rfl)
    exact ⟨hopen, fun hr => (hin hr).append (.plain hret rfl)⟩
  · obtain ⟨code, last, hcode, rfl, hlast⟩ := hcode
    obtain ⟨hplain, hseals, hlink⟩ : last.leadsOn = true ∧ last.seals = false ∧
        ∀ subs, link subs last = last := by
      rcases hlast with rfl | rfl <;> exact ⟨rfl, rfl, fun _ => rfl⟩
    obtain ⟨hplaced, hclose⟩ := hplaced.append
    obtain ⟨hstart, hplaced⟩ := hplaced.append
    have hstart : p.code[x]? = some (.groupStart group true) := hstart.instr rfl rfl
    have hclose : p.code[x + 1 + code.size]? = some last := hclose.instr (by grind) (hlink _)
    have hsize : x + (#[Instr.groupStart group true] ++ code ++ #[last]).size =
        x + 1 + code.size + 1 := by grind
    rw [hsize] at hret ⊢
    obtain ⟨-, hin⟩ := hp.tree_orderly hmarks (Or.inl hbare) hcode hloops (hplaced.moved rfl)
      (isOpen_of_instr hclose hseals)
    exact ⟨isOpen_of_instr hstart rfl, fun hr => (((OrderlyIn.plain hstart rfl).append
      (hin hr)).append (.plain hclose hplain)).append (.plain hret rfl)⟩

/-- The main code up to the end of the match. -/
theorem main_orderly (hp : p.Compiled l root) (hmarks : p.MarksApart) {raw : Chunk}
    (hraw : p.code = raw.map (link p.tables.subroutines)) {i i' : Issued} {main : Chunk}
    (hmain : (if l.calls.isCalled 0 then callCode 0 else nodeCode none (Place.start 0) root) l i =
      .ok main i')
    (hstands : ∀ (k : Nat) instr, (main.push .accept)[k]? = some instr → raw[k]? = some instr)
    (hloops : ∀ id < i'.loops.size, p.tables.loops[id]? = i'.loops[id]?) :
    p.IsOpen 0 ∧ (p.OpensRoutines → p.OrderlyIn 0 (main.size + 1)) := by
  let B : Built :=
    ⟨p.code, i'.loops, p.tables.subroutines, l, ⟨⟨#[], l.encoding, false, false⟩, 0, false⟩⟩
  rw [← Array.append_singleton] at hstands
  have hstands' : ∀ k instr, (main ++ #[.accept])[k]? = some instr → raw[0 + k]? = some instr := by
    simpa using hstands
  obtain ⟨hplaced, hend⟩ := (placed_of_stands l hraw hstands' i'.loops _ : B.Placed _ _).append
  rw [Nat.zero_add] at hend
  have hend : p.code[main.size]? = some .accept := hend.instr rfl rfl
  split at hmain
  · have hcall := (Built.callCode_at (B := B) (x := 0) hmain).2 hplaced
    have hsits : p.Sits none fun _ _ _ => B.CallAt 0 := Sits.call (hp.serves hloops _) 0
    have hopen : p.IsOpen (0 + main.size) := by
      rw [Nat.zero_add]
      exact isOpen_of_instr hend rfl
    refine ⟨@Sits.opens _ _ _ hsits none (fun _ => True) ⟨none, 0, 0⟩ _ _ hcall hopen,
      fun hr => ?_⟩
    have hin := @Sits.orderly _ _ _ hsits hr none (fun _ => True) ⟨none, 0, 0⟩ _ _ hcall hopen
      (faces_none _)
    rw [Nat.zero_add] at hin
    exact hin.append (.plain hend rfl)
  · have hopen : p.IsOpen ((Place.start 0).base + main.size) := by
      rw [Place.start, Nat.zero_add]
      exact isOpen_of_instr hend rfl
    obtain ⟨hbegin, hin⟩ := hp.tree_orderly hmarks hp.sparing hmain hloops hplaced hopen
    refine ⟨hbegin, fun hr => ?_⟩
    have hin := hin hr
    rw [Place.start, Nat.zero_add] at hin
    exact hin.append (.plain hend rfl)

end Program.Compiled

/-- Every instruction of a compiled program is in order. -/
theorem Compilation.ofTree_inPlace {s : Pattern.Setting} {o : Options} {t : PatternTree Span}
    {p : Program} (h : (Compilation.ofTree s o t).1 = .ok p)
    (ht : ∀ g ∈ t.root.groupNumbers, 0 < g ∧ g ≤ t.captures) (hseparate : t.root.Separate)
    {x : Nat} {i : Instr} (hi : p.code[x]? = some i) : p.Orderly x i := by
  obtain ⟨a, ha, hp⟩ := ofTree_layout h ht hseparate
  obtain ⟨a', code, tables, ha', hgen, -, rfl⟩ := ofTree_ok h
  obtain rfl : a = a' := Except.ok.inj (ha.symm.trans ha')
  obtain ⟨subs, issued, hcode, rfl⟩ := generate_ok hgen
  have hmarked := programCode_marked hcode
  obtain ⟨main, j, raw, hmain, hsubs, rfl⟩ := programCode_parts hcode
  let p : Program := ⟨raw.map (link subs), tablesOf a subs issued o s.encoding, s.encoding⟩
  let l := patternLayout a s o
  have hmarks : p.MarksApart := hmarked.apart
  have hraw : p.code = raw.map (link p.tables.subroutines) := rfl
  have hbare : calledGroups a.calls ≠ [] → l.guardDepth = 0 := fun hne =>
    layoutOf_bare ha (isCalled_of_mem (List.head_mem hne)) _ _ _ _
  have hfill := addSubroutines_fill hbare hsubs
  obtain ⟨hgrow, ⟨more, hmore⟩, new, hnew, hgroups, hall⟩ := addSubroutines_ok hbare hsubs
  obtain rfl : subs.toList = new := hnew
  have hstands : ∀ (k : Nat) instr, (main.push .accept)[k]? = some instr →
      raw[k]? = some instr := fun k instr hk => by
    rwa [hmore, Array.getElem?_append_left (Array.getElem?_eq_some_iff.mp hk).1]
  obtain ⟨hbegin, hmain⟩ := hp.main_orderly (p := p) hmarks hraw hmain hstands hgrow.loops
  have hr : p.OpensRoutines := by
    refine ⟨hbegin, fun r hr => ?_⟩
    have hmem : r ∈ subs.toList := Array.mem_toList_iff.mpr hr
    have hne : calledGroups a.calls ≠ [] := fun hnil => by
      rw [hnil, List.map_eq_nil_iff] at hgroups
      rw [hgroups] at hmem
      cases hmem
    obtain ⟨y, hbody⟩ := (hall r hmem).body (hbare hne)
    exact (hp.body_orderly (p := p) hmarks hraw hbody).1
  have hlt : x < raw.size := by
    simpa using (Array.getElem?_eq_some_iff.mp hi).1
  by_cases hx : x < main.size + 1
  · exact hmain hr x i (Nat.zero_le x) hx hi
  · obtain ⟨u, v, hbody, hle, hge⟩ := hfill x (by simpa using hx) hlt
    exact (hp.body_orderly (p := p) hmarks hraw hbody).2 hr x i hle (Nat.lt_succ_of_le hge) hi

/-- In a compiled program the plain loop can stand for every instruction that takes any characters in
one step. -/
theorem Sweep.fits_of_compiled {w : Sweep} {setting : Pattern.Setting} {options : Options}
    {properties : PropertyRegistry}
    (hprogram : (Compilation.ofPattern setting options properties).result = .ok w.program)
    (hhere : w.program.code[w.place]? = some w.instr) : w.Fits := by
  obtain ⟨o, t, -, hparse, htree⟩ := Compilation.ofPattern_ok hprogram
  have horderly {x : Nat} {i : Instr} (hi : w.program.code[x]? = some i) : w.program.Orderly x i :=
    Compilation.ofTree_inPlace htree (Pattern.parse_groupNumbers hparse)
      (Pattern.parse_separate hparse) hi
  refine ⟨hhere, fun x check captures hi hx => ?_, fun b hb => ?_, fun _ => ?_⟩
  · obtain ⟨-, i, hnext, hback⟩ := horderly hi
    rw [hx, hhere] at hnext
    obtain rfl := Option.some.inj hnext
    unfold instr at hback
    split at hback <;> cases hback
  · have hnext := horderly hhere
    unfold instr at hnext
    rw [hb] at hnext
    exact hnext b rfl
  · exact {
      drop := fun x hi => horderly hi
      look := fun x mark hi => horderly hi
      target := fun x i a hi ha => by
        have h := horderly hi
        cases i <;> first | exact h.1 a ha | cases ha
      loop := fun x i id l hi hid hl => by
        have h := horderly hi
        cases i <;> first | exact h.2 id l hid hl | cases hid
      skip := fun x check captures hi => (horderly hi).1 }

end RegexMachine
