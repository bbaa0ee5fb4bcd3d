import RegexMachine.Proofs.ValidCode

/-!
Programs are valid as they are put together: the main code ends with the end of the match, each
subroutine with a return, and calls lead to the beginnings of subroutines.
-/
namespace RegexMachine
open Compile

namespace Compile

variable {r : Supply} {l : Layout} {i j k i' : Issued} {x : Addr} {code chunk : Chunk}
  {root : Node Measured} {g : CallGraph}

/-! ## Subroutines -/

theorem Fit.subtree {n m : Node Measured} (h : Fit r l n) (hm : m ∈ n.subtrees) : Fit r l m :=
  fun k hk => h k (Node.subtrees_trans hk hm)

/-- What a call of a group can run: the whole pattern, or a group of the pattern. -/
def Callable (r : Supply) (root : Node Measured) (group : Nat) : Prop :=
  group = 0 ∨ (r.HasGroup group ∧ group ∈ root.groupNumbers)

/-- A group of a tree has a first definition. -/
theorem exists_definition {group : Nat} (h : group ∈ root.groupNumbers) :
    ∃ found, root.subtrees.findSome? (fun n => n.captured?.filter (·.1 == group)) = some found := by
  cases hfind : root.subtrees.findSome? fun n => n.captured?.filter (·.1 == group) with
  | some found => exact ⟨found, rfl⟩
  | none =>
    obtain ⟨m, hm, body, hcaptured⟩ := Node.exists_captured h
    have hnone := (Array.findSome?_eq_none_iff.mp hfind) m hm
    rw [hcaptured, Option.filter_some, if_pos (by simp)] at hnone
    cases hnone

/-- What can be called has a body. -/
theorem Callable.body {group : Nat} (h : Callable r root group) :
    ∃ body, root.calledBody? group = some body := by
  unfold Node.calledBody?
  split
  · exact ⟨root, rfl⟩
  · obtain ⟨found, hfind⟩ := exists_definition (h.resolve_left ‹_›).2
    exact ⟨found.2, by rw [hfind]; rfl⟩

theorem groupBody_sound {group : Nat} (hfit : Fit r l root) (hgroup : Callable r root group) :
    Sound r l (groupBody root g group) := by
  intro p i hp
  unfold groupBody
  by_cases hzero : group = 0
  · rw [if_pos hzero]
    exact nodeCode_sound hfit none p i hp
  · obtain ⟨hexists, hmem⟩ := hgroup.resolve_left hzero
    rw [if_neg hzero]
    obtain ⟨found, hfind⟩ := exists_definition hmem
    obtain ⟨m, hm, hcaptured⟩ := Array.exists_of_findSome?_eq_some hfind
    obtain ⟨hcaptured, -⟩ := Option.filter_eq_some_iff.mp hcaptured
    have hbody : Fit r l found.2 := (hfit.subtree hm).child (Node.captured?_child hcaptured)
    rw [hfind]
    refine (nodeCode_sound hbody none _ i (hp.shift 1)).bind fun chunk j hchunk => .pure ?_
    refine (hchunk.widen ?_).between ⟨hexists, nofun⟩ ?_
    · grind [Built.shift_base]
    · split
      · exact ⟨hexists, nofun⟩
      · exact ⟨hexists, nofun⟩

/-- Code that leads nowhere outside and does not run off its end. -/
structure Complete (r : Supply) (l : Layout) (i : Issued) (code : Chunk) (i' : Issued) : Prop where
  legal : ∃ x, x < code.size ∧ Legal r l x i code i'
  last : ∃ last, code.back? = some last ∧ last.isTerminal = true

theorem Complete.push (h : Legal r l code.size i code i') {last : Instr} (hlast : last.isTerminal = true)
    (hstands : last.Stands r i' code.size) : Complete r l i (code.push last) i' where
  legal := ⟨code.size, by simp, by
    rw [← Array.append_singleton]
    exact h.append (.single hstands)⟩
  last := ⟨last, by simp, hlast⟩

theorem addSubroutine_delivers {group : Nat} (hfit : Fit r l root) (hgroup : Callable r root group)
    (hcode : Complete r l k code i) :
    Delivers (addSubroutine root g code group l i) fun out j =>
      Complete r l k out.1 j ∧ code.size ≤ out.1.size ∧ out.2.entry < out.1.size := by
  unfold addSubroutine
  rw [bind_get]
  refine (groupBody_sound hfit hgroup (Place.start code.size) i nofun).bind fun body j hbody => ?_
  rw [bind_get]
  split
  · exact ⟨_, rfl⟩
  · obtain ⟨x, hx, hlegal⟩ := hcode.legal
    have hall : Legal r l (code ++ body).size k (code ++ body) j := by
      refine (hlegal.widen ?_).append (hbody.widen ?_)
      all_goals grind [Place.start]
    refine .pure ⟨?_, ?_, ?_⟩
    · rw [Array.append_singleton]
      exact .push hall rfl ⟨trivial, nofun⟩
    · simp only [Array.append_assoc, Array.size_append]
      exact Nat.le_add_right _ _
    · simp

/-- All that is asked of a program when it is put together. -/
structure Assembled (r : Supply) (l : Layout) (i : Issued) (code : Chunk)
    (subs : Array Subroutine) (i' : Issued) : Prop where
  complete : Complete r l i code i'
  entries : ∀ s ∈ subs, s.entry < code.size

theorem addSubroutines_delivers {called : List Nat} (hfit : Fit r l root)
    (hcalled : ∀ group ∈ called, Callable r root group) {subs : Array Subroutine}
    (h : Assembled r l k code subs i) :
    Delivers (addSubroutines root g code subs called l i) fun out j =>
      Assembled r l k out.1 out.2 j ∧ out.2.size = subs.size + called.length := by
  induction called generalizing code subs i with
  | nil => exact .pure ⟨h, rfl⟩
  | cons group rest ih =>
    refine (addSubroutine_delivers hfit (hcalled group (by simp)) h.complete).bind fun out j hout => ?_
    obtain ⟨hcomplete, hle, hentry⟩ := hout
    have hentries : ∀ s ∈ subs.push out.2, s.entry < out.1.size := fun s hs => by
      rcases Array.mem_push.mp hs with hs | rfl
      · exact Nat.lt_of_lt_of_le (h.entries s hs) hle
      · exact hentry
    refine (ih (fun g hg => hcalled g (List.mem_cons_of_mem _ hg)) ⟨hcomplete, hentries⟩).mono ?_
    rintro out' j' ⟨hassembled, hsize⟩
    refine ⟨hassembled, hsize.trans ?_⟩
    simp
    omega

/-! ## Calls -/

theorem link_refers {subs : Array Subroutine} {instr : Instr} (h : instr.Refers r i) :
    (link subs instr).Refers r i := by
  cases instr <;> exact h

theorem link_isTerminal (subs : Array Subroutine) (instr : Instr) :
    (link subs instr).isTerminal = instr.isTerminal := by
  cases instr <;> rfl

/-- Calls that have been filled in lead to the beginnings of subroutines. -/
theorem link_target {subs : Array Subroutine} {size : Nat} {instr : Instr}
    (h : ∀ t, instr.target? = some t → t < size) (hentries : ∀ s ∈ subs, s.entry < size) :
    ∀ t, (link subs instr).target? = some t → t < size := by
  cases instr with
  | call t sub =>
    intro t' ht
    obtain rfl := Option.some.inj ht
    cases hsub : subs[sub]? with
    | none => exact h t rfl
    | some s => exact hentries s (Array.mem_of_getElem? hsub)
  | _ => exact h

/-- What is known of the code of a whole program. -/
structure Whole (r : Supply) (l : Layout) (code : Chunk) (subs : Array Subroutine) (i : Issued) :
    Prop where
  refers : ∀ instr ∈ code, instr.Refers r i
  targets : ∀ instr ∈ code, ∀ t, instr.target? = some t → t < code.size
  loops : ∀ loop ∈ i.loops, loop.body < code.size ∧ loop.exit < code.size
  last : ∃ last, code.back? = some last ∧ last.isTerminal = true
  subs : subs.size = r.subs
  /-- Where no loop gets a guard there is none. -/
  bare : l.guardDepth = 0 → i.guards = 0

theorem programCode_delivers {called : List Nat} (hfit : Fit r l root)
    (hcalled : ∀ group ∈ called, Callable r root group) (hsubs : r.subs = called.length)
    (hzero : g.isCalled 0 = true → l.Calls r 0) (hloops : i.loops = #[]) (hguards : i.guards = 0) :
    Delivers (programCode root g called l i) fun out j => Whole r l out.1 out.2 j := by
  have hlast : ∀ main : Gen Chunk, Delivers (main l i) (fun chunk j => Legal r l chunk.size i chunk j) →
      Delivers ((do
        let main ← main
        let out ← addSubroutines root g (main.push .accept) #[] called
        return (out.1.map (link out.2), out.2) : Gen (Chunk × Array Subroutine)) l i)
        fun out j => Whole r l out.1 out.2 j := by
    intro main hmain
    refine hmain.bind fun main j hmain => ?_
    have hstart : Assembled r l i (main.push .accept) #[] j :=
      ⟨.push hmain rfl ⟨trivial, by rintro _ ⟨⟩⟩, by simp⟩
    refine (addSubroutines_delivers hfit hcalled hstart).bind fun out j' hout => .pure ?_
    obtain ⟨⟨⟨⟨x, hx, hlegal⟩, last, hback, hterminal⟩, hentries⟩, hsize⟩ := hout
    have hstands : ∀ instr ∈ out.1, instr.Refers r j' ∧
        ∀ t, instr.target? = some t → t < out.1.size := by
      intro instr hinstr
      obtain ⟨hrefers, htarget⟩ := hlegal.stands instr (Array.mem_toList_iff.mpr hinstr)
      exact ⟨hrefers, fun t ht => Nat.lt_of_le_of_lt (htarget t ht) hx⟩
    refine ⟨fun instr hinstr => ?_, fun instr hinstr => ?_, fun loop hloop => ?_, ?_, ?_,
      fun hl => (hlegal.bare hl).trans hguards⟩
    · obtain ⟨raw, hraw, rfl⟩ := Array.mem_map.mp hinstr
      exact link_refers (hstands raw hraw).1
    · obtain ⟨raw, hraw, rfl⟩ := Array.mem_map.mp hinstr
      rw [Array.size_map]
      exact link_target (hstands raw hraw).2 hentries
    · have hnone : i.LoopsTo x := fun l hl => by simp [hloops] at hl
      obtain ⟨hbody, hexit⟩ := hlegal.loops x (Nat.le_refl _) hnone loop hloop
      rw [Array.size_map]
      exact ⟨Nat.lt_of_le_of_lt hbody hx, Nat.lt_of_le_of_lt hexit hx⟩
    · exact ⟨link out.2 last, by simp [hback], (link_isTerminal _ _).trans hterminal⟩
    · simpa [hsubs] using hsize
  unfold programCode
  split
  · exact hlast _ ((callCode_legal (hzero ‹_›) 0).mono fun chunk j h => h.widen (Nat.zero_le _))
  · refine hlast _ ((nodeCode_sound hfit none (Place.start 0) i (by rintro _ ⟨⟩)).mono fun chunk j h =>
      h.widen ?_)
    grind [Place.start]

end Compile

/-! ## Verification -/

namespace Program

theorem codeError?_eq_none {code : Array Instr} {t : Tables} {place n : Nat}
    (h : ∀ (x : Addr) i, code[x]? = some i → i.error? t code.size x = none) :
    codeError? code t place n = none := by
  induction n generalizing place with
  | zero => rfl
  | succ n ih =>
    have hbind : (code[place]?).bind (·.error? t code.size place) = none := by
      cases hi : code[place]? with
      | none => rfl
      | some i => exact h place i hi
    rw [codeError?, hbind]
    exact ih

theorem loopError?_eq_none {size : Nat} {loops : Array CountedLoop}
    (h : ∀ l ∈ loops, l.body < size ∧ l.exit < size) : loopError? size loops = none := by
  rw [loopError?, Option.map_eq_none_iff, Array.findIdx?_eq_none_iff]
  intro l hl
  have := h l hl
  simp
  omega

end Program

/-- A program that was put together in this way is verified. -/
theorem Compile.Whole.verified {r : Supply} {l : Layout} {code : Chunk} {subs : Array Subroutine} {i : Issued}
    (h : Whole r l code subs i) {a : Analyzed} (hcaptures : a.tree.captures = r.captures) (o : Options)
    (e : Encoding) : Program.verify code (tablesOf a subs i o e) = none := by
  obtain ⟨last, hback, hterminal⟩ := h.last
  have hcode : Program.codeError? code (tablesOf a subs i o e) 0 code.size = none := by
    refine Program.codeError?_eq_none fun x instr hinstr => ?_
    have hmem := Array.mem_of_getElem? hinstr
    rw [Instr.error?, Option.or_eq_none_iff]
    refine ⟨?_, (h.refers instr hmem).operandError? hcaptures h.subs rfl rfl rfl rfl x⟩
    cases ht : instr.target? with
    | none => rw [Instr.targetError?, ht]; rfl
    | some t =>
      rw [Instr.targetError?, ht]
      exact if_pos (h.targets instr hmem t ht)
  have hloops : Program.loopError? code.size (tablesOf a subs i o e).loops = none :=
    Program.loopError?_eq_none h.loops
  rw [Program.verify, hback]
  simp [hterminal, hcode, hloops]

end RegexMachine
