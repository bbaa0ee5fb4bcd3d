import RegexMachine.Proofs.AbsentSpans
import RegexMachine.Proofs.BareCode
import RegexMachine.Proofs.Charts
import RegexMachine.Proofs.LongerTexts

/-!
What the absent operator of a pattern does. Wherever a run comes to the instruction of one, the code it
refers to is that of the body of an absent operator in the tree, so the run goes on after the longest
text in which this body does not occur, if it is one whose matches last.
-/
namespace RegexMachine
open Compile

namespace Node

theorem Secure.subtree {undone : Array Bool} {onPath : Bool} {n m : Node Measured}
    (h : n.Secure undone onPath) (hm : m ∈ n.subtrees) : ∃ onPath', m.Secure undone onPath' := by
  induction n using Node.induction generalizing onPath with
  | step n ih =>
    rcases mem_subtrees.mp hm with rfl | ⟨c, hc, hm⟩
    · exact ⟨onPath, h⟩
    · obtain ⟨_, -, hchild⟩ := h.child hc
      exact ih c hc hchild hm

end Node

namespace Machine

/-! ## Where bodies stand -/

/-- Code of a program on a subject, with all of its loops. -/
def codeOn (p : Program) (l : Layout) (sc : Scene) : Built :=
  ⟨p.code, p.tables.loops, p.tables.subroutines, l, sc⟩

/-- The code of a tree stands at an address, followed by the end of the body of an absent operator. -/
def BodyAt (p : Program) (l : Layout) (body : Node Measured) (b : Addr) : Prop :=
  ∃ w, p.code[w]? = some .absentEnd ∧
    ∀ sc later, (codeOn p l sc).NodeAt none body none later ⟨none, 0, 0⟩ b w

/-- The body of an absent operator in a tree stands at an address. -/
def HoldsBody (p : Program) (l : Layout) (root : Node Measured) (b : Addr) : Prop :=
  ∃ note body, Node.group note .absent body ∈ root.subtrees ∧ BodyAt p l body b

variable {p : Program} {l : Layout} {root : Node Measured} {scale : Scale} {strict : Prop}
  {e : Setting} {b a : Addr} {s t : State} {γ : Nat → Nat} {x y : Nat}

/-- What the flow of the code has found out about an absent operator. -/
theorem HoldsBody.of_absents {loops : Array CountedLoop} {n : Node Measured} {lo : Nat}
    (hB : Serves e.program ⟨e.program.code, loops, e.program.tables.subroutines, l,
      ⟨e.subject, e.origin, false⟩⟩)
    (h : (course e l root scale strict loops).Absents n lo b) (hn : n ∈ root.subtrees) :
    HoldsBody e.program l root b := by
  obtain ⟨note, body, hbody, later, z, w, -, hat, hend⟩ := h
  refine ⟨note, body, Node.subtrees_trans hbody hn, w, hend, fun sc later' => ?_⟩
  exact Built.carries_node hB.loops body none hat (Nat.zero_le _) (Nat.zero_le _)

/-- Code of trees of a program, with all of its loops. -/
abbrev wholeCourse (e : Setting) (l : Layout) (root : Node Measured) (scale : Scale) : Course :=
  course e l root scale False e.program.tables.loops

/-- The body of an absent operator as a procedure of its own. -/
def bodyProcedure (e : Setting) (l : Layout) (root : Node Measured) (scale : Scale)
    (body : Node Measured) (b w : Addr) : Procedure where
  entry := b
  rules p := (wholeCourse e l root scale).rules body 0 p
  exits p := (wholeCourse e l root scale).ends w body.info.minChars p

theorem Orderly.wholeServes (h : Orderly e.program l root scale strict) :
    Serves e.program (wholeCourse e l root scale).built :=
  h.compiled.serves (fun _ _ => rfl) _

/-- A body that is run on its own keeps to its course, as the routines that it calls do. -/
theorem Orderly.confined_body (h : Orderly e.program l root scale strict) {body : Node Measured}
    {w : Addr} (hbody : body ∈ root.subtrees)
    (hat : (wholeCourse e l root scale).built.NodeAt none body none (fun _ => True) ⟨none, 0, 0⟩ b w)
    (hend : e.program.code[w]? = some .absentEnd) :
    Procedure.Confined e fun P => IsRoutine e l root scale strict P ∨
      P = bodyProcedure e l root scale body b w where
  setting P hP q := by
    rcases hP with hP | rfl
    · exact h.confined.setting P hP q
    · rfl
  confines P hP q := by
    rcases hP with hP | rfl
    · exact h.confined.confines P hP q
    · exact (h.sound h.wholeServes False).node body none (h.relax.knows hbody) _ _ _ _ _ hat q
  ends P hP q c y i hc hi := by
    rcases hP with hP | rfl
    · exact h.confined.ends P hP q c y i hc hi
    · obtain ⟨rfl, -⟩ := hc
      cases hend.symm.trans hi
      exact ⟨fun _ _ => id, nofun⟩
  returns P hP q y := by
    rcases hP with hP | rfl
    · exact h.confined.returns P hP q y
    · exact id
  calls P hP q t x y hends := by
    have hroutines : ∀ Q, IsRoutine e l root scale strict Q → Q.entry = t → ∃ c, Q.exits x c y :=
      fun Q hQ => hends Q (Or.inl hQ)
    rcases hP with hP | rfl
    · exact h.confined.calls P hP q t x y hroutines
    · obtain ⟨loops, z, -, hz, hmain⟩ := h.main_confines
      exact h.confined.calls _ (.main hz hmain) q t x y hroutines

/-- Wherever code comes to an absent operator that a call, an attempt or another absent operator has
entered, it is one of the tree. -/
theorem Orderly.reach_body (h : Orderly e.program l root scale strict)
    (hentry : b = 0 ∨ (∃ r ∈ e.program.tables.subroutines, r.entry = b) ∨ HoldsBody e.program l root b)
    {c : Addr} (hreach : Reach e b x a y) (hi : e.program.code[a]? = some (.absent c)) :
    HoldsBody e.program l root c := by
  rcases hentry with rfl | ⟨r, hr, rfl⟩ | ⟨note, body, hgroup, w, hend, hat⟩
  · obtain ⟨loops, z, hB, hz, hmain⟩ := h.main_confines
    rcases h.confined.allows (.main hz hmain) hreach hi with hexit | habsents
    · obtain ⟨rfl, -⟩ := hexit
      cases hi.symm.trans hz
    · exact .of_absents hB habsents (Node.self_mem_subtrees root)
  · obtain ⟨n, loops, z, hroutine⟩ := h.compiled.routine hr ⟨e.subject, e.origin, false⟩
    rcases h.confined.allows (.sub hr hroutine) hreach hi with hexit | habsents | ⟨-, hsaves⟩
    · obtain ⟨rfl, -⟩ := hexit
      cases hi.symm.trans hroutine.ret
    · exact .of_absents hroutine.serves habsents (Node.calledBody?_mem_subtrees hroutine.runs)
    · exact hsaves.elim
  · have hbody : body ∈ root.subtrees :=
      Node.subtrees_trans (Node.child_mem_subtrees (List.mem_singleton.mpr rfl)) hgroup
    rcases (h.confined_body hbody (hat _ _) hend).allows (Or.inr rfl) hreach hi with hexit | habsents
    · obtain ⟨rfl, -⟩ := hexit
      cases hi.symm.trans hend
    · exact .of_absents h.wholeServes habsents hbody

theorem Charted.holdsBody (hp : Orderly p l root scale strict) (h : Charted p e b γ s)
    (hentry : b = 0 ∨ HoldsBody p l root b) {c : Addr}
    (hi : e.program.code[s.ip]? = some (.absent c)) : HoldsBody p l root c := by
  have he := h.visited.program
  subst he
  rcases h.within hp with hreach | ⟨r, hr, x, hreach⟩
  · exact hp.reach_body (hentry.imp_right Or.inr) hreach hi
  · exact hp.reach_body (Or.inr (Or.inl ⟨r, hr, rfl⟩)) hreach hi

/-- Every run is entered at the beginning of the program, or at the body of an absent operator. -/
theorem Charted.entry (hp : Orderly p l root scale strict) (h : Charted p e b γ s) :
    b = 0 ∨ HoldsBody p l root b := by
  induction h with
  | attempt he st pos γ => exact Or.inl rfl
  | step n h hstep ih => exact ih
  | inside h hb stop begun pos st γ' ih => exact Or.inr (h.holdsBody hp ih hb)

/-- What an absent operator runs that a run has come to is the body of one of the tree. -/
theorem Visited.holdsBody (hp : Orderly p l root scale strict) (h : Visited p e s)
    (hb : e.program.code[s.ip]? = some (.absent b)) : HoldsBody p l root b := by
  obtain ⟨c, γ, hcharted⟩ := h.charted
  exact hcharted.holdsBody hp (hcharted.entry hp) hb

/-! ## What bodies match -/

/-- A program in which nothing is called, and nothing depends on what has been captured. -/
structure Plain (p : Program) (l : Layout) (root : Node Measured) : Prop where
  weighed : ∃ s : Scale, s.encoding = p.encoding ∧ root.Weighed s
  calls : ∀ g, l.calls.isCalled g = false
  captures : l.capturesMatter = false
  secure : ∃ onPath, root.Secure l.undone onPath
  history : ∀ g, l.undone.getD g true = false → p.has .captureHistory = false

theorem Plain.hosts (h : Plain p l root) (hp : p.Compiled l root) (hq : Quiet e) (he : e.program = p)
    (hencoding : e.subject.encoding = p.encoding) : Hosts e (codeOn p l e.scene) where
  quiet := hq
  code := congrArg Program.code he
  loops := congrArg (·.tables.loops) he
  subject := rfl
  origin := rfl
  history := rfl
  undone g hg := he ▸ h.history g hg
  encoding := hp.encoding.trans hencoding.symm
  captures := h.captures
  calls := h.calls
  groups _ _ _ hi := he ▸ Program.group_lt hp.verified hi

/-- The end of the body of an absent operator ends the run. -/
theorem ends_absentEnd {c : Core} (hi : e.program.code[c.ip]? = some .absentEnd) :
    Point.Ends e .accepted c (.going c) := by
  intro s hs
  subst hs
  refine ⟨1, s.fetched e .absentEnd, core_fetched s e .absentEnd, fun n hn => ?_⟩
  obtain ⟨k, rfl⟩ : ∃ k, n = k + 1 := ⟨n - 1, by omega⟩
  rw [run_succ, step_fetched _ _ _ _ hi]
  rfl

/-- A body is run to its end if it has a way, and in vain otherwise. -/
theorem run_body {body : Node Measured} {w : Addr} {B : Built} (hB : Hosts e B)
    (hat : B.NodeAt none body none (fun _ => True) ⟨none, 0, 0⟩ b w)
    (hend : B.code[w]? = some .absentEnd) (hsecure : body.Secure B.layout.undone false)
    (hclear : body.Clear) (hscale : scale.encoding = B.scene.subject.encoding)
    (hweighed : body.Weighed scale) {st : State} (hmemo : st.memo = none) {pos : Nat}
    (hpos : pos ≤ e.subject.size) :
    ∃ N s', s'.memo = none ∧ ∀ n, N ≤ n → run n e (st.enter e b pos) =
      (if (B.scene.ways body (.start e.program pos)).isEmpty then .exhausted else .accepted, s') := by
  have hmeans : Means e B .blank none _ _ _ :=
    node_means hB hscale body none false hsecure hclear hweighed
  have hgives := hmeans none _ ⟨none, 0, 0⟩ b w .certain none .none (.start e.program pos) hat
    (by rintro _ ⟨⟩) (Stale.fits_none _) (by rintro _ ⟨⟩) (Or.inl rfl)
  have hyields := hgives _ (ready_enter hpos hmemo _)
  cases hways : B.scene.ways body (.start e.program pos) with
  | nil =>
    rw [hways] at hyields
    obtain ⟨c, hreaches, -, hc⟩ := hyields.first fun _ => trivial
    obtain ⟨N, s', hs', hrun⟩ :=
      (Point.Reaches.ends hreaches (Point.ends_exhausted e c hc.frames)) _ rfl
    refine ⟨N, s', ?_, hrun⟩
    have : s'.core.memo = none := hs' ▸ hc.memo
    exact this
  | cons r rs =>
    rw [hways] at hyields
    obtain ⟨c, hreaches, -, hc⟩ := hyields.first fun _ => trivial
    have hi : e.program.code[c.ip]? = some .absentEnd := hB.fetch hend hc.ip
    obtain ⟨N, s', hs', hrun⟩ := (Point.Reaches.ends hreaches (ends_absentEnd hi)) _ rfl
    refine ⟨N, s', ?_, hrun⟩
    have : s'.core.memo = none := hs' ▸ hc.memo
    exact this

/-- A text is searched for a body at one place after another. -/
theorem blockedFrom_ways {f : Way} {stop : Nat} (hw : e.subject.WellFormed)
    (hsize : e.subject.size = stop)
    (hrun : ∀ (st : State) pos, st.memo = none → pos ≤ stop → ∃ N s', s'.memo = none ∧ ∀ n, N ≤ n →
      run n e (st.enter e b pos) =
        (if (f (.start e.program pos)).isEmpty then .exhausted else .accepted, s'))
    {st : State} (hmemo : st.memo = none) {pos : Nat} (hb : e.subject.isBoundary pos = true)
    (hpos : pos ≤ stop) :
    ∃ N, ∀ n, N ≤ n → blockedFrom (inner n) e b stop pos st =
      .ok ((e.subject.between pos stop).any fun q => !(f (.start e.program q)).isEmpty) := by
  obtain ⟨N, s', hmemo', hhere⟩ := hrun st pos hmemo hpos
  have hinner : ∀ n, N ≤ n → inner n e b pos st =
      (if (f (.start e.program pos)).isEmpty then .exhausted else .accepted, s') := hhere
  cases hways : (f (.start e.program pos)).isEmpty with
  | false =>
    have hmem : pos ∈ e.subject.between pos stop :=
      Subject.mem_between.mpr ⟨⟨Nat.le_refl pos, hpos⟩, hb⟩
    refine ⟨N, fun n hn => ?_⟩
    rw [blockedFrom, hinner n hn, hways, List.any_eq_true.mpr ⟨pos, hmem, by rw [hways]; rfl⟩]
    rfl
  | true =>
    rcases Nat.eq_or_lt_of_le hpos with rfl | hlt
    · refine ⟨N, fun n hn => ?_⟩
      rw [blockedFrom, hinner n hn, hways, Subject.between_self hb]
      simp [hways]
    · obtain ⟨hnext, hle, -⟩ := hw.next_spec hb (hsize ▸ hlt)
      rw [hsize] at hle
      obtain ⟨M, hM⟩ := blockedFrom_ways hw hsize hrun hmemo' hnext hle
      refine ⟨max N M, fun n hn => ?_⟩
      rw [blockedFrom, hinner n (by omega), hways, hw.between_next hb (hsize ▸ hlt) hpos,
        List.any_cons, hways]
      simp only [↓reduceIte, hlt, ↓reduceDIte, Bool.not_true, Bool.false_or]
      exact hM n (by omega)
termination_by stop - pos
decreasing_by
  have := Subject.lt_next e.subject pos
  omega

/-- Whether a tree occurs shows wherever its ways begin with nothing matched. -/
theorem occurs_iff {sc : Scene} {n : Node Measured} {start stop : Nat}
    (hb : sc.subject.isBoundary stop = true) (hsize : stop ≤ sc.subject.size) :
    (((sc.upTo stop).subject.between start stop).any fun q =>
      !((sc.upTo stop).ways n (.start p q)).isEmpty) = true ↔ sc.Occurs n start stop := by
  rw [List.any_eq_true]
  constructor
  · rintro ⟨q, hq, hways⟩
    obtain ⟨⟨hfrom, hto⟩, hboundary⟩ := Subject.mem_between.mp hq
    have hne : (sc.upTo stop).ways n (.start p q) ≠ [] := by simpa using hways
    obtain ⟨r, hr⟩ := List.exists_mem_of_ne_nil _ hne
    exact ⟨.start p q, r, hfrom, hto, (Subject.isBoundary_upTo hb hsize hto).symm.trans hboundary, hr⟩
  · rintro ⟨t, r, hfrom, hto, hboundary, hr⟩
    refine ⟨t.pos, Subject.mem_between.mpr ⟨⟨hfrom, hto⟩,
      (Subject.isBoundary_upTo hb hsize hto).trans hboundary⟩, ?_⟩
    -- Where ways end does not depend on what has been matched, and so neither does whether there are any.
    have hblind := ((sc.upTo stop).ways_regular n).blind t (.start p t.pos) rfl
    cases hways : (sc.upTo stop).ways n (.start p t.pos) with
    | nil =>
      rw [hways, List.map_nil, List.map_eq_nil_iff] at hblind
      rw [hblind] at hr
      cases hr
    | cons _ _ => rfl

/-- A part of the subject is blocked if the body occurs in it. -/
theorem blocked_occurs (hp : Orderly e.program l root scale strict) (hplain : Plain e.program l root)
    (hq : Quiet e) (hencoding : e.subject.encoding = e.program.encoding) (hw : e.subject.WellFormed)
    {note : Measured} {body : Node Measured} (hbody : Node.group note .absent body ∈ root.subtrees)
    (hu : body.understood = true) (hat : BodyAt e.program l body b) (begun : Nat) {start stop : Nat}
    (hstart : e.subject.isBoundary start = true) (hstop : e.subject.isBoundary stop = true)
    (hle : start ≤ stop) (hsize : stop ≤ e.subject.size) :
    ∃ found, (found = true ↔ e.scene.Occurs body start stop) ∧
      ∃ N, ∀ n, N ≤ n → blocked (inner n) e b begun start stop = .ok found := by
  obtain ⟨w, hend, hat⟩ := hat
  have hcut : (e.subject.upTo stop).size = stop := Subject.size_upTo hsize
  have hsub : body ∈ root.subtrees :=
    Node.subtrees_trans (Node.child_mem_subtrees (List.mem_singleton.mpr rfl)) hbody
  obtain ⟨onPath, hsecure⟩ := hplain.secure
  obtain ⟨_, hsecure⟩ := hsecure.subtree hbody
  obtain ⟨s, hs, hweighed⟩ := hplain.weighed
  have hquiet : Quiet (e.upTo stop begun) :=
    ⟨hq.retries, hq.searchRetries, hq.frames, fun _ => hq.signal begun⟩
  have hB : Hosts (e.upTo stop begun) (codeOn e.program l (e.scene.upTo stop)) :=
    hplain.hosts hp.compiled hquiet rfl hencoding
  have hknows : (wholeCourse e l root scale).Knows body := hp.relax.knows hsub
  exact ⟨_, occurs_iff hstop hsize, blockedFrom_ways (hw.upTo hstop hsize) hcut
    (fun st pos hmemo hpos => run_body hB (hat _ _) hend hsecure ⟨hu, hknows.ordered⟩
      (hs.trans hencoding.symm) (hweighed.subtree hsub) hmemo (hcut.symm ▸ hpos))
    rfl ((Subject.isBoundary_upTo hstop hsize hle).trans hstart) hle⟩

/-- Enough steps for each of several runs are enough for all. -/
theorem exists_common {P : Nat → Nat → Prop} {k : Nat} (h : ∀ i, i ≤ k → ∃ N, ∀ n, N ≤ n → P i n) :
    ∃ N, ∀ n, N ≤ n → ∀ i, i ≤ k → P i n := by
  induction k with
  | zero =>
    obtain ⟨N, hN⟩ := h 0 (Nat.le_refl 0)
    exact ⟨N, fun n hn i hi => Nat.le_zero.mp hi ▸ hN n hn⟩
  | succ k ih =>
    obtain ⟨N, hN⟩ := ih fun i hi => h i (by omega)
    obtain ⟨M, hM⟩ := h (k + 1) (Nat.le_refl _)
    refine ⟨max N M, fun n hn i hi => ?_⟩
    rcases Nat.le_succ_iff.mp hi with hi | rfl
    · exact hN n (by omega) i hi
    · exact hM n (by omega)

/-! ## The longest text without a body -/

/-- Runs of a body tell whether it occurs in a part of the subject. -/
def Decides (r : Runner) (e : Setting) (b : Addr) (body : Node Measured) (begun start : Nat) : Prop :=
  ∀ stop, start ≤ stop → stop ≤ e.subject.size → e.subject.isBoundary stop = true →
    ∃ found, (found = true ↔ e.scene.Occurs body start stop) ∧
      blocked r e b begun start stop = .ok found

namespace Decides

variable {r : Runner} {body : Node Measured} {begun start stop : Nat}

theorem free_iff (h : Decides r e b body begun start) (hle : start ≤ stop)
    (hsize : stop ≤ e.subject.size) (hb : e.subject.isBoundary stop = true) :
    Free r e b begun start stop ↔ ¬ e.scene.Occurs body start stop := by
  obtain ⟨found, hfound, hblocked⟩ := h stop hle hsize hb
  rw [← hfound, Bool.not_eq_true]
  constructor
  · intro hfree
    exact Except.ok.inj (hblocked.symm.trans hfree.clear)
  · rintro rfl
    exact ⟨hle, hsize, hb, hblocked⟩

/-- If matches of the body last, shorter texts are free of them where longer ones are. -/
theorem inherits (h : Decides r e b body begun start) (hlasting : body.isLasting = true)
    (hw : e.subject.WellFormed) : Inherits r e b begun start := by
  intro p q hq hp hpq hb
  refine (h.free_iff hp (Nat.le_trans hpq hq.inside) hb).mpr fun hoccurs => ?_
  exact (h.free_iff hq.le hq.inside hq.boundary).mp hq
    (hoccurs.longer hlasting hw hb hq.boundary hpq hq.inside)

end Decides

/-- Where an absent operator goes on: nowhere if the body matches the empty text, and otherwise after
the longest text in which it does not occur. -/
inductive Spans (sc : Scene) (body : Node Measured) (start : Nat) : Option Nat → Prop
  | fails (h : sc.Occurs body start start) : Spans sc body start none
  | takes {stop : Nat} (le : start ≤ stop) (inside : stop ≤ sc.subject.size)
    (boundary : sc.subject.isBoundary stop = true) (free : ¬ sc.Occurs body start stop)
    (longest : ∀ q, stop < q → q ≤ sc.subject.size → sc.subject.isBoundary q = true →
      sc.Occurs body start q) : Spans sc body start (some stop)

theorem Decides.spans {r : Runner} {body : Node Measured} {begun start : Nat}
    (h : Decides r e b body begun start) (hlasting : body.isLasting = true)
    (hw : e.subject.WellFormed) (hb : e.subject.isBoundary start = true)
    (hs : start ≤ e.subject.size) :
    ∃ o, absentEnd r e b begun start = .ok o ∧ Spans e.scene body start o := by
  obtain ⟨o, ho⟩ : ∃ o, absentEnd r e b begun start = .ok o := exists_absentEnd hw hb hs
    fun stop hle hsize hboundary => (h stop hle hsize hboundary).imp fun _ => And.right
  refine ⟨o, ho, ?_⟩
  cases o with
  | none =>
    obtain ⟨found, hfound, hblocked⟩ := h start (Nat.le_refl start) hs hb
    exact .fails (hfound.mp (Except.ok.inj (hblocked.symm.trans (absentEnd_none.mp ho))))
  | some stop =>
    obtain ⟨hfree, -⟩ := absentEnd_free hw hb hs ho
    refine .takes hfree.le hfree.inside hfree.boundary
      ((h.free_iff hfree.le hfree.inside hfree.boundary).mp hfree) fun q hlt hsize hboundary => ?_
    refine Classical.byContradiction fun hnone => ?_
    have hle := (h.inherits hlasting hw).absentEnd_longest hw hb hs ho
      ((h.free_iff (Nat.le_trans hfree.le (Nat.le_of_lt hlt)) hsize hboundary).mpr hnone)
    omega

/-- There is one such place only. -/
theorem Spans.unique {sc : Scene} {body : Node Measured} {start : Nat} {o o' : Option Nat}
    (h : Spans sc body start o) (h' : Spans sc body start o') (hlasting : body.isLasting = true)
    (hw : sc.subject.WellFormed) (hb : sc.subject.isBoundary start = true) : o = o' := by
  -- A body that matches the empty text occurs in all the others.
  have hall {stop : Nat} (hempty : sc.Occurs body start start) (hle : start ≤ stop)
      (hsize : stop ≤ sc.subject.size) (hboundary : sc.subject.isBoundary stop = true) :
      sc.Occurs body start stop := hempty.longer hlasting hw hb hboundary hle hsize
  cases h with
  | fails hempty =>
    cases h' with
    | fails => rfl
    | takes hle hsize hboundary hfree => exact absurd (hall hempty hle hsize hboundary) hfree
  | @takes stop hle hsize hboundary hfree hlongest =>
    cases h' with
    | fails hempty => exact absurd (hall hempty hle hsize hboundary) hfree
    | @takes stop' hle' hsize' hboundary' hfree' hlongest' =>
      rcases Nat.lt_trichotomy stop stop' with hlt | rfl | hlt
      · exact absurd (hlongest _ hlt hsize' hboundary') hfree'
      · rfl
      · exact absurd (hlongest' _ hlt hsize hboundary) hfree

/-- When the frame of an absent operator is resumed, it goes on after the next shorter text, in which
the body does not occur either. -/
theorem Spans.resumed {body : Node Measured} {start stop ip q : Nat} {top : List Frame}
    (h : Spans e.scene body start (some stop)) (hlasting : body.isLasting = true)
    (hw : e.subject.WellFormed) (hr : Resuming e (.absent ip start stop) a q top) :
    start ≤ q ∧ q < stop ∧ e.subject.isBoundary q = true ∧ ¬ e.scene.Occurs body start q := by
  cases h with
  | takes hle hsize hboundary hfree =>
    obtain ⟨hfrom, hlt, hq, -⟩ := hr.absent_before hw hsize
    exact ⟨hfrom, hlt, hq, fun hoccurs =>
      hfree (hoccurs.longer hlasting hw hq hboundary (Nat.le_of_lt hlt) hsize)⟩

end Machine

open Machine

/-- A pattern that calls nothing and refers to nothing has a plain program. -/
theorem Compilation.ofTree_plain {s : Pattern.Setting} {o : Options} {t : PatternTree Span}
    {p : Program} (h : (Compilation.ofTree s o t).1 = .ok p) {a : Analyzed}
    (ha : Analyzed.ofTree s.dialect s.encoding t = .ok a) (hcallees : a.tree.root.callees = [])
    (hrefs : a.tree.root.subtrees.any (Node.owns .hasBackref) = false)
    (hconditionals : a.tree.root.subtrees.any isConditional = false) :
    Plain p (patternLayout a s o) a.tree.root := by
  have hcalled := Analyzed.ofTree_isCalled ha hcallees
  obtain ⟨scale, hscale, -, hweighed⟩ := Analyzed.ofTree_weighed ha
  refine ⟨⟨scale, hscale.trans (ofTree_tables h ha).1.symm, hweighed⟩, hcalled, ?_,
    ⟨_, markUndone_secures _ _ _ (.refl _)⟩,
    fun g hg => (ofTree_records h ha hcalled).trans (undoneGroups_history hg)⟩
  simp only [patternLayout, layoutOf, Analyzed.ofTree_has ha (t := .hasBackref) rfl, hrefs, hconditionals,
    Bool.or_false]

/-- Wherever a run comes to an absent operator of a pattern that calls nothing and refers to nothing,
what it looks for is the body of one in the tree. If matches of this body last, it goes on after the
longest text in which the body does not occur, or nowhere if the body matches the empty text. -/
theorem Machine.absent_spans {setting : Pattern.Setting} {options : Options} {tree : PatternTree Span}
    {p : Program} {a : Analyzed} {e : Machine.Setting} {s : State} {b : Addr}
    (hprogram : (Compilation.ofTree setting options tree).1 = .ok p)
    (ha : Analyzed.ofTree setting.dialect setting.encoding tree = .ok a)
    (hnumbers : ∀ g ∈ tree.root.groupNumbers, 0 < g ∧ g ≤ tree.captures)
    (hseparate : tree.root.Separate) (hordered : tree.root.Ordered)
    (hcallees : a.tree.root.callees = [])
    (hrefs : a.tree.root.subtrees.any (Node.owns .hasBackref) = false)
    (hconditionals : a.tree.root.subtrees.any isConditional = false)
    (hq : Quiet e) (hencoding : e.subject.encoding = p.encoding) (hw : e.subject.WellFormed)
    (hv : Visited p e s) (hi : e.program.code[s.ip]? = some (.absent b))
    (hb : e.subject.isBoundary s.pos = true) (hs : s.pos ≤ e.subject.size) :
    ∃ note body, Node.group note .absent body ∈ a.tree.root.subtrees ∧
      (body.understood = true → body.isLasting = true → ∃ o, Spans e.scene body s.pos o ∧
        ∃ N, ∀ n, N ≤ n → absentEnd (inner n) e b s.tally.begun s.pos = .ok o) := by
  obtain ⟨a', scale, ha', horderly, -⟩ := Compilation.ofTree_orderly hprogram hnumbers hseparate hordered
  obtain rfl : a = a' := Except.ok.inj (ha.symm.trans ha')
  have hplain := Compilation.ofTree_plain hprogram ha hcallees hrefs hconditionals
  have he := hv.program
  subst he
  obtain ⟨note, body, hbody, hat⟩ := hv.holdsBody horderly hi
  refine ⟨note, body, hbody, fun hu hlasting => ?_⟩
  obtain ⟨N, hN⟩ : ∃ N, ∀ n, N ≤ n → ∀ stop, stop ≤ e.subject.size → s.pos ≤ stop →
      e.subject.isBoundary stop = true → ∃ found, (found = true ↔ e.scene.Occurs body s.pos stop) ∧
        blocked (inner n) e b s.tally.begun s.pos stop = .ok found := by
    refine exists_common fun stop hsize => ?_
    by_cases hstop : s.pos ≤ stop ∧ e.subject.isBoundary stop = true
    · obtain ⟨found, hfound, N, hN⟩ := blocked_occurs horderly hplain hq hencoding hw hbody hu hat
        s.tally.begun hb hstop.2 hstop.1 hsize
      exact ⟨N, fun n hn _ _ => ⟨found, hfound, hN n hn⟩⟩
    · exact ⟨0, fun n _ hle hboundary => absurd ⟨hle, hboundary⟩ hstop⟩
  have hspans (n : Nat) (hn : N ≤ n) := Decides.spans (fun stop hle hsize => hN n hn stop hsize hle)
    hlasting hw hb hs
  obtain ⟨o, -, ho⟩ := hspans N (Nat.le_refl N)
  refine ⟨o, ho, N, fun n hn => ?_⟩
  obtain ⟨o', hend, ho'⟩ := hspans n hn
  rw [hend, ho.unique ho' hlasting hw hb]

/-- Where an absent operator with the body given goes on at the beginning of a text. -/
def Machine.absentSpan? (body : Node Span) (text : Bytes) : Option (Except Halt (Option Nat)) :=
  (Compilation.ofTree forkedSetting .empty
      ⟨.group ⟨0, 0⟩ .absent body, 0, .empty, false⟩).1.toOption.map fun p =>
    absentEnd (inner 20)
      { forkedRun with program := p, subject := ⟨text, .ascii, false, false⟩ } 2 0 0

/-- In `xab` the longest text without `ab` is `xa`. -/
example : absentSpan? (.atom ⟨0, 2⟩ (.literal #[97, 98] false)) #[120, 97, 98] =
    some (.ok (some 2)) := by decide +kernel

-- A match of `a\z` does not last: it occurs in `a`, but not in `ab`.
example : absentSpan? (.sequence ⟨0, 3⟩ [.atom ⟨0, 1⟩ (.literal #[97] false),
    .atom ⟨1, 3⟩ (.anchor .endBuffer)]) #[97, 98] = some (.ok (some 0)) := by decide +kernel

end RegexMachine
