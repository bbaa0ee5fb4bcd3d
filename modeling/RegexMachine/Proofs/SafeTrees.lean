import RegexMachine.Proofs.Apart
import RegexMachine.Proofs.SafeRegions
import RegexMachine.Proofs.TreeRuns

/-!
The code of every tree is safe for the extents of the tree, whatever nodes it has, as soon as the
subroutines it calls are safe for a step less.
-/
namespace RegexMachine

/-- What the extents of a tree depend on in a setting. -/
def Built.reading (B : Built) (e : Machine.Setting) : Reading :=
  ⟨e.subject, e.origin, B.layout.encoding, B.layout.calls.isCalled⟩

namespace Machine

variable {Goal : Setting → View → Prop} {N : Nat} {p : Program} {B : Built} {φ : Promise}
  {z : Zone} {x y : Addr} {calls : Setting → Nat → Extent} {e : Setting} {u : Scope}

/-- Linked code is that of a program. -/
structure Serves (p : Program) (B : Built) : Prop where
  code : B.code = p.code
  subs : B.subs = p.tables.subroutines
  loops : ∀ (id : Nat) l, B.loops[id]? = some l → p.tables.loops[id]? = some l
  groups : ∀ (x : Addr) g undo, p.code[x]? = some (.groupStart g undo) → g < p.tables.captures + 1

/-- The subroutines that code may call are safe for fewer steps, wherever groups that are restored are
not loose. -/
def Callable (Goal : Setting → View → Prop) (N : Nat) (p : Program) (B : Built)
    (calls : Setting → Nat → Extent) : Prop :=
  ∀ g sub, (B.layout.subroutines[g]?).join = some sub → ∃ r, p.tables.subroutines[sub]? = some r ∧
    ∀ m < N, ∀ e : Setting, e.program = p →
      Returns Goal m e (fun g => B.layout.undone.getD g true = true) r (calls e g)

/-- Groups that are loose before code with groups of certain numbers: those that are loose after it, and
its own that are not restored. -/
def loosened (undone : Array Bool) (L : Nat → Prop) (numbers : List Nat) (g : Nat) : Prop :=
  L g ∨ g ∈ numbers ∧ undone.getD g true = false

/-- Code with groups of certain numbers may stand in a scope: it may enter its groups, none of them is
loose after it, and nothing is loose that is restored. -/
structure Scope.Holds (u : Scope) (undone : Array Bool) (numbers : List Nat) : Prop where
  restored : ∀ g, u.loose g → undone.getD g true = false
  apart : ∀ g ∈ numbers, ¬ u.loose g
  entered : ∀ g ∈ numbers, u.entered g

section
variable {undone : Array Bool} {numbers more : List Nat}

theorem Scope.Holds.subset (h : u.Holds undone more) (hsub : ∀ g ∈ numbers, g ∈ more) :
    u.Holds undone numbers :=
  ⟨h.restored, fun g hg => h.apart g (hsub g hg), fun g hg => h.entered g (hsub g hg)⟩

theorem Scope.Holds.admits (h : u.Holds undone numbers) : u.Admits (loosened undone u.loose numbers) :=
  ⟨fun _ => Or.inl, fun g hg => hg.elim (u.covers g) fun hg => h.entered g hg.1⟩

/-- A group around code with other groups. -/
theorem Scope.Holds.without {g : Nat} (h : u.Holds undone (g :: numbers)) (hg : g ∉ numbers)
    (hapart : ¬ u.loose g) : (u.without g hapart).Holds undone numbers :=
  ⟨h.restored, fun k hk => h.apart k (List.mem_cons_of_mem _ hk),
    fun k hk => ⟨h.entered k (List.mem_cons_of_mem _ hk), fun heq => hg (heq ▸ hk)⟩⟩

end

/-- Code of a shape with groups of certain numbers is safe in every setting of the program, wherever it
may stand. -/
def Sound (Goal : Setting → View → Prop) (N : Nat) (p : Program) (B : Built) (numbers : List Nat)
    (part : Part) (f : Setting → Extent) : Prop :=
  ∀ (e : Setting) (u : Scope), e.program = p → u.loops = B.loops.size →
    u.Holds B.layout.undone numbers →
    Solid Goal N e u (loosened B.layout.undone u.loose numbers) part (f e)

section
variable {numbers more : List Nat} {part : Part} {f : Setting → Extent}

/-- Groups may be counted in that are not there. -/
theorem Sound.grow (h : Sound Goal N p B numbers part f) (hsub : ∀ g ∈ numbers, g ∈ more) :
    Sound Goal N p B more part f :=
  fun e u he hu hheld φ later z x y hz hpart =>
    (h e u he hu (hheld.subset hsub) φ later z x y hz hpart).widen fun g =>
      Or.imp id (And.imp_left (hsub g))

/-- Code all groups of which are restored makes nothing loose. -/
theorem Sound.still (h : Sound Goal N p B numbers part f)
    (hmarked : ∀ g ∈ numbers, B.layout.undone.getD g true = true) (he : e.program = p)
    (hu : u.loops = B.loops.size) (hheld : u.Holds B.layout.undone numbers) :
    Solid Goal N e u u.loose part (f e) :=
  fun φ later z x y hz hpart => (h e u he hu hheld φ later z x y hz hpart).widen fun g hg =>
    hg.resolve_right fun hg => Bool.false_ne_true (hg.2.symm.trans (hmarked g hg.1))

end

theorem call_sound (hB : Serves p B) (hcalls : Callable Goal N p B calls) (he : e.program = p)
    (hloose : ∀ g, u.loose g → B.layout.undone.getD g true = false) {g : Nat} (h : B.CallAt g x y) :
    Sure Goal N e u u.loose φ z x y (calls e g) := by
  obtain ⟨sub, hsub, hi, rfl⟩ := h
  obtain ⟨r, hr, hret⟩ := hcalls g sub hsub
  rw [hB.subs, hr, hB.code] at hi
  subst he
  refine sure_call hr hi (fun g hrestored hg => ?_) fun m hm => hret m hm e rfl
  exact Bool.false_ne_true ((hloose g hg).symm.trans hrestored)

theorem text_sound (hB : Serves p B) (he : e.program = p) {i : Instr} {width : Nat → Option Nat}
    (ho : i.isOrdinary = true) (hx : ∀ r, exec r e i = fun s => consume e (width s.pos) s)
    (hi : B.code[x]? = some i ∧ y = x + 1) :
    Sure Goal N e u u.loose φ z x y (.text width) := by
  obtain ⟨hi, rfl⟩ := hi
  rw [hB.code, ← he] at hi
  intro n hn c hc hg hthen
  refine going_consume (hc.ip ▸ hi) ho hx (fun k hk m hm => ?_) hg.failing
  refine hthen m (by omega) _ (by rw [← hc.ip]) ⟨k, hk, rfl⟩ (.of_frames z u.admits_loose rfl rfl (.refl _)) ?_
  exact (hg.mono (Nat.le_of_lt hm)).keeps rfl rfl (.refl _)

theorem literal_sound (hB : Serves p B) (he : e.program = p) {bytes : Bytes} {fold : Bool}
    (h : B.AtomAt (.literal bytes fold) x y) :
    Sure Goal N e u u.loose φ z x y (.text ((B.reading e).literalLength? bytes fold)) := by
  have hcode {i : Instr} (hi : Built.atomInstr? B.layout.encoding (.literal bytes fold) = some i)
      (ho : i.isOrdinary = true) (hx : ∀ r, exec r e i =
        fun s => consume e ((B.reading e).literalLength? bytes fold s.pos) s) :
      Sure Goal N e u u.loose φ z x y (.text ((B.reading e).literalLength? bytes fold)) := by
    simp only [Built.AtomAt, hi] at h
    exact text_sound hB he ho hx h
  by_cases hempty : bytes.isEmpty = true
  · have hi : Built.atomInstr? B.layout.encoding (.literal bytes fold) = none := by
      simp [Built.atomInstr?, Compile.literalCode, hempty]
    simp only [Built.AtomAt, hi] at h
    obtain rfl : x = y := h
    refine sure_here.weaken fun p q hpq => ⟨0, ?_, hpq.symm⟩
    simp [Reading.literalLength?, hempty]
  · cases fold with
    | true =>
      refine hcode (i := .foldedText (B.layout.encoding.foldBytes bytes)) ?_ rfl fun r => ?_
      · simp [Built.atomInstr?, Compile.literalCode, hempty]
      · simp only [Reading.literalLength?, hempty]
        rfl
    | false =>
      by_cases hone : bytes.size = 1
      · refine hcode (i := .byte (bytes.byteAt 0)) ?_ rfl fun r => ?_
        · simp [Built.atomInstr?, Compile.literalCode, hempty, hone]
        · simp only [Reading.literalLength?, hempty, Built.reading,
            ← e.subject.byteLength?_eq hone]
          rfl
      · refine hcode (i := .text bytes) ?_ rfl fun r => ?_
        · simp [Built.atomInstr?, Compile.literalCode, hempty, hone]
        · simp only [Reading.literalLength?, hempty]
          rfl

/-- What comes next is reached without frames. -/
theorem Then.step {n m : Nat} {c d : View} {f : Extent} (h : Then Goal n e u u.loose z c y f)
    (hg : Grounded Goal u.loose n e c) (hm : m < n) (hip : d.ip = y) (hf : f c.pos d.pos)
    (hs : d.start = c.start) (hframes : d.frames = c.frames) (hr : c.regs.Keeps u.loose d.regs) :
    Going Goal m e d :=
  h m (Nat.le_of_lt hm) d hip hf (.of_frames z u.admits_loose hs hframes hr)
    ((hg.mono (Nat.le_of_lt hm)).keeps hs hframes hr)

theorem atom_sound (hB : Serves p B) (hcalls : Callable Goal N p B calls) (he : e.program = p)
    (hloose : ∀ g, u.loose g → B.layout.undone.getD g true = false) {a : Atom} (h : B.AtomAt a x y) :
    Sure Goal N e u u.loose φ z x y ((B.reading e).atomExtent (calls e) a) := by
  cases a with
  | empty =>
    obtain rfl : x = y := h
    exact sure_here
  | literal bytes fold => exact literal_sound hB he h
  | charClass ranges negated => exact text_sound hB he rfl (fun _ => rfl) h
  | charType type negated ascii => exact text_sound hB he rfl (fun _ => rfl) h
  | anyChar multiline => exact text_sound hB he rfl (fun _ => rfl) h
  | anchor a =>
    obtain ⟨hi, rfl⟩ := h
    rw [hB.code, ← he] at hi
    intro n hn c hc hg hthen
    refine going_anchor (hc.ip ▸ hi) (fun hok m hm => ?_) hg.failing
    exact hthen.step hg hm (by rw [hc.ip]) ⟨hok, rfl⟩ rfl rfl (.refl _)
  | keep =>
    obtain ⟨hi, rfl⟩ := h
    rw [hB.code, ← he] at hi
    intro n hn c hc hg hthen
    refine going_keep (hc.ip ▸ hi) fun m hm => ?_
    have hundo : ∀ r, c.regs.Keeps u.loose r →
        c.regs.Keeps u.loose (r.undo e.program (.keep c.regs.keep)) :=
      fun r hr => ⟨hr.slots, hr.counts, hr.depth, hr.start⟩
    have hkeep : ∀ k : Option Nat, c.regs.Keeps u.loose { c.regs with keep := k } := fun _ =>
      ⟨rfl, rfl, rfl, fun _ _ => rfl⟩
    refine hthen m (by omega) _ (by rw [← hc.ip]) rfl ?_ ?_
    · exact Leaves.under (.of_frames z u.admits_loose rfl rfl (.refl _)) rfl rfl trivial (by simp)
        ((hkeep _).onward _ _ u.covers) fun r hr => hundo r ((hkeep _).trans hr)
    · exact (hg.mono (Nat.le_of_lt hm)).undo rfl rfl rfl fun r hr => hundo r ((hkeep _).trans hr)
  | backref target groups fold =>
    obtain ⟨hi, rfl⟩ := h
    rw [hB.code, ← he] at hi
    intro n hn c hc hg hthen
    refine going_backref (hc.ip ▸ hi) (fun m hm k hk => ?_) hg.failing
    exact hthen.step hg hm (by rw [hc.ip]) hk rfl rfl (.refl _)
  | call target g => exact call_sound hB hcalls he hloose h

/-! ## Constructs -/

/-- A repeat of any character may be a single instruction. -/
theorem loop_sound (peek : Option UInt8) (mode : RepeatMode) (b : Bounds) (way : Way)
    (hB : Serves p B) (he : e.program = p) (hu : u.loops = B.loops.size) {body : Node Measured}
    (hbody : Solid Goal N e u u.loose (B.NodeAt none body) ((B.reading e).extent (calls e) body)) :
    Solid Goal N e u u.loose (B.LoopAt (Compile.anyCharsCode? mode (repeatPlan b body) peek body)
        (B.RepeatAt b (mode != .lazy) (repeatPlan b body) body.info way (B.NodeAt none body)))
      (((B.reading e).extent (calls e) body).atLeast b.least) := by
  intro φ later z x y hz h
  have hcode : B.code = e.program.code := he ▸ hB.code
  rcases h with ⟨i, hany, hi, rfl⟩ | ⟨-, h⟩
  · unfold Compile.anyCharsCode? at hany
    split at hany
    · rename_i note multiline
      split at hany
      · cases hany
      · rename_i hmode
        simp only [Bool.or_eq_true, beq_iff_eq, bne_iff_ne, ne_eq, not_or, Decidable.not_not]
          at hmode
        obtain rfl : b = ⟨0, none⟩ := by
          obtain ⟨min, max⟩ := b
          have hplan := hmode.2
          unfold repeatPlan at hplan
          split at hplan <;> first | cases hplan; done | skip
          · rename_i hmin hmax
            exact congrArg₂ Bounds.mk hmin hmax
          · split at hplan <;> cases hplan
        rw [hcode] at hi
        cases peek with
        | none =>
          cases hany
          exact sure_takeAny hi rfl fun _ => rfl
        | some c =>
          cases hany
          exact sure_takeAny hi rfl fun _ => rfl
    · cases hany
  · refine sure_repeat body hcode (fun id l hl => ?_) hz hbody h
    exact ⟨hu ▸ (Array.getElem?_eq_some_iff.mp hl).1, he ▸ hB.loops id l hl⟩

theorem capture_sound (hB : Serves p B) (hcalls : Callable Goal N p B calls) {g : Nat}
    {numbers : List Nat} {body : Part} {f : Setting → Extent} (hg : g ∉ numbers)
    (honward : ∀ e p q, f e p q → p ≤ q) (hbody : Sound Goal N p B numbers body f) :
    Sound Goal N p B (g :: numbers) (B.CaptureAt g body) fun e =>
      if (B.reading e).called g then calls e g else f e := by
  intro e u he hu hheld φ later z x y hz h
  have hcode : B.code = e.program.code := he ▸ hB.code
  unfold Built.CaptureAt at h
  by_cases hcalled : B.layout.calls.isCalled g = true
  · rw [if_pos hcalled] at h
    have := call_sound (φ := φ) (z := z) hB hcalls he hheld.restored h
    refine Sure.widen ?_ fun _ => Or.inl
    simpa only [Built.reading, hcalled, ↓reduceIte] using this
  · rw [if_neg hcalled] at h
    obtain ⟨w, hstart, hinside, hend, rfl⟩ := h
    rw [hcode] at hstart hend
    have hlt := he ▸ hB.groups x g _ (he ▸ hstart)
    have hapart := hheld.apart g (by simp)
    have hin := hheld.without hg hapart
    have : Sure Goal N e u (loosened B.layout.undone u.loose (g :: numbers)) φ z x (w + 1) (f e) :=
      sure_grouped _ hz hlt hstart hend rfl (fun _ => rfl) (honward e) hapart
      (hheld.entered g (by simp)) hin.admits
      (fun k => Or.imp id (And.imp_left (List.mem_cons_of_mem g)))
      (fun hplain => Or.inr ⟨by simp, hplain⟩)
      (hbody e (u.without g hapart) he hu hin φ later z (x + 1) w hz hinside)
    simpa only [Built.reading, hcalled, Bool.false_eq_true, ↓reduceIte] using this

/-- A branch before others leaves them as an alternative, and jumps over them at its end. -/
theorem branch_sound (hB : Serves p B) (he : e.program = p) (hz : z.Ok) {w : Addr} {f g : Extent}
    (hfork : B.code[x]? = some (.fork (w + 1))) (hjump : B.code[w]? = some (.jump y))
    (hf : Sure Goal N e u u.loose φ z (x + 1) w f)
    (hg : Sure Goal N e u u.loose φ z (w + 1) y g) :
    Sure Goal N e u u.loose φ z x y (f.orElse g) := by
  rw [hB.code, ← he] at hfork hjump
  intro n hn c hc hgr hthen
  refine hc.fork (u := u) hgr hfork (fun m hm d hip hpos hl hgd => ?_) fun m hm d hip hpos hl hgd => ?_
  · refine hf m (by omega) d (hc.after hz hl hip) hgd fun k hk d' hip' hf' hl' hgd' => ?_
    refine going_jump (hip' ▸ hjump) fun j hj => ?_
    exact hthen j (by omega) _ rfl (Or.inl (hpos ▸ hf'))
      ((hl.trans hl').trans (.of_frames z u.admits_loose rfl rfl (.refl _)))
      ((hgd'.mono (Nat.le_of_lt hj)).keeps rfl rfl (.refl _))
  · exact hg m (by omega) d (hc.after hz hl hip) hgd fun k hk d' hip' hg' hl' hgd' =>
      hthen k (by omega) d' hip' (Or.inr (hpos ▸ hg')) (hl.trans hl') hgd'

/-! ## Trees -/

/-- All groups of a lookaround that is not on the path are restored. -/
theorem Secure.aside {undone : Array Bool} {onPath : Bool} {n : Node Measured}
    (h : n.Secure undone onPath) (haside : n.isAside = true) :
    ∀ g ∈ n.groupNumbers, undone.getD g true = true := by
  cases n with
  | look note k body =>
    have haside : (k.behind || k.negated) = true := haside
    rw [Node.Secure, haside, Bool.not_true, Bool.and_false] at h
    intro g hg
    rw [Node.groupNumbers_eq] at hg
    exact h.marked g (by simpa [Node.number?, Node.captured?, Node.children] using hg)
  | _ => cases haside

/-- Before a sequence, its first item leaves loose what the other items have, and may stand there. -/
theorem Scope.Holds.first {undone : Array Bool} {onPath : Bool} {n : Node Measured}
    {ns : List (Node Measured)} (h : u.Holds undone ((n :: ns).flatMap Node.groupNumbers))
    (hn : n.Secure undone onPath) (hns : Node.SecureAll undone onPath ns)
    (hapart : ∀ m ∈ ns, n.isAside = true ∨ m.isAside = true ∨ ∀ g ∈ n.groupNumbers, g ∉ m.groupNumbers)
    (hL : ∀ g, loosened undone u.loose (ns.flatMap Node.groupNumbers) g → u.entered g) :
    (u.loosening (loosened undone u.loose (ns.flatMap Node.groupNumbers)) hL).Holds undone
      n.groupNumbers where
  restored g hg := hg.elim (h.restored g) And.right
  apart g hg hloose := by
    rcases hloose with hloose | ⟨hrest, hfalse⟩
    · exact h.apart g (by simp [hg]) hloose
    · obtain ⟨m, hm, hgm⟩ := List.mem_flatMap.mp hrest
      have hmarked : undone.getD g true = true := by
        rcases hapart m hm with haside | haside | hforeign
        · exact Secure.aside hn haside g hg
        · exact Secure.aside (Node.secureAll_iff.mp hns m hm) haside g hgm
        · exact absurd hgm (hforeign g hg)
      exact Bool.false_ne_true (hfalse.symm.trans hmarked)
  entered g hg := h.entered g (by simp [hg])

/-- Whatever is called, matches go forward. -/
def Forward (calls : Setting → Nat → Extent) : Prop :=
  ∀ e g p q, calls e g p q → Extent.onward e.subject.size p q

mutual

/-- The code of a tree is safe for the extents of the tree. -/
theorem node_sound (hB : Serves p B) (hcalls : Callable Goal N p B calls)
    (honward : Forward calls) : ∀ (n : Node Measured) (onPath : Bool) (peek : Option UInt8),
    n.Secure B.layout.undone onPath → n.Apart →
    Sound Goal N p B n.groupNumbers (B.NodeAt peek n) fun e => (B.reading e).extent (calls e) n
  | .atom _ a, _, peek, _, _ => by
    intro e u he hu hheld φ later z x y hz h
    exact (atom_sound hB hcalls he hheld.restored h).widen fun _ => Or.inl
  | .repeated note b mode body, _, peek, hs, ha => by
    rw [Node.Secure] at hs
    have hbody := node_sound hB hcalls honward body false none hs (ha.child (List.mem_singleton.mpr rfl))
    have hsub := Node.groupNumbers_child (n := .repeated note b mode body) (List.mem_singleton.mpr rfl)
    intro e u he hu hheld φ later z x y hz h
    have hloop := loop_sound peek mode b (B.scene.ways body) hB he hu
      (hbody.still hs.marked he hu (hheld.subset hsub))
    rw [Built.NodeAt] at h
    refine Sure.widen ?_ fun _ => Or.inl
    split at h
    · exact sure_atomic (he ▸ hB.code) hz hloop h
    · exact hloop φ later z x y hz h
  | .group _ (.capture g _) body, _, peek, hs, ha => by
    rw [Node.Secure] at hs
    have hbody := node_sound hB hcalls honward body _ none hs.2 (ha.child (List.mem_singleton.mpr rfl))
    have := capture_sound hB hcalls (Node.isApart_capture.mp ha.self)
      (fun e p q h => ((B.reading e).extent_onward (honward e) body p q h).1) hbody
    intro e u he hu hheld φ later z x y hz h
    rw [Node.groupNumbers_capture] at hheld ⊢
    rw [Built.NodeAt] at h
    exact this e u he hu hheld φ later z x y hz h
  | .group _ .plain body, _, peek, hs, ha => by
    rw [Node.Secure] at hs
    have hbody := node_sound hB hcalls honward body _ none hs (ha.child (List.mem_singleton.mpr rfl))
    intro e u he hu hheld φ later z x y hz h
    rw [Built.NodeAt] at h
    exact (hbody.grow (Node.groupNumbers_child (List.mem_singleton.mpr rfl))) e u he hu hheld φ
      later z x y hz h
  | .group _ .atomic body, _, peek, hs, ha => by
    rw [Node.Secure] at hs
    have hbody := node_sound hB hcalls honward body _ none hs (ha.child (List.mem_singleton.mpr rfl))
    intro e u he hu hheld φ later z x y hz h
    rw [Built.NodeAt] at h
    exact sure_atomic (he ▸ hB.code) hz
      (hbody.grow (Node.groupNumbers_child (List.mem_singleton.mpr rfl)) e u he hu hheld) h
  | .group note .absent body, _, peek, hs, ha => by
    rw [Node.Secure] at hs
    have hbody := node_sound hB hcalls honward body _ none hs (ha.child (List.mem_singleton.mpr rfl))
    have hsub := Node.groupNumbers_child (n := .group note .absent body) (List.mem_singleton.mpr rfl)
    intro e u he hu hheld φ later z x y hz h
    rw [Built.NodeAt] at h
    have hinner : ∀ e' : Setting, e'.program = e.program → Solid Goal N e' u u.loose
        (B.NodeAt none body) ((B.reading e').extent (calls e') body) := fun e' he' =>
      hbody.still hs.marked (he'.trans he) hu (hheld.subset hsub)
    exact (sure_absent (he ▸ hB.code) hz hinner h).widen fun _ => Or.inl
  | .conditional note t gs yes no, _, peek, hs, ha => by
    rw [Node.Secure] at hs
    have hyes := node_sound hB hcalls honward yes false none hs.1 (ha.child (by simp [Node.children]))
    have hno := option_sound hB hcalls honward no hs.2 fun c hc => ha.child (by simp [Node.children, Option.mem_def.mp hc])
    have hparts : ∀ c ∈ (Node.conditional note t gs yes no).children,
        ∀ g ∈ c.groupNumbers, g ∈ (Node.conditional note t gs yes no).groupNumbers := fun c hc =>
      Node.groupNumbers_child hc
    intro e u he hu hheld φ later z x y hz h
    rw [Built.NodeAt] at h
    refine (sure_conditional (he ▸ hB.code) hz ?_ ?_ h).widen fun _ => Or.inl
    · exact hyes.still hs.1.marked he hu (hheld.subset (hparts yes (by simp [Node.children])))
    · refine hno e u he hu fun c hc => hheld.subset (hparts c (by simp [Node.children, Option.mem_def.mp hc]))
  | .look _ k body, _, peek, hs, ha => by
    rw [Node.Secure] at hs
    have hbody := node_sound hB hcalls honward body _ none hs (ha.child (List.mem_singleton.mpr rfl))
    intro e u he hu hheld φ later z x y hz h
    rw [Built.NodeAt] at h
    exact sure_look (he ▸ hB.code) hz hheld.admits
      (hbody.grow (Node.groupNumbers_child (List.mem_singleton.mpr rfl)) e u he hu hheld) h
  | .sequence _ items, _, peek, hs, ha => by
    rw [Node.Secure] at hs
    have hitems := sequence_sound hB hcalls honward items _ hs (Node.isApart_sequence.mp ha.self) fun c hc => ha.child hc
    intro e u he hu hheld φ later z x y hz h
    rw [Built.NodeAt] at h
    exact (hitems.grow fun g hg => by rwa [Node.groupNumbers_eq]) e u he hu hheld φ later z x y hz h
  | .alternation _ [], _, peek, _, _ => by
    intro e u he hu hheld φ later z x y hz h
    rw [Built.NodeAt, Built.BranchesAt] at h
    obtain rfl : x = y := h
    exact sure_here.widen fun _ => Or.inl
  | .alternation _ (n :: ns), _, peek, hs, ha => by
    rw [Node.Secure] at hs
    have hbranches := branches_sound hB hcalls honward (n :: ns) nofun hs fun c hc => ha.child hc
    intro e u he hu hheld φ later z x y hz h
    rw [Built.NodeAt] at h
    refine (hbranches e u he hu ?_ φ later z x y hz h).widen fun _ => Or.inl
    exact fun c hc => hheld.subset (Node.groupNumbers_child hc)

/-- What is off the path makes nothing loose. -/
theorem option_sound (hB : Serves p B) (hcalls : Callable Goal N p B calls)
    (honward : Forward calls) : ∀ no : Option (Node Measured), Node.SecureOption B.layout.undone no →
    (∀ c ∈ no, c.Apart) → ∀ (e : Setting) (u : Scope), e.program = p → u.loops = B.loops.size →
    (∀ c ∈ no, u.Holds B.layout.undone c.groupNumbers) →
    Solid Goal N e u u.loose (B.OptionAt no) ((B.reading e).extentOption (calls e) no)
  | none, _, _ => by
    intro e u he hu hheld φ later z x y hz h
    rw [Built.OptionAt] at h
    obtain rfl : x = y := h
    exact sure_here
  | some n, hs, ha => by
    rw [Node.SecureOption] at hs
    have hn := node_sound hB hcalls honward n false none hs (ha n rfl)
    intro e u he hu hheld φ later z x y hz h
    rw [Built.OptionAt] at h
    exact hn.still hs.marked he hu (hheld n rfl) φ later z x y hz h

theorem sequence_sound (hB : Serves p B) (hcalls : Callable Goal N p B calls)
    (honward : Forward calls) : ∀ (ns : List (Node Measured)) (onPath : Bool),
    Node.SecureAll B.layout.undone onPath ns →
    (ns.Pairwise fun a b => a.isAside = true ∨ b.isAside = true ∨
      ∀ g ∈ a.groupNumbers, g ∉ b.groupNumbers) → (∀ c ∈ ns, c.Apart) →
    Sound Goal N p B (ns.flatMap Node.groupNumbers) (B.SequenceAt ns) fun e =>
      (B.reading e).extentAll (calls e) ns
  | [], _, _, _, _ => by
    intro e u he hu hheld φ later z x y hz h
    rw [Built.SequenceAt] at h
    obtain rfl : x = y := h
    exact sure_here.widen fun _ => Or.inl
  | n :: ns, onPath, hs, hp, ha => by
    rw [Node.SecureAll] at hs
    obtain ⟨hfirst, hp⟩ := List.pairwise_cons.mp hp
    intro e u he hu hheld φ later z x y hz h
    rw [Built.SequenceAt] at h
    obtain ⟨w, hn, hns⟩ := h
    have hrest : u.Holds B.layout.undone (ns.flatMap Node.groupNumbers) :=
      hheld.subset fun g hg => by simp [List.mem_flatMap.mp hg]
    have hv := hheld.first hs.1 hs.2 hfirst hrest.admits.entered
    have hhead := node_sound hB hcalls honward n onPath _ hs.1 (ha n (by simp)) e
      (u.loosening _ hrest.admits.entered) he hu hv φ _ z x w hz hn
    have htail := sequence_sound hB hcalls honward ns onPath hs.2 hp (fun c hc => ha c (List.mem_cons_of_mem _ hc)) e u
      he hu hrest φ later z w y hz hns
    refine (hhead.andThen hz (u.loosening_inside _ hrest.admits.entered) htail).widen fun g hg => ?_
    rcases hg with (hg | hg) | hg
    · exact Or.inl hg
    · exact Or.inr ⟨by simp [List.mem_flatMap.mp hg.1], hg.2⟩
    · exact Or.inr ⟨by simp [hg.1], hg.2⟩

theorem branches_sound (hB : Serves p B) (hcalls : Callable Goal N p B calls)
    (honward : Forward calls) : ∀ ns : List (Node Measured), ns ≠ [] →
    Node.SecureAll B.layout.undone false ns → (∀ c ∈ ns, c.Apart) →
    ∀ (e : Setting) (u : Scope), e.program = p → u.loops = B.loops.size →
    (∀ c ∈ ns, u.Holds B.layout.undone c.groupNumbers) →
    Solid Goal N e u u.loose (B.BranchesAt ns) ((B.reading e).extentSome (calls e) ns)
  | [], h, _, _ => absurd rfl h
  | [n], _, hs, ha => by
    rw [Node.SecureAll] at hs
    have hn := node_sound hB hcalls honward n false none hs.1 (ha n (by simp))
    intro e u he hu hheld φ later z x y hz h
    rw [Built.BranchesAt] at h
    exact (hn.still hs.1.marked he hu (hheld n (by simp)) φ later z x y hz h).weaken
      fun _ _ => Or.inl
  | n :: m :: ns, _, hs, ha => by
    rw [Node.SecureAll] at hs
    have hn := node_sound hB hcalls honward n false none hs.1 (ha n (by simp))
    have hns := branches_sound hB hcalls honward (m :: ns) nofun hs.2 fun c hc => ha c (List.mem_cons_of_mem _ hc)
    intro e u he hu hheld φ later z x y hz h
    rw [Built.BranchesAt] at h
    obtain ⟨w, hfork, hcode, hjump, hrest⟩ := h
    exact branch_sound hB he hz hfork hjump
      (hn.still hs.1.marked he hu (hheld n (by simp)) φ later z (x + 1) w hz hcode)
      (hns e u he hu (fun c hc => hheld c (List.mem_cons_of_mem _ hc)) φ later z (w + 1) y hz hrest)

end

end Machine
end RegexMachine
