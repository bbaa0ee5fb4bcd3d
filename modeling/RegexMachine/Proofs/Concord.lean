import RegexMachine.Proofs.Observers
import RegexMachine.Proofs.Leavings

/-!
Two pieces of code in concord: entered at the same place of the subject they come to their ends at the
same places, in the same order, whoever observes them. Each piece may count rounds as it likes, as long
as it gives the counts back.
-/
namespace RegexMachine.Machine

variable {e e' : Setting} {O : Observer e e'} {N n m hi hi' : Nat} {z z' ζ ζ' : Zone}
  {x x' y y' w w' : Nat} {c c' d d' b b' : Core} {p p' : Program} {M M' : List Memento}

/-! ## One run -/

/-- What code leaves behind that was entered in one core and has come to its end in another: frames of
completed code with some mementos, which give the counts back. Its loops have numbers from those of the
zone on and below `hi`. -/
structure Spent (p : Program) (hi : Nat) (z : Zone) (M : List Memento) (c d : Core) : Prop where
  size : d.regs.counts.size = c.regs.counts.size
  counts : ∀ id, id < z.loops ∨ hi ≤ id → d.regs.counts[id]? = c.regs.counts[id]?
  depth : d.regs.depth = c.regs.depth
  frames : ∃ F K, d.frames = F ++ K ∧ Settled c.frames K ∧ Tidy z.checks F ∧ mementos p F = M ∧
    ∀ r : Registers, r.ledger = d.regs.ledger → (r.undoAll p F).ledger = c.regs.ledger

namespace Spent

/-- Nothing has been left on the stack. -/
theorem of_eq (hf : d.frames = c.frames) (hk : d.regs.ledger = c.regs.ledger) :
    Spent p hi z [] c d := by
  have hcounts : d.regs.counts = c.regs.counts := congrArg Prod.fst hk
  exact ⟨by rw [hcounts], fun _ _ => by rw [hcounts], congrArg Prod.snd hk, [], c.frames, hf, .refl _,
    .nil _, rfl, fun _ h => h.trans hk⟩

/-- A frame was put on the stack. -/
theorem push (f : Frame) (hf : d.frames = f :: c.frames) (hplain : f.Plain z.checks)
    (hk : d.regs.ledger = c.regs.ledger)
    (hundo : ∀ r : Registers, (r.undo p f).ledger = r.ledger) :
    Spent p hi z (mementos p [f]) c d := by
  have hcounts : d.regs.counts = c.regs.counts := congrArg Prod.fst hk
  exact ⟨by rw [hcounts], fun _ _ => by rw [hcounts], congrArg Prod.snd hk, [f], c.frames, hf, .refl _,
    .single hplain, rfl, fun r h => (hundo r).trans (h.trans hk)⟩

theorem mono (h : Spent p hi ζ M c d) (hc : z.checks ≤ ζ.checks) (hl : z.loops ≤ ζ.loops) :
    Spent p hi z M c d := by
  obtain ⟨F, K, hd, hK, hF, hM, hundo⟩ := h.frames
  exact ⟨h.size, fun id hid => h.counts id (hid.imp_left (Nat.lt_of_lt_of_le · hl)), h.depth,
    F, K, hd, hK, hF.mono hc, hM, hundo⟩

theorem trans (h : Spent p hi z M c d) (h' : Spent p hi z M' d b) :
    Spent p hi z (M' ++ M) c b := by
  obtain ⟨F, K, hd, hK, hF, rfl, hundo⟩ := h.frames
  obtain ⟨G, L, hb, hL, hG, rfl, hundo'⟩ := h'.frames
  refine ⟨h'.size.trans h.size, fun id hid => (h'.counts id hid).trans (h.counts id hid),
    h'.depth.trans h.depth, ?_⟩
  rw [hd] at hL
  rcases hL.of_append with ⟨F', hF', rfl⟩ | ⟨hvoid, hKL⟩
  · refine ⟨G ++ F', K, by rw [hb, List.append_assoc], hK, ?_, ?_, fun r hr => ?_⟩
    · obtain ⟨vs, hvs, rfl⟩ := hF'
      exact hG.append (hF.dropVoids hvs)
    · obtain ⟨vs, hvs, rfl⟩ := hF'
      rw [mementos_append, mementos_append, mementos_voids hvs, List.nil_append]
    · rw [Registers.undoAll_append, Registers.undoAll_settled p hF']
      exact hundo _ (hundo' r hr)
  · refine ⟨G, L, hb, hK.trans hKL, hG, ?_, fun r hr => ?_⟩
    · rw [mementos_voids hvoid, List.append_nil]
    · have := hundo _ (hundo' r hr)
      rwa [Registers.undoAll_voids p hvoid] at this

/-- What stands above a marker that was put on the stack first. -/
theorem above {f : Frame} {K : List Frame} (h : Spent p hi z M c d) (hf : c.frames = f :: K)
    (hne : f ≠ .void) : ∃ F, d.frames = F ++ f :: K ∧ Tidy z.checks F ∧ mementos p F = M ∧
      ∀ r : Registers, r.ledger = d.regs.ledger → (r.undoAll p F).ledger = c.regs.ledger := by
  obtain ⟨F, L, hd, hL, hF, hM, hundo⟩ := h.frames
  rw [hf] at hL
  obtain rfl := hL.eq_of_ne hne
  exact ⟨F, hd, hF, hM, hundo⟩

end Spent

/-- Frames of a region that was closed for good are undone as those of the region would be. -/
theorem sealed_parts {lo : Nat} {F : List Frame} (hF : Tidy lo F) (p : Program) (K : List Frame) :
    ∃ G K', sealed F K = G ++ K' ∧ Settled K K' ∧ Tidy lo G ∧ (∀ f ∈ G, f.isChoice = false) ∧
      mementos p G = mementos p F ∧ ∀ r : Registers, r.undoAll p G = r.undoAll p F := by
  have hsettled := sealed_settled F K
  obtain ⟨G, K', hG, hK, htidy, hchoice, hundo⟩ := Settled.region hF hsettled
  refine ⟨G, K', hG, hK, htidy, fun f hf => ?_, ?_, hundo p⟩
  · rcases hchoice f hf with rfl | ⟨f', -, rfl⟩
    · rfl
    · exact Frame.isChoice_committed f'
  · have drop {L L' : List Frame} (h : Settled L L') : mementos p L = mementos p L' := by
      obtain ⟨vs, hvs, rfl⟩ := h
      rw [mementos_append, mementos_voids hvs, List.nil_append]
    have hall := drop hsettled
    rw [hG, mementos_append, mementos_append, mementos_committed, ← drop hK] at hall
    exact (List.append_cancel_right hall).symm

/-! ## Two runs -/

/-- Two settings for the same search with different programs, which keep the same groups. -/
structure Partners (e e' : Setting) : Prop where
  quiet : Quiet e
  quiet' : Quiet e'
  subject : e'.subject = e.subject
  origin : e'.origin = e.origin
  callDepth : e'.limits.callDepth = e.limits.callDepth
  captures : e'.program.tables.captures = e.program.tables.captures
  history : e'.program.has .captureHistory = e.program.has .captureHistory
  unset : e'.program.has .unsetMatchesEmpty = e.program.has .unsetMatchesEmpty

/-- Two runs at two addresses and at the same place of the subject, with what is seen where they
backtrack. -/
structure Abreast (O : Observer e e') (n : Nat) (x x' : Addr) (c c' : Core) : Prop where
  ip : c.ip = x
  ip' : c'.ip = x'
  level : Level c c'
  room : c.regs.counts.size = e.program.tables.loops.size
  room' : c'.regs.counts.size = e'.program.tables.loops.size
  fallback : Fallback O n c.frames c'.frames c.regs.ledger c'.regs.ledger

/-- Two runs have left the same mementos. -/
def Gone (e e' : Setting) (hi hi' : Nat) (z z' : Zone) (c c' d d' : Core) : Prop :=
  ∃ M, Spent e.program hi z M c d ∧ Spent e'.program hi' z' M c' d'

/-- What is seen of two runs that have been entered in two cores and come to two addresses. -/
def Awaits (O : Observer e e') (n hi hi' : Nat) (z z' : Zone) (y y' : Addr) (c c' : Core) : Prop :=
  ∀ m ≤ n, ∀ d d', Abreast O m y y' d d' → Gone e e' hi hi' z z' c c' d d' →
    O.sees m (.ok d) (.ok d')

/-- What is seen of two runs that are resumed at two addresses, with the frames of two cores and what
those had to give back. -/
def Revives (O : Observer e e') (n : Nat) (a a' : Addr) (c c' : Core) : Prop :=
  ∀ m ≤ n, ∀ b b', Abreast O m a a' b b' → b.frames = c.frames → b'.frames = c'.frames →
    b.regs.ledger = c.regs.ledger → b'.regs.ledger = c'.regs.ledger → O.sees m (.ok b) (.ok b')

/-- From two addresses on the same is seen as from two others, to which the code leads. -/
def Concur (O : Observer e e') (N hi hi' : Nat) (z z' : Zone) (x x' y y' : Addr) : Prop :=
  ∀ n ≤ N, ∀ c c', O.Clears c.regs.depth x x' y y' → Abreast O n x x' c c' →
    Awaits O n hi hi' z z' y y' c c' → O.sees n (.ok c) (.ok c')

/-- Code of a shape goes from an address to a later one. -/
def Ascends (part : Part) : Prop := ∀ ⦃later z x y⦄, part none later z x y → x ≤ y

/-- Code of two shapes is in concord wherever it stands in two programs, on whatever they are run. -/
structure Accords (p p' : Program) (N hi hi' : Nat) (part part' : Part) : Prop where
  ascends : Ascends part
  ascends' : Ascends part'
  concur : ∀ ⦃e e'⦄ (O : Observer e e'), e.program = p → e'.program = p' → Partners e e' →
    ∀ ⦃later later' z z' x x' y y'⦄, part none later z x y → part' none later' z' x' y' →
      Concur O N hi hi' z z' x x' y y'

namespace Abreast

theorem depth (h : Abreast O n x x' c c') : c'.regs.depth = c.regs.depth := h.level.depth

theorem mono (h : Abreast O n x x' c c') (hm : m ≤ n) : Abreast O m x x' c c' :=
  ⟨h.ip, h.ip', h.level, h.room, h.room', h.fallback.mono hm⟩

/-- Both runs go on elsewhere, with the frames that they had and all that those give back. -/
theorem of_level (h : Abreast O n x x' c c') (hm : m ≤ n) (hip : d.ip = y) (hip' : d'.ip = y')
    (hl : Level d d') (hf : d.frames = c.frames) (hf' : d'.frames = c'.frames)
    (hk : d.regs.ledger = c.regs.ledger) (hk' : d'.regs.ledger = c'.regs.ledger) :
    Abreast O m y y' d d' := by
  have hcounts : d.regs.counts = c.regs.counts := congrArg Prod.fst hk
  have hcounts' : d'.regs.counts = c'.regs.counts := congrArg Prod.fst hk'
  refine ⟨hip, hip', hl, ?_, ?_, ?_⟩
  · rw [hcounts, h.room]
  · rw [hcounts', h.room']
  · rw [hf, hf', hk, hk']
    exact h.fallback.mono hm

/-- Both runs go on elsewhere, with what they had. -/
theorem goes (h : Abreast O n x x' c c') (hm : m ≤ n) (hip : d.ip = y) (hip' : d'.ip = y')
    (hpos : d'.pos = d.pos) (hf : d.frames = c.frames) (hf' : d'.frames = c'.frames)
    (hr : d.regs = c.regs) (hr' : d'.regs = c'.regs) : Abreast O m y y' d d' :=
  h.of_level hm hip hip' ⟨hpos, by rw [hr, hr', h.level.regs]⟩ hf hf' (by rw [hr]) (by rw [hr'])

/-- Frames that are undone, with the same mementos, were put on the stacks. -/
theorem push (h : Abreast O n x x' c c') (f f' : Frame) (hip : d.ip = y) (hip' : d'.ip = y')
    (hl : Level d d') (hf : d.frames = f :: c.frames) (hf' : d'.frames = f' :: c'.frames)
    (hchoice : f.isChoice = false) (hchoice' : f'.isChoice = false)
    (hsame : mementos e'.program [f'] = mementos e.program [f])
    (hsize : d.regs.counts.size = c.regs.counts.size)
    (hsize' : d'.regs.counts.size = c'.regs.counts.size)
    (hundo : ∀ r : Registers, r.ledger = d.regs.ledger →
      (r.undo e.program f).ledger = c.regs.ledger)
    (hundo' : ∀ r : Registers, r.ledger = d'.regs.ledger →
      (r.undo e'.program f').ledger = c'.regs.ledger) : Abreast O n y y' d d' := by
  refine ⟨hip, hip', hl, hsize.trans h.room, hsize'.trans h.room', ?_⟩
  rw [hf, hf']
  have hf : ∀ g ∈ [f], g.isChoice = false := fun g hg => List.mem_singleton.mp hg ▸ hchoice
  have hf' : ∀ g ∈ [f'], g.isChoice = false := fun g hg => List.mem_singleton.mp hg ▸ hchoice'
  exact h.fallback.under hf hf' hsame hundo hundo'

/-- Alternatives at the same place of the subject were put on the stacks. -/
theorem leave {a a' : Addr} {q : Nat} (h : Abreast O n x x' c c')
    (halt : Revives O n a a' c c') (hip : d.ip = y) (hip' : d'.ip = y') (hpos : d'.pos = d.pos)
    (hf : d.frames = .alternative a q :: c.frames) (hf' : d'.frames = .alternative a' q :: c'.frames)
    (hr : d.regs = c.regs) (hr' : d'.regs = c'.regs) : Abreast O n y y' d d' := by
  refine ⟨hip, hip', ⟨hpos, by rw [hr, hr', h.level.regs]⟩, ?_, ?_, ?_⟩
  · rw [hr, h.room]
  · rw [hr', h.room']
  · rw [hf, hf', hr, hr']
    refine .alternative fun m hm b b' hb hip hip' _ hframes hframes' hk hk' => ?_
    exact halt m hm b b' (h.of_level hm hip hip' hb hframes hframes' hk hk') hframes hframes' hk hk'

/-- Neither run is watched where it is. -/
theorem passes (h : Abreast O n x x' c c') (hfree : O.Clears c.regs.depth x x' y y') (hlt : x < y)
    (hlt' : x' < y') : ¬ c.StopsAt O.stop ∧ ¬ c'.StopsAt O.stop' := by
  refine ⟨hfree.left.passes (Nat.le_of_eq h.ip.symm) (h.ip ▸ hlt), ?_⟩
  have hright := hfree.right
  rw [← h.depth] at hright
  exact hright.passes (Nat.le_of_eq h.ip'.symm) (h.ip' ▸ hlt')

/-- Both runs execute an instruction. -/
theorem step (h : Abreast O n x x' c c') (hfree : O.Clears c.regs.depth x x' y y') (hlt : x < y)
    (hlt' : x' < y') {i i' : Instr} {v v' : Except Ending Point}
    (hi₁ : e.program.code[x]? = some i) (hi₂ : e'.program.code[x']? = some i')
    (hact : ∀ spans, c.act e spans i = v) (hact' : ∀ spans, c'.act e' spans i' = v')
    (hnext : ∀ m < n, O.sees m (outcome e v) (outcome e' v')) : O.sees n (.ok c) (.ok c') := by
  obtain ⟨hs, hs'⟩ := h.passes hfree hlt hlt'
  exact O.both (stepsTo_act (h.ip ▸ hi₁) hs hact) (stepsTo_act (h.ip' ▸ hi₂) hs' hact') hnext

/-- Where both runs fail they backtrack. -/
theorem failing (h : Abreast O n x x' c c') (hm : m ≤ n) :
    O.sees m (resumeFrom e c.frames c) (resumeFrom e' c'.frames c') :=
  h.fallback m hm c c' h.level rfl rfl

end Abreast

namespace Gone

theorem of_eq (hf : d.frames = c.frames) (hk : d.regs.ledger = c.regs.ledger)
    (hf' : d'.frames = c'.frames) (hk' : d'.regs.ledger = c'.regs.ledger) :
    Gone e e' hi hi' z z' c c' d d' := ⟨[], .of_eq hf hk, .of_eq hf' hk'⟩

theorem refl (c c' : Core) : Gone e e' hi hi' z z' c c' c c' := .of_eq rfl rfl rfl rfl

theorem trans (h : Gone e e' hi hi' z z' c c' d d') (h' : Gone e e' hi hi' z z' d d' b b') :
    Gone e e' hi hi' z z' c c' b b' := by
  obtain ⟨M, hl, hr⟩ := h
  obtain ⟨M', hl', hr'⟩ := h'
  exact ⟨M' ++ M, hl.trans hl', hr.trans hr'⟩

/-- Frames with the same mementos were put on the stacks. -/
theorem push (f f' : Frame) (hf : d.frames = f :: c.frames) (hf' : d'.frames = f' :: c'.frames)
    (hplain : f.Plain z.checks) (hplain' : f'.Plain z'.checks)
    (hsame : mementos e'.program [f'] = mementos e.program [f])
    (hk : d.regs.ledger = c.regs.ledger) (hk' : d'.regs.ledger = c'.regs.ledger)
    (hundo : ∀ r : Registers, (r.undo e.program f).ledger = r.ledger)
    (hundo' : ∀ r : Registers, (r.undo e'.program f').ledger = r.ledger) :
    Gone e e' hi hi' z z' c c' d d' :=
  ⟨mementos e.program [f], .push f hf hplain hk hundo, hsame ▸ .push f' hf' hplain' hk' hundo'⟩

theorem mono (h : Gone e e' hi hi' ζ ζ' c c' d d') (hc : z.checks ≤ ζ.checks)
    (hl : z.loops ≤ ζ.loops) (hc' : z'.checks ≤ ζ'.checks) (hl' : z'.loops ≤ ζ'.loops) :
    Gone e e' hi hi' z z' c c' d d' := by
  obtain ⟨M, h, h'⟩ := h
  exact ⟨M, h.mono hc hl, h'.mono hc' hl'⟩

theorem depth (h : Gone e e' hi hi' z z' c c' d d') : d.regs.depth = c.regs.depth := by
  obtain ⟨M, h, -⟩ := h
  exact h.depth

end Gone

namespace Awaits

theorem mono (h : Awaits O n hi hi' z z' y y' c c') (hm : m ≤ n) :
    Awaits O m hi hi' z z' y y' c c' := fun k hk => h k (Nat.le_trans hk hm)

/-- What is left to wait for. -/
theorem rest (h : Awaits O n hi hi' z z' y y' c c') (hm : m ≤ n)
    (hg : Gone e e' hi hi' z z' c c' d d') : Awaits O m hi hi' z z' y y' d d' :=
  fun k hk b b' hb hg' => h k (Nat.le_trans hk hm) b b' hb (hg.trans hg')

/-- The end has been reached. -/
theorem here (h : Awaits O n hi hi' z z' y y' c c') (hm : m ≤ n)
    (hd : Abreast O m y y' d d') (hg : Gone e e' hi hi' z z' c c' d d') :
    O.sees m (.ok d) (.ok d') := h m hm d d' hd hg

theorem revives (h : Awaits O n hi hi' z z' y y' c c') : Revives O n y y' c c' :=
  fun m hm b b' hb hf hf' hk hk' => h m hm b b' hb (.of_eq hf hk hf' hk')

/-- The end is the next place, where both runs have what they had. -/
theorem goes (h : Awaits O n hi hi' z z' y y' c c') (hc : Abreast O n x x' c c')
    (hm : m ≤ n) (hip : d.ip = y) (hip' : d'.ip = y') (hpos : d'.pos = d.pos)
    (hf : d.frames = c.frames) (hf' : d'.frames = c'.frames) (hr : d.regs = c.regs)
    (hr' : d'.regs = c'.regs) : O.sees m (.ok d) (.ok d') :=
  h.here hm (hc.goes hm hip hip' hpos hf hf' hr hr')
    (.of_eq hf (by rw [hr]) hf' (by rw [hr']))

end Awaits

namespace Concur

theorem mono (h : Concur O N hi hi' z z' x x' y y') (hm : m ≤ N) :
    Concur O m hi hi' z z' x x' y y' := fun k hk => h k (Nat.le_trans hk hm)

theorem stay : Concur O N hi hi' z z' x x' x x' :=
  fun n _ _ _ _ hc hwait => hwait.here (Nat.le_refl n) hc (.refl _ _)

/-- One piece of code after another. -/
theorem andThen (h : Concur O N hi hi' z z' x x' w w') (h' : Concur O N hi hi' z z' w w' y y')
    (hx : x ≤ w) (hy : w ≤ y) (hx' : x' ≤ w') (hy' : w' ≤ y') :
    Concur O N hi hi' z z' x x' y y' := by
  intro n hn c c' hfree hc hwait
  have hfirst := hfree.inside (Nat.le_refl x) hy (Nat.le_refl x') hy'
  refine h n hn c c' hfirst hc fun m hm d d' hd hg => ?_
  have hrest := hfree.inside hx (Nat.le_refl y) hx' (Nat.le_refl y')
  rw [← hg.depth] at hrest
  exact h' m (Nat.le_trans hm hn) d d' hrest hd (hwait.rest hm hg)

end Concur
end RegexMachine.Machine
