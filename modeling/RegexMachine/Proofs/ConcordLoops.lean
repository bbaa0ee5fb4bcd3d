import RegexMachine.Proofs.ConcordSteps

/-!
Loops in concord. A loop is a wheel: at each of its heads so many rounds are still required, and so
many more allowed. What the wheel does at a head is told by these numbers, whatever code says it, and
two wheels that stand at heads with the same numbers are in concord if their rounds are.
-/
namespace RegexMachine.Machine

variable {e e' : Setting} {O : Observer e e'} {N n m hi hi' : Nat} {z z' ζ ζ' : Zone}
  {x x' y y' w w' : Nat} {c c' d d' : Core} {p p' : Program} {B B' : Built} {s : Stop}

/-! ## Rounds -/

/-- Rounds in concord. Both come to the end of the round, or past the instruction there if a round is
over that made no progress. -/
def Turns (O : Observer e e') (N hi hi' : Nat) (z z' : Zone) (skips : Prop) (x x' w w' : Addr) : Prop :=
  ∀ n ≤ N, ∀ c c', O.Clears c.regs.depth x x' w w' → Abreast O n x x' c c' →
    Awaits O n hi hi' z z' w w' c c' → (skips → Awaits O n hi hi' z z' (w + 1) (w' + 1) c c') →
      O.sees n (.ok c) (.ok c')

theorem Concur.turns {skips : Prop} (h : Concur O N hi hi' z z' x x' w w') :
    Turns O N hi hi' z z' skips x x' w w' :=
  fun n hn c c' hfree hc hend _ => h n hn c c' hfree hc hend

theorem checkRound_tidy (captures : Bool) {id lo pos : Nat} {F K : List Frame}
    (hf : c.frames = F ++ .round id pos :: K) (hF : Tidy lo F) (hlt : id < lo) :
    c.checkRound id captures = .ok (.going (c.goTo
      (if pos == c.pos && !(captures && F.any (changed c.regs.captures)) then c.ip + 2
        else c.ip + 1))) :=
  atMarker_tidy .round _ hf hF (FrameStack.isRound_of_plain hlt) rfl (by simp [FrameStack.isRound])

theorem ascends_round {info : Info} {body : Part} (hbody : Ascends body) :
    Ascends (B.RoundAt info body) := by
  intro later z x y h
  unfold Built.RoundAt at h
  split at h
  · exact hbody h
  · obtain ⟨id, w, -, -, h, -, rfl⟩ := h
    have hle : x + 1 ≤ w := hbody h
    exact Nat.le_trans (Nat.le_succ x) (Nat.le_trans hle (Nat.le_succ w))

/-- Both runs agree on whether a round has made progress. -/
theorem turns_round {info : Info} {body body' : Part} {later later' : Nat → Prop}
    (hB : B.code = e.program.code) (hB' : B'.code = e'.program.code) (hlayout : B'.layout = B.layout)
    (hpair : Partners e e') (hbody : Accords e.program e'.program N hi hi' body body')
    (h : B.RoundAt info body none later z x w) (h' : B'.RoundAt info body' none later' z' x' w') :
    Turns O N hi hi' z z' (info.minChars = 0) x x' w w' := by
  unfold Built.RoundAt at h h'
  by_cases hmin : 0 < info.minChars
  · rw [if_pos hmin] at h h'
    exact (hbody.concur O rfl rfl hpair h h').turns
  rw [if_neg hmin] at h h'
  obtain ⟨id, v, hid, hstart, hcode, hcheck, rfl⟩ := h
  obtain ⟨id', v', hid', hstart', hcode', hcheck', rfl⟩ := h'
  have hle : x + 1 ≤ v := hbody.ascends hcode
  have hle' : x' + 1 ≤ v' := hbody.ascends' hcode'
  rw [hB] at hstart hcheck
  rw [hB'] at hstart' hcheck'
  intro n hn c c' hfree hc hend hskip
  refine hc.step hfree (Nat.lt_succ_of_lt hle) (Nat.lt_succ_of_lt hle') hstart hstart' (fun _ => rfl)
    (fun _ => rfl) fun m hm => ?_
  let b := (c.push (.round id c.pos)).next
  let b' := (c'.push (.round id' c'.pos)).next
  have hb : Abreast O m (x + 1) (x' + 1) b b' :=
    (hc.mono (Nat.le_of_lt hm)).push (.round id c.pos) (.round id' c'.pos) (congrArg (· + 1) hc.ip)
      (congrArg (· + 1) hc.ip') ⟨hc.level.pos, hc.level.regs⟩ rfl rfl rfl rfl rfl rfl rfl
      (fun _ h => h) fun _ h => h
  have hbegun : Gone e e' hi hi' z z' c c' b b' :=
    .push (.round id c.pos) (.round id' c'.pos) rfl rfl hid hid' rfl rfl rfl (fun _ => rfl)
      fun _ => rfl
  have hinside : O.Clears b.regs.depth (x + 1) (x' + 1) v v' :=
    hfree.inside (Nat.le_succ x) (Nat.le_succ v) (Nat.le_succ x') (Nat.le_succ v')
  refine hbody.concur O rfl rfl hpair hcode hcode' m (by omega) b b' hinside hb
    fun k hk d d' hd hgone => ?_
  have hg : Gone e e' hi hi' z z' c c' d d' := hbegun.trans
    (hgone.mono (Nat.le_succ_of_le hid) (Nat.le_refl _) (Nat.le_succ_of_le hid') (Nat.le_refl _))
  have hcheckFree : O.Clears d.regs.depth v v' (v + 1) (v' + 1) := by
    rw [hg.depth]
    exact hfree.inside (Nat.le_of_succ_le hle) (Nat.le_refl _) (Nat.le_of_succ_le hle')
      (Nat.le_refl _)
  obtain ⟨M, hs, hs'⟩ := hgone
  obtain ⟨F, hf, hF, hM, -⟩ := hs.above rfl (by simp)
  obtain ⟨F', hf', hF', hM', -⟩ := hs'.above rfl (by simp)
  -- the marks of the round and the captures since are the same, and so is the verdict
  have hsame : F'.any (changed d'.regs.captures) = F.any (changed d.regs.captures) := by
    rw [any_changed e'.program, any_changed e.program, hM, hM', hd.level.captures]
  have hpos : (c'.pos == d'.pos) = (c.pos == d.pos) := by rw [hc.level.pos, hd.level.pos]
  have hturn := checkRound_tidy (B.layout.capturesMatter && info.traits.has .hasCapture)
    hf hF (Nat.lt_succ_self id)
  have hturn' := checkRound_tidy (B.layout.capturesMatter && info.traits.has .hasCapture)
    hf' hF' (Nat.lt_succ_self id')
  rw [hlayout] at hcheck'
  rw [hsame, hpos] at hturn'
  refine hd.step hcheckFree (Nat.lt_succ_self v) (Nat.lt_succ_self v') hcheck hcheck' (fun _ => hturn)
    (fun _ => hturn') fun j hj => ?_
  have hto {a a' : Addr} (hwait : Awaits O n hi hi' z z' a a' c c') :
      O.sees j (.ok (d.goTo a)) (.ok (d'.goTo a')) :=
    (hwait.rest (show k ≤ n by omega) hg).goes hd (Nat.le_of_lt hj) rfl rfl hd.level.pos rfl rfl rfl rfl
  rw [← hd.ip, ← hd.ip'] at hend hskip
  cases hempty : c.pos == d.pos && !(B.layout.capturesMatter && info.traits.has .hasCapture &&
      F.any (changed d.regs.captures)) with
  | true => exact hto (hskip (by omega))
  | false => exact hto hend

/-! ## Wheels -/

/-- What a loop does between rounds: it leaves nothing but records of counts. -/
structure Slips (e : Setting) (hi : Nat) (z : Zone) (c d : Core) : Prop where
  pos : d.pos = c.pos
  regs : d.regs.uncounted = c.regs.uncounted
  size : d.regs.counts.size = c.regs.counts.size
  counts : ∀ id, id < z.loops ∨ hi ≤ id → d.regs.counts[id]? = c.regs.counts[id]?
  frames : ∃ F, d.frames = F ++ c.frames ∧ Tidy z.checks F ∧ (∀ f ∈ F, f.isChoice = false) ∧
    mementos e.program F = [] ∧
    ∀ r : Registers, r.ledger = d.regs.ledger → (r.undoAll e.program F).ledger = c.regs.ledger

theorem Slips.moved (e : Setting) (hi : Nat) (z : Zone) (c : Core) (a : Addr) :
    Slips e hi z c { c with ip := a } :=
  ⟨rfl, rfl, rfl, fun _ _ => rfl, [], rfl, .nil _, by simp, rfl, fun _ h => h⟩

theorem Slips.depth (h : Slips e hi z c d) : d.regs.depth = c.regs.depth :=
  (congrArg Registers.depth h.regs :)

theorem Slips.spent (h : Slips e hi z c d) : Spent e.program hi z [] c d := by
  obtain ⟨F, hf, hF, -, hM, hundo⟩ := h.frames
  exact ⟨h.size, h.counts, h.depth, F, c.frames, hf, .refl _, hF, hM, hundo⟩

theorem Abreast.slips (h : Abreast O n x x' c c') (hs : Slips e hi z c d)
    (hs' : Slips e' hi' z' c' d') (hip : d.ip = y) (hip' : d'.ip = y') :
    Abreast O n y y' d d' := by
  obtain ⟨F, hf, -, hchoice, hM, hundo⟩ := hs.frames
  obtain ⟨F', hf', -, hchoice', hM', hundo'⟩ := hs'.frames
  refine ⟨hip, hip', h.level.of_eq hs.pos hs'.pos hs.regs hs'.regs, hs.size.trans h.room,
    hs'.size.trans h.room', ?_⟩
  rw [hf, hf']
  exact h.fallback.under hchoice hchoice' (hM'.trans hM.symm) hundo hundo'

/-- A round begins at an address, with what is to be given back there. Where it ends, the loop is at a
head again. -/
def Rolls (e : Setting) (s : Stop) (hi : Nat) (z : Zone) (y : Addr) (Round : Zone → Addr → Addr → Prop)
    (skips : Prop) (Next : Core → Prop) (k : Array Nat × Nat) (o : Addr) : Prop :=
  ∃ ζ w, Round ζ o w ∧ s.Clears k.2 o w ∧ z.checks ≤ ζ.checks ∧ z.loops ≤ ζ.loops ∧
    (skips → w + 1 = y) ∧
    ∀ a b M, a.regs.ledger = k → Spent e.program hi ζ M a b → b.ip = w → Next b

/-- A loop that is left at `y`, seen at its heads: by how many rounds are still required there, and how
many more are allowed, if there is a bound. Where rounds may be skipped over, that leads out of the
loop. -/
structure Wheel (e : Setting) (s : Stop) (hi : Nat) (z : Zone) (greedy : Bool) (y : Addr)
    (Round : Zone → Addr → Addr → Prop) (skips : Prop) where
  Head : Nat → Option Nat → Core → Prop
  required : ∀ {r k c}, Head (r + 1) k c → ∃ d, Glides e s c d ∧ Slips e hi z c d ∧
    Rolls e s hi z y Round skips (Head r k) d.regs.ledger d.ip
  done : ∀ {c}, Head 0 (some 0) c → ∃ d, Glides e s c d ∧ Slips e hi z c d ∧ d.ip = y
  /-- The way that comes first is taken, the other one is left as an alternative. -/
  choice : ∀ {k c}, k ≠ some 0 → Head 0 k c → ∃ b d o a, Slips e hi z c d ∧
    Rolls e s hi z y Round skips (Head 0 (k.map (· - 1))) d.regs.ledger o ∧
    StepsTo e s c (.ok b) ∧
    Glides e s b { d with
      ip := if greedy then o else y, frames := .alternative a d.pos :: d.frames } ∧
    ∀ t : Core, t.ip = a → t.regs.depth = d.regs.depth →
      Glides e s t { t with ip := if greedy then y else o }

section

variable {greedy : Bool} {Round Round' : Zone → Addr → Addr → Prop} {skips : Prop}

/-- A round of both wheels, and what comes after it. -/
theorem Rolls.turn {Next Next' : Core → Prop} {o o' : Nat}
    (h : Rolls e O.stop hi z y Round skips Next d.regs.ledger o)
    (h' : Rolls e' O.stop' hi' z' y' Round' skips Next' d'.regs.ledger o')
    (hround : ∀ ζ ζ' o o' w w', Round ζ o w → Round' ζ' o' w' →
      Turns O N hi hi' ζ ζ' skips o o' w w') (hn : n ≤ N)
    (hd : Abreast O n o o' d d') (hwait : Awaits O n hi hi' z z' y y' d d')
    (hnext : ∀ m ≤ n, ∀ w w' b b', Next b → Next' b' → Abreast O m w w' b b' →
      Awaits O m hi hi' z z' y y' b b' → O.sees m (.ok b) (.ok b')) : O.sees n (.ok d) (.ok d') := by
  obtain ⟨ζ, w, hr, hfree, hc, hl, hskip, hafter⟩ := h
  obtain ⟨ζ', w', hr', hfree', hc', hl', hskip', hafter'⟩ := h'
  have hclear : O.Clears d.regs.depth o o' w w' := ⟨hfree, by rw [← hd.depth]; exact hfree'⟩
  refine hround ζ ζ' o o' w w' hr hr' n hn d d' hclear hd (fun m hm b b' hb hg => ?_)
    fun hs m hm b b' hb hg => ?_
  · have hwait' := hwait.rest hm (hg.mono hc hl hc' hl')
    obtain ⟨M, hspent, hspent'⟩ := hg
    exact hnext m hm w w' b b' (hafter d b M rfl hspent hb.ip) (hafter' d' b' M rfl hspent' hb.ip')
      hb hwait'
  · rw [hskip hs, hskip' hs] at hb
    exact hwait.here hm hb (hg.mono hc hl hc' hl')

/-- What is seen of two runs that go on at two addresses with what two cores have to give back. -/
def Goes (O : Observer e e') (n hi hi' : Nat) (z z' : Zone) (a a' : Addr) (c c' : Core) : Prop :=
  ∀ m ≤ n, ∀ d d', Abreast O m a a' d d' → d.regs.ledger = c.regs.ledger →
    d'.regs.ledger = c'.regs.ledger → Gone e e' hi hi' z z' c c' d d' → O.sees m (.ok d) (.ok d')

/-- One way is taken, and the other one left as an alternative. -/
theorem Goes.first {o o' t t' a a' : Nat} (h : Goes O n hi hi' z z' o o' c c')
    (hc : Abreast O n x x' c c') (h' : Goes O n hi hi' z z' t t' c c')
    (hback : ∀ b : Core, b.ip = a → b.regs.depth = c.regs.depth →
      Glides e O.stop b { b with ip := t })
    (hback' : ∀ b : Core, b.ip = a' → b.regs.depth = c'.regs.depth →
      Glides e' O.stop' b { b with ip := t' }) :
    O.sees n (.ok { c with ip := o, frames := .alternative a c.pos :: c.frames })
      (.ok { c' with ip := o', frames := .alternative a' c'.pos :: c'.frames }) := by
  let d : Core := { c with ip := o, frames := .alternative a c.pos :: c.frames }
  let d' : Core := { c' with ip := o', frames := .alternative a' c'.pos :: c'.frames }
  have hframes' : d'.frames = .alternative a' c.pos :: c'.frames := by
    rw [← hc.level.pos]
  have halt : Revives O n a a' c c' := by
    intro m hm b b' hb hf hf' hk hk'
    refine O.glides (hback b hb.ip (congrArg Prod.snd hk)) (hback' b' hb.ip' (congrArg Prod.snd hk'))
      fun j hj => ?_
    exact h' j (by omega) _ _ (hb.goes hj rfl rfl hb.level.pos rfl rfl rfl rfl) hk hk'
      (.of_eq hf hk hf' hk')
  exact h n (Nat.le_refl n) d d' (hc.leave halt rfl rfl hc.level.pos rfl hframes' rfl rfl) rfl rfl
    (.leave rfl hframes' rfl rfl)

/-- Wheels at heads with the same numbers are in concord. The induction is on the steps that are left,
and on the rounds that are required where those come without a step. -/
theorem Wheel.concur (W : Wheel e O.stop hi z greedy y Round skips)
    (W' : Wheel e' O.stop' hi' z' greedy y' Round' skips)
    (hround : ∀ ζ ζ' o o' w w', Round ζ o w → Round' ζ' o' w' →
      Turns O N hi hi' ζ ζ' skips o o' w w') :
    ∀ n ≤ N, ∀ r k x x' c c', W.Head r k c → W'.Head r k c' → Abreast O n x x' c c' →
      Awaits O n hi hi' z z' y y' c c' → O.sees n (.ok c) (.ok c') := by
  intro n
  induction n using Nat.strongRecOn with
  | ind n ih =>
    intro hn r
    induction r with
    | succ r ihr =>
      intro k x x' c c' hhead hhead' hc hwait
      obtain ⟨d, hglide, hslip, hroll⟩ := W.required hhead
      obtain ⟨d', hglide', hslip', hroll'⟩ := W'.required hhead'
      refine O.glides hglide hglide' fun m hm => ?_
      have hd := (hc.mono hm).slips hslip hslip' rfl rfl
      refine hroll.turn hroll' hround (by omega) hd
        (hwait.rest hm ⟨[], hslip.spent, hslip'.spent⟩) fun j hj w w' b b' hb hb' hab hw => ?_
      rcases Nat.lt_or_eq_of_le (Nat.le_trans hj hm) with hlt | rfl
      · exact ih j hlt (by omega) r k w w' b b' hb hb' hab hw
      · exact ihr k w w' b b' hb hb' hab hw
    | zero =>
      intro k x x' c c' hhead hhead' hc hwait
      by_cases hk : k = some 0
      · subst hk
        obtain ⟨d, hglide, hslip, hip⟩ := W.done hhead
        obtain ⟨d', hglide', hslip', hip'⟩ := W'.done hhead'
        refine O.glides hglide hglide' fun m hm => ?_
        exact hwait.here hm ((hc.mono hm).slips hslip hslip' hip hip')
          ⟨[], hslip.spent, hslip'.spent⟩
      · obtain ⟨b, d, o, a, hslip, hroll, hstep, hglide, hback⟩ := W.choice hk hhead
        obtain ⟨b', d', o', a', hslip', hroll', hstep', hglide', hback'⟩ := W'.choice hk hhead'
        refine O.left hstep fun m hm => O.right hstep' (O.glides hglide hglide' fun j hj => ?_)
        have hd := (hc.mono (show j ≤ n by omega)).slips hslip hslip' rfl rfl
        have hw := hwait.rest (show j ≤ n by omega) ⟨[], hslip.spent, hslip'.spent⟩
        have hout : Goes O j hi hi' z z' y y' d d' :=
          fun i hij t t' ht _ _ hg => hw i hij t t' ht hg
        have hmore : Goes O j hi hi' z z' o o' d d' := by
          intro i hij t t' ht hk hk' hg
          rw [← hk] at hroll
          rw [← hk'] at hroll'
          refine hroll.turn hroll' hround (by omega) ht (hw.rest hij hg)
            fun l hl w w' b b' hb hb' hab hw' => ?_
          exact ih l (by omega) (by omega) 0 _ w w' b b' hb hb' hab hw'
        cases greedy with
        | true => exact hmore.first hd hout hback hback'
        | false => exact hout.first hd hmore hback hback'

end
end RegexMachine.Machine
