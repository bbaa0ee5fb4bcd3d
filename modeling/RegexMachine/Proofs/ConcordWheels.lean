import RegexMachine.Proofs.ConcordLoops

/-!
What code is a wheel: loops that test for their exit at each round, loops that count their rounds, and
copies one after another. Where a body cannot be empty, all that tells one from another is how many
rounds they require and how many they allow.
-/
namespace RegexMachine

namespace Bounds

variable {b : Bounds} {j r : Nat}

/-- The number of rounds that may be made besides those required, after so many. -/
def more (b : Bounds) (j : Nat) : Option Nat := b.max.map (· - Nat.max b.least j)

theorem more_zero (b : Bounds) : b.more 0 = b.max.map (· - b.least) := by
  simp only [more, Nat.max_def, Nat.le_zero_eq]
  congr 1
  funext m
  split <;> omega

theorem reached_of_done (h : b.least - j = 0) (hmore : b.more j = some 0) :
    b.max.any (· ≤ j) = true := by
  obtain ⟨m, hm, hle⟩ := Option.map_eq_some_iff.mp hmore
  have : m ≤ j := by
    simp only [Nat.max_def] at hle
    split at hle <;> omega
  simpa [hm] using this

/-- As long as rounds are required the loop goes on. -/
theorem required (h : b.least - j = r + 1) : b.max.any (· ≤ j) = false ∧ j < b.min ∧
    b.least - (j + 1) = r ∧ b.more (j + 1) = b.more j := by
  have hmin := b.least_le_min
  refine ⟨?_, by omega, by omega, ?_⟩
  · cases hm : b.max with
    | none => rfl
    | some m =>
      have hle : b.least ≤ m := by
        simp only [least, hm]
        exact Nat.min_le_right _ _
      simpa using (show j < m by omega)
  · simp only [more, Nat.max_def]
    congr 1
    funext m
    split <;> split <;> omega

/-- When none are required, and some are allowed, there is a choice. -/
theorem choice (h : b.least - j = 0) (hmore : b.more j ≠ some 0) : b.max.any (· ≤ j) = false ∧
    ¬ j < b.min ∧ b.least - (j + 1) = 0 ∧ b.more (j + 1) = (b.more j).map (· - 1) := by
  cases hm : b.max with
  | none =>
    have hleast : b.least = b.min := by simp only [least, hm]
    refine ⟨rfl, by omega, by omega, ?_⟩
    simp only [more, hm, Option.map_none]
  | some m =>
    have hleast : b.least = Min.min b.min m := by
      simp only [least, hm]
    have hlt : j < m := by
      simp only [more, hm, Option.map_some, Nat.max_def, ne_eq, Option.some.injEq] at hmore
      split at hmore <;> omega
    have hmin : ¬ j < b.min := by omega
    refine ⟨by simpa using hlt, hmin, by omega, ?_⟩
    simp only [more, hm, Option.map_some, Nat.max_def]
    congr 1
    split <;> split <;> omega

end Bounds

namespace Machine

variable {e e' : Setting} {O : Observer e e'} {N hi hi' id n j : Nat} {z z' : Zone} {x x' y y' o w u : Nat}
  {c : Core} {B B' : Built} {s : Stop} {greedy : Bool} {info : Info} {body : Part} {f : Way}
  {later : Nat → Prop} {Round Round' : Zone → Addr → Addr → Prop} {skips : Prop} {r : Nat}
  {k : Option Nat} {b : Bounds}

/-! ## Steps -/

theorem stepsTo_jump {a : Addr} (hi : e.program.code[c.ip]? = some (.jump a)) (hs : ¬ c.StopsAt s) :
    StepsTo e s c (.ok { c with ip := a }) := stepsTo_act hi hs fun _ => rfl

theorem stepsTo_fork {a : Addr} (hi : e.program.code[c.ip]? = some (.fork a)) (hs : ¬ c.StopsAt s) :
    StepsTo e s c (.ok { c with ip := c.ip + 1, frames := .alternative a c.pos :: c.frames }) :=
  stepsTo_act hi hs fun _ => rfl

theorem Glides.single {d : Core} (h : StepsTo e s c (.ok d)) : Glides e s c d := .step h (.refl d)

theorem Glides.here {a : Addr} (h : c.ip = a) : Glides e s c { c with ip := a } := by
  subst h
  exact .refl c

/-- The way that comes first is taken, the other one is left as an alternative. -/
def Offers (e : Setting) (s : Stop) (greedy : Bool) (o exit : Addr) (c : Core) : Prop :=
  ∃ b a, StepsTo e s c (.ok b) ∧
    Glides e s b { c with
      ip := if greedy then o else exit, frames := .alternative a c.pos :: c.frames } ∧
    ∀ t : Core, t.ip = a → t.regs.depth = c.regs.depth →
      Glides e s t { t with ip := if greedy then exit else o }

/-- An alternative that is left by a fork. -/
theorem offers_fork {exit : Addr} (hi : e.program.code[c.ip]? = some (.fork exit))
    (hs : ¬ c.StopsAt s) : Offers e s true (c.ip + 1) exit c :=
  ⟨_, exit, stepsTo_fork hi hs, .refl _, fun _ ht _ => .here ht⟩

theorem offers_back {o : Addr} (hi : e.program.code[c.ip]? = some (.fork o)) (hs : ¬ c.StopsAt s) :
    Offers e s false o (c.ip + 1) c :=
  ⟨_, o, stepsTo_fork hi hs, .refl _, fun _ ht _ => .here ht⟩

theorem offerAt_lt {exit : Addr} (h : B.OfferAt greedy exit x o) : x < o := by
  unfold Built.OfferAt at h
  split at h
  · obtain ⟨-, rfl⟩ := h
    exact Nat.lt_succ_self x
  · obtain ⟨-, -, rfl⟩ := h
    exact Nat.lt_succ_of_lt (Nat.lt_succ_self x)

theorem offers_offerAt {exit : Addr} (hB : B.code = e.program.code)
    (h : B.OfferAt greedy exit x o) (hip : c.ip = x) (hfree : s.Clears c.regs.depth x o) :
    Offers e s greedy o exit c := by
  subst hip
  unfold Built.OfferAt at h
  rw [hB] at h
  cases greedy with
  | true =>
    obtain ⟨hfork, rfl⟩ := h
    exact offers_fork hfork (hfree.passes (Nat.le_refl _) (Nat.lt_succ_self _))
  | false =>
    obtain ⟨hfork, hjump, rfl⟩ := h
    have hleft : ¬ c.StopsAt s :=
      hfree.passes (Nat.le_refl _) (Nat.lt_succ_of_lt (Nat.lt_succ_self _))
    let b : Core := { c with ip := c.ip + 1, frames := .alternative (c.ip + 2) c.pos :: c.frames }
    have hnext : ¬ b.StopsAt s :=
      Stop.Clears.passes (c := b) hfree (Nat.le_succ _) (Nat.lt_succ_self _)
    exact ⟨b, c.ip + 2, stepsTo_fork hfork hleft, .single (stepsTo_jump hjump hnext),
      fun _ ht _ => .here ht⟩

/-- A jump leads to where there is a choice. -/
theorem Offers.jump {exit a : Addr} (hi : e.program.code[c.ip]? = some (.jump a))
    (hs : ¬ c.StopsAt s) (h : Offers e s greedy o exit { c with ip := a }) :
    Offers e s greedy o exit c := by
  obtain ⟨b, a, hstep, hglide, hback⟩ := h
  exact ⟨_, a, stepsTo_jump hi hs, .step hstep hglide, hback⟩

/-! ## Rounds -/

/-- Rounds of a loop, wherever they stand. -/
def Laps (B : Built) (info : Info) (body : Part) (z : Zone) (x y : Addr) : Prop :=
  ∃ later, B.RoundAt info body none later z x y

/-- A body that cannot be empty is a round as it is. -/
theorem laps_body (hmin : 0 < info.minChars) (h : body none later z o w) :
    Laps B info body z o w := by
  refine ⟨later, ?_⟩
  unfold Built.RoundAt
  rwa [if_pos hmin]

theorem turns_laps {body' : Part} (hB : B.code = e.program.code) (hB' : B'.code = e'.program.code)
    (hlayout : B'.layout = B.layout) (hpair : Partners e e')
    (hbody : Accords e.program e'.program N hi hi' body body') (ζ ζ' : Zone) (o o' w w' : Nat)
    (h : Laps B info body ζ o w) (h' : Laps B' info body' ζ' o' w') :
    Turns O N hi hi' ζ ζ' (info.minChars = 0) o o' w w' := by
  obtain ⟨later, h⟩ := h
  obtain ⟨later', h'⟩ := h'
  exact turns_round hB hB' hlayout hpair hbody h h'

/-! ## Loops -/

/-- Code between two addresses is a wheel, and is entered at a head with some numbers. -/
def IsWheel (e : Setting) (hi : Nat) (z : Zone) (greedy : Bool) (Round : Zone → Addr → Addr → Prop)
    (skips : Prop) (r : Nat) (k : Option Nat) (x y : Addr) : Prop :=
  ∀ s depth, Stop.Clears s depth x y → ∃ W : Wheel e s hi z greedy y Round skips,
    ∀ c : Core, c.ip = x → c.regs.depth = depth →
      c.regs.counts.size = e.program.tables.loops.size → W.Head r k c

theorem IsWheel.concur (h : IsWheel e hi z greedy Round skips r k x y)
    (h' : IsWheel e' hi' z' greedy Round' skips r k x' y')
    (hround : ∀ ζ ζ' o o' w w', Round ζ o w → Round' ζ' o' w' →
      Turns O N hi hi' ζ ζ' skips o o' w w') : Concur O N hi hi' z z' x x' y y' := by
  intro n hn c c' hfree hc hwait
  obtain ⟨W, hW⟩ := h O.stop _ hfree.left
  obtain ⟨W', hW'⟩ := h' O.stop' _ hfree.right
  exact W.concur W' hround n hn r k x x' c c' (hW c hc.ip rfl hc.room) (hW' c' hc.ip' hc.depth hc.room')
    hc hwait

theorem guardAt_none (h : B.GuardAt none later z x y) : y = x := by
  rcases h with rfl | ⟨_, _, hφ, -⟩
  · rfl
  · cases hφ

/-- A round, by what it keeps. -/
theorem Rolls.intro {ζ : Zone} {d : Core} {Next : Core → Prop} (hround : Round ζ o w)
    (hfree : s.Clears d.regs.depth o w) (hchecks : z.checks ≤ ζ.checks) (hloops : z.loops ≤ ζ.loops)
    (hskip : skips → w + 1 = y)
    (hnext : ∀ b : Core, b.ip = w → b.regs.depth = d.regs.depth →
      b.regs.counts.size = d.regs.counts.size →
      (∀ id, id < ζ.loops ∨ hi ≤ id → b.regs.counts[id]? = d.regs.counts[id]?) → Next b) :
    Rolls e s hi z y Round skips Next d.regs.ledger o := by
  refine ⟨ζ, w, hround, hfree, hchecks, hloops, hskip, fun a b M ha hs hb => ?_⟩
  have hcounts : a.regs.counts = d.regs.counts := congrArg Prod.fst ha
  refine hnext b hb (hs.depth.trans (congrArg Prod.snd ha)) ?_ fun id hid => ?_
  · rw [hs.size, hcounts]
  · rw [hs.counts id hid, hcounts]

theorem Rolls.mono {Next Next' : Core → Prop} {l : Array Nat × Nat}
    (h : Rolls e s hi z y Round skips Next l o) (hnext : ∀ b, Next b → Next' b) :
    Rolls e s hi z y Round skips Next' l o := by
  obtain ⟨ζ, w, hr, hfree, hc, hl, hskip, hafter⟩ := h
  exact ⟨ζ, w, hr, hfree, hc, hl, hskip, fun a b M ha hs hb => hnext b (hafter a b M ha hs hb)⟩

theorem isWheel_star (hB : B.code = e.program.code) (hbody : Ascends body)
    (h : B.StarAt greedy info f body none later z x y) :
    IsWheel e hi z greedy (Laps B info body) (info.minChars = 0) 0 none x y := by
  intro s depth hfree
  obtain ⟨g, o, w, hguard, hoffer, hround, hjump, rfl⟩ := h
  obtain rfl := guardAt_none hguard
  have hgo : g < o := offerAt_lt hoffer
  have how : o ≤ w := ascends_round hbody hround
  have hgw : g < w := Nat.lt_of_lt_of_le hgo how
  rw [hB] at hjump
  have hchoice {c : Core} (hip : c.ip = g ∨ c.ip = w) (hdepth : c.regs.depth = depth) :
      Offers e s greedy o (w + 1) c := by
    subst hdepth
    have hhead {c : Core} (hip : c.ip = g) (hfree : s.Clears c.regs.depth g (w + 1)) :
        Offers e s greedy o (w + 1) c :=
      offers_offerAt hB hoffer hip (hfree.inside (Nat.le_refl _) (Nat.le_succ_of_le how))
    rcases hip with hip | hip
    · exact hhead hip hfree
    · have hpass : ¬ c.StopsAt s :=
        hfree.passes (hip ▸ Nat.le_of_lt hgw) (hip ▸ Nat.lt_succ_self w)
      exact Offers.jump (hip ▸ hjump) hpass (hhead rfl hfree)
  refine ⟨{
    Head := fun r k c => r = 0 ∧ k = none ∧ (c.ip = g ∨ c.ip = w) ∧ c.regs.depth = depth
    required := fun h => nomatch h.1
    done := fun h => nomatch h.2.1
    choice := ?_ }, fun c hip hdepth _ => ⟨rfl, rfl, .inl hip, hdepth⟩⟩
  rintro k c - ⟨-, rfl, hip, rfl⟩
  obtain ⟨b, a, hstep, hglide, hback⟩ := hchoice hip rfl
  have hclear : s.Clears c.regs.depth o w := hfree.inside (Nat.le_of_lt hgo) (Nat.le_succ w)
  exact ⟨b, c, o, a, .moved e hi z c c.ip,
    .intro ⟨_, hround⟩ hclear (Nat.le_refl _) (Nat.le_refl _) (fun _ => rfl)
      fun _ hb hdepth _ _ => ⟨rfl, rfl, .inr hb, hdepth⟩, hstep, hglide, hback⟩

/-- The first round of a loop with a test behind its body begins at `o`, to which the code leads. The
test is at the end of the body, where another round or the way out is offered. -/
theorem rounds_plus {depth : Nat} (hB : B.code = e.program.code) (hbody : Ascends body)
    (h : B.PlusAt greedy info f body none later z x y) (hfree : s.Clears depth x y) :
    ∃ o w : Nat, x ≤ o ∧ o ≤ w ∧ y = w + 1 ∧ Laps B info body z o w ∧
      (∀ c : Core, c.ip = x → c.regs.depth = depth → Glides e s c { c with ip := o }) ∧
      ∀ c : Core, c.ip = w → c.regs.depth = depth → Offers e s greedy o y c := by
  unfold Built.PlusAt at h
  cases greedy with
  | true =>
    obtain ⟨g, w, henter, hguard, hfork, hround, hjump, rfl⟩ := h
    obtain rfl := guardAt_none hguard
    have how : x + 1 + 1 ≤ w := ascends_round hbody hround
    have hxw : x + 1 < w + 1 := Nat.succ_lt_succ (Nat.lt_of_lt_of_le (by omega) how)
    rw [hB] at henter hfork hjump
    refine ⟨x + 1 + 1, w, by omega, how, rfl, ⟨_, hround⟩, ?_, ?_⟩
    · rintro c hip rfl
      exact .single (stepsTo_jump (hip ▸ henter) (hfree.passes (Nat.le_of_eq hip.symm)
        (hip ▸ Nat.lt_of_succ_lt hxw)))
    · rintro c hip rfl
      let d : Core := { c with ip := x + 1 }
      have hfree' : s.Clears d.regs.depth x (w + 1) := hfree
      refine .jump (hip ▸ hjump) (hfree.passes (hip ▸ Nat.le_of_lt (Nat.lt_of_succ_lt_succ hxw))
        (hip ▸ Nat.lt_succ_self w)) ?_
      exact offers_fork (c := d) hfork (hfree'.passes (Nat.le_succ x) hxw)
  | false =>
    obtain ⟨g, w, hguard, hround, hfork, rfl⟩ := h
    obtain rfl := guardAt_none hguard
    have how : g ≤ w := ascends_round hbody hround
    rw [hB] at hfork
    refine ⟨g, w, Nat.le_refl g, how, rfl, ⟨_, hround⟩, fun c hip _ => .here hip, ?_⟩
    rintro c rfl rfl
    exact offers_back hfork (hfree.passes how (Nat.lt_succ_self _))

theorem isWheel_plus (hB : B.code = e.program.code) (hbody : Ascends body)
    (h : B.PlusAt greedy info f body none later z x y) :
    IsWheel e hi z greedy (Laps B info body) (info.minChars = 0) 1 none x y := by
  intro s depth hfree
  obtain ⟨o, w, hxo, how, rfl, hround, hfirst, hchoice⟩ := rounds_plus hB hbody h hfree
  have hclear : s.Clears depth o w := hfree.inside hxo (Nat.le_succ w)
  have hnext {k : Option Nat} {Next : Core → Prop} {d : Core} (hd : d.regs.depth = depth)
      (hk : ∀ b : Core, b.ip = w → b.regs.depth = depth → Next b) :
      Rolls e s hi z (w + 1) (Laps B info body) (info.minChars = 0) Next d.regs.ledger o :=
    .intro hround (hd ▸ hclear) (Nat.le_refl _) (Nat.le_refl _) (fun _ => rfl)
      fun b hb hdepth _ _ => hk b hb (hdepth.trans hd)
  refine ⟨{
    Head := fun r k c => k = none ∧ c.regs.depth = depth ∧ (r = 1 ∧ c.ip = x ∨ r = 0 ∧ c.ip = w)
    required := ?_
    done := fun h => nomatch h.1
    choice := ?_ }, fun c hip hdepth _ => ⟨rfl, hdepth, .inl ⟨rfl, hip⟩⟩⟩
  · rintro r k c ⟨rfl, hdepth, ⟨hr, hip⟩ | ⟨hr, -⟩⟩
    · obtain rfl : r = 0 := by omega
      exact ⟨_, hfirst c hip hdepth, .moved e hi z c o,
        hnext (k := none) hdepth fun b hb hdepth => ⟨rfl, hdepth, .inr ⟨rfl, hb⟩⟩⟩
    · cases hr
  · rintro k c - ⟨rfl, hdepth, ⟨hr, -⟩ | ⟨-, hip⟩⟩
    · cases hr
    · obtain ⟨b, a, hstep, hglide, hback⟩ := hchoice c hip hdepth
      exact ⟨b, c, o, a, .moved e hi z c c.ip,
        hnext (k := none) hdepth fun b hb hdepth => ⟨rfl, hdepth, .inr ⟨rfl, hb⟩⟩, hstep, hglide,
        hback⟩

/-! ## Loops that count -/

/-- The record of a count gives it back. -/
theorem slips_counting (hlo : z.loops ≤ id) (hhi : id < hi) (hn : c.regs.counts[id]? = some n)
    (j : Nat) (a : Addr) : Slips e hi z c { c.counting id n j with ip := a } := by
  refine ⟨rfl, rfl, Array.size_setIfInBounds, fun k hk => ?_, [.count id n], rfl, .single trivial, ?_,
    rfl, fun r hr => ?_⟩
  · have hne : id ≠ k := by omega
    exact Array.getElem?_setIfInBounds_ne hne
  · intro f hf
    rw [List.mem_singleton.mp hf]
    rfl
  · obtain ⟨hcounts, hdepth⟩ := Prod.mk.inj hr
    change (r.counts.setIfInBounds id n, r.depth) = (c.regs.counts, c.regs.depth)
    rw [hcounts, hdepth]
    refine congrArg (·, c.regs.depth) (Array.ext_getElem? fun k => ?_)
    change ((c.regs.counts.setIfInBounds id j).setIfInBounds id n)[k]? = _
    grind

/-- What a step of a counted loop comes to. -/
theorem stepsTo_loop {i : Instr} {l : CountedLoop} (turn : CountedLoop → Nat → Core)
    (hi₁ : e.program.code[c.ip]? = some i) (hs : ¬ c.StopsAt s)
    (hact : ∀ spans, c.act e spans i = c.loop e id turn)
    (hl : e.program.tables.loops[id]? = some l) (hn : c.regs.counts[id]? = some n) :
    StepsTo e s c (.ok (turn l n)) := by
  have hloop : c.loop e id turn = .ok (.going (turn l n)) := by
    simp only [Core.loop, hl, hn]
  exact stepsTo_act hi₁ hs fun spans => (hact spans).trans hloop

/-- The round comes first in a greedy loop, and the way out in a lazy one. -/
theorem offers_roundChoice {l : CountedLoop} {d : Core} (h : StepsTo e s c (.ok (roundChoice l d))) :
    ∃ b a, StepsTo e s c (.ok b) ∧
      Glides e s b { d with
        ip := if l.greedy then l.body else l.exit, frames := .alternative a d.pos :: d.frames } ∧
      ∀ t : Core, t.ip = a → t.regs.depth = d.regs.depth →
        Glides e s t { t with ip := if l.greedy then l.exit else l.body } := by
  unfold roundChoice at h
  cases hg : l.greedy with
  | true =>
    rw [hg] at h
    exact ⟨_, l.exit, h, .refl _, fun _ ht _ => .here ht⟩
  | false =>
    rw [hg] at h
    exact ⟨_, l.body, h, .refl _, fun _ ht _ => .here ht⟩

/-- A head of a counted loop, where so many rounds have been made. The count there is that of the head
before; at the first one it does not matter. -/
def AtHead (id : Nat) (x w : Addr) (j : Nat) (c : Core) : Prop :=
  c.ip = x ∧ j = 0 ∨ c.ip = w ∧ ∃ n, c.regs.counts[id]? = some n ∧ j = n + 1

/-- At a head comes the way out, a round that is required, or a choice between the two. -/
theorem AtHead.stepsTo {l : CountedLoop} (hat : AtHead id x w j c)
    (henter : e.program.code[x]? = some (.repeatEnter id))
    (hnext : e.program.code[w]? = some (.repeatNext id))
    (hl : e.program.tables.loops[id]? = some l) (hmax : l.max ≠ some 0) (hxw : x + 1 ≤ w)
    (hfree : s.Clears c.regs.depth x (w + 1))
    (hroom : c.regs.counts.size = e.program.tables.loops.size) :
    ∃ n, c.regs.counts[id]? = some n ∧ StepsTo e s c (.ok
      (if l.max.any (· ≤ j) then (c.counting id n j).goTo l.exit
        else if j < l.min then (c.counting id n j).goTo l.body
        else roundChoice l (c.counting id n j))) := by
  rcases hat with ⟨hip, rfl⟩ | ⟨hip, n, hn, rfl⟩
  · have hlt : id < c.regs.counts.size := hroom ▸ (Array.getElem?_eq_some_iff.mp hl).1
    have hnone : l.max.any (· ≤ 0) = false := by
      cases hm : l.max with
      | none => rfl
      | some m => simpa using (show m ≠ 0 from fun h0 => hmax (h0 ▸ hm))
    refine ⟨_, Array.getElem?_eq_getElem hlt, ?_⟩
    have hpass : ¬ c.StopsAt s :=
      hfree.passes (Nat.le_of_eq hip.symm) (hip ▸ Nat.lt_succ_of_le (Nat.le_of_succ_le hxw))
    have := stepsTo_loop
      (fun l n =>
        if l.min = 0 then roundChoice l (c.counting id n 0) else (c.counting id n 0).goTo l.body)
      (hip ▸ henter) hpass (fun _ => rfl) hl (Array.getElem?_eq_getElem hlt)
    rw [hnone]
    by_cases hmin : l.min = 0
    · rw [if_neg Bool.false_ne_true, if_neg (by omega)]
      rwa [if_pos hmin] at this
    · rw [if_neg Bool.false_ne_true, if_pos (by omega)]
      rwa [if_neg hmin] at this
  · refine ⟨n, hn, ?_⟩
    have hpass : ¬ c.StopsAt s :=
      hfree.passes (hip ▸ Nat.le_of_succ_le hxw) (hip ▸ Nat.lt_succ_self w)
    exact stepsTo_loop
      (fun l n =>
        if l.max.any (· ≤ n + 1) then (c.counting id n (n + 1)).goTo l.exit
        else if n + 1 < l.min then (c.counting id n (n + 1)).goTo l.body
        else roundChoice l (c.counting id n (n + 1)))
      (hip ▸ hnext) hpass (fun _ => rfl) hl hn

/-- After a round the loop is at the next head. -/
theorem rolls_counting {ζ : Zone} {Next : Core → Prop} (hround : Round ζ (x + 1) w)
    (hchecks : z.checks ≤ ζ.checks) (hloops : z.loops ≤ ζ.loops) (hid : id < ζ.loops)
    (hfree : s.Clears c.regs.depth x (w + 1)) (hn : c.regs.counts[id]? = some n)
    (hnext : ∀ b : Core, AtHead id x w (j + 1) b → b.regs.depth = c.regs.depth →
      b.regs.counts.size = c.regs.counts.size → Next b) :
    Rolls e s hi z (w + 1) Round skips Next (c.counting id n j).regs.ledger (x + 1) := by
  have hclear : s.Clears c.regs.depth (x + 1) w := hfree.inside (Nat.le_succ x) (Nat.le_succ w)
  refine .intro (d := c.counting id n j) hround hclear hchecks hloops (fun _ => rfl)
    fun a ha hdepth hsize hcounts => hnext a (.inr ⟨ha, j, ?_, rfl⟩) hdepth ?_
  · rw [hcounts id (Or.inl hid)]
    exact Array.getElem?_setIfInBounds_self_of_lt (Array.getElem?_eq_some_iff.mp hn).1
  · rw [hsize]
    exact Array.size_setIfInBounds

theorem isWheel_counted (hB : B.code = e.program.code)
    (hloops : ∀ (id : Nat) l, B.loops[id]? = some l → id < hi ∧ e.program.tables.loops[id]? = some l)
    (hbody : Ascends body) (hmax : b.max ≠ some 0)
    (h : B.CountedAt b greedy info body none later z x y) :
    IsWheel e hi z greedy (Laps B info body) (info.minChars = 0) b.least (b.more 0) x y := by
  intro s depth hfree
  obtain ⟨id, w, hid, henter, hloop, hround, hnext, rfl⟩ := h
  obtain ⟨hhi, hl⟩ := hloops id _ hloop
  have hxw : x + 1 ≤ w := ascends_round hbody hround
  rw [hB] at henter hnext
  let Head (r : Nat) (k : Option Nat) (c : Core) : Prop := c.regs.depth = depth ∧
    c.regs.counts.size = e.program.tables.loops.size ∧
    ∃ j, AtHead id x w j c ∧ r = b.least - j ∧ k = b.more j
  have hstep {j : Nat} {c : Core} (hat : AtHead id x w j c) (hdepth : c.regs.depth = depth) :=
    hat.stepsTo henter hnext hl hmax hxw (hdepth ▸ hfree)
  have hroll {j n r : Nat} {k : Option Nat} {c : Core} (hn : c.regs.counts[id]? = some n)
      (hdepth : c.regs.depth = depth) (hroom : c.regs.counts.size = e.program.tables.loops.size)
      (hr : b.least - (j + 1) = r) (hk : b.more (j + 1) = k) :
      Rolls e s hi z (w + 1) (Laps B info body) (info.minChars = 0) (Head r k)
        (c.counting id n j).regs.ledger (x + 1) :=
    rolls_counting ⟨_, hround⟩ (Nat.le_refl _) (Nat.le_succ_of_le hid) (Nat.lt_succ_self id)
      (hdepth ▸ hfree) hn fun a ha hdepth' hsize =>
        ⟨hdepth'.trans hdepth, hsize.trans hroom, j + 1, ha, hr.symm, hk.symm⟩
  refine ⟨{
    Head := Head
    required := ?_
    done := ?_
    choice := ?_ }, fun c hip hdepth hroom => ⟨hdepth, hroom, 0, .inl ⟨hip, rfl⟩, rfl, rfl⟩⟩
  · rintro r k c ⟨hdepth, hroom, j, hat, hr, rfl⟩
    obtain ⟨n, hn, hstep⟩ := hstep hat hdepth hroom
    obtain ⟨hany, hmin, hless, hmore⟩ := Bounds.required hr.symm
    rw [hany, if_neg Bool.false_ne_true, if_pos hmin] at hstep
    exact ⟨_, .single hstep, slips_counting hid hhi hn j _, hroll hn hdepth hroom hless hmore⟩
  · rintro c ⟨hdepth, hroom, j, hat, hr, hk⟩
    obtain ⟨n, hn, hstep⟩ := hstep hat hdepth hroom
    rw [if_pos (Bounds.reached_of_done hr.symm hk.symm)] at hstep
    exact ⟨_, .single hstep, slips_counting hid hhi hn j _, rfl⟩
  · rintro k c hne ⟨hdepth, hroom, j, hat, hr, rfl⟩
    obtain ⟨n, hn, hstep⟩ := hstep hat hdepth hroom
    obtain ⟨hany, hmin, hless, hmore⟩ := Bounds.choice hr.symm hne
    rw [hany, if_neg Bool.false_ne_true, if_neg hmin] at hstep
    obtain ⟨a, t, hstep, hglide, hback⟩ := offers_roundChoice hstep
    exact ⟨a, c.counting id n j, x + 1, t, slips_counting hid hhi hn j _,
      hroll hn hdepth hroom hless hmore, hstep, hglide, hback⟩

end Machine
end RegexMachine
