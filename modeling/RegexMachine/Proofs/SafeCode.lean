import RegexMachine.Proofs.Runs
import RegexMachine.Proofs.SafeSteps

/-!
Safe pieces of code, and the shapes they are put together in. A piece is safe for certain extents if
every entry is safe as soon as what comes after the piece is, for all places that the extents allow
and all frames and registers that completed code can leave.
-/
namespace RegexMachine.Machine

variable {Goal : Setting → View → Prop} {N n : Nat} {u v : Scope} {L L' : Nat → Prop} {e : Setting}
  {B : Built} {φ : Promise} {z : Zone} {x y w : Addr} {f g : Extent} {c d : View}

/-- A view in which code is entered. A guard finds the round it stands in. -/
structure Entered (e : Setting) (φ : Promise) (z : Zone) (x : Addr) (c : View) : Prop where
  ip : c.ip = x
  fits : c.regs.Fits e.program
  standing : φ.isSome = true → ∀ check, z.within = some check → ∃ pos, Sees c.frames check pos

theorem Entered.after (hz : z.Ok) (h : Entered e φ z x c)
    (hl : Leaves e.program z u L c d) (hd : d.ip = y) : Entered e φ z y d where
  ip := hd
  fits := h.fits.onward hl.onward
  standing hφ check hc := by
    obtain ⟨pos, hsees⟩ := h.standing hφ check hc
    obtain ⟨-, -, F, K, hframes, hK, hF, -⟩ := hl
    exact ⟨pos, hframes ▸ (hsees.of_settled hK).append hF (hz check hc)⟩

/-- What comes after a piece of code is safe, wherever one of the extents has led to. Some groups
were loose when the code was entered. -/
def Then (Goal : Setting → View → Prop) (n : Nat) (e : Setting) (u : Scope) (L : Nat → Prop) (z : Zone)
    (c : View) (y : Addr) (f : Extent) : Prop :=
  ∀ m ≤ n, ∀ d : View, d.ip = y → f c.pos d.pos → Leaves e.program z u L c d →
    Grounded Goal u.loose m e d → Going Goal m e d

/-- Code between two addresses is safe for some extents and for so many steps. -/
def Sure (Goal : Setting → View → Prop) (N : Nat) (e : Setting) (u : Scope) (L : Nat → Prop)
    (φ : Promise) (z : Zone) (x y : Addr) (f : Extent) : Prop :=
  ∀ n ≤ N, ∀ c, Entered e φ z x c → Grounded Goal L n e c → Then Goal n e u L z c y f →
    Going Goal n e c

/-- Code of a shape is safe wherever it stands. -/
def Solid (Goal : Setting → View → Prop) (N : Nat) (e : Setting) (u : Scope) (L : Nat → Prop)
    (part : Part) (f : Extent) : Prop :=
  ∀ φ later z x y, z.Ok → part φ later z x y → Sure Goal N e u L φ z x y f

theorem Then.mono {m : Nat} (h : Then Goal n e u L z c y f) (hm : m ≤ n) : Then Goal m e u L z c y f :=
  fun k hk => h k (Nat.le_trans hk hm)

/-- What comes after a first part. -/
theorem Then.rest (h : Then Goal n e u L z c y (f.andThen g)) {m : Nat} (hm : m ≤ n)
    (hv : v.Inside u) (hl : Leaves e.program z v L c d) (hf : f c.pos d.pos) :
    Then Goal m e u v.loose z d y g :=
  fun k hk d' hip hg hl' hgr => h k (Nat.le_trans hk hm) d' hip ⟨d.pos, hf, hg⟩ (hl.andThen hv hl') hgr

/-- The end has been reached in the view itself. -/
theorem Then.here (h : Then Goal n e u u.loose z c y f) (hip : c.ip = y) (hf : f c.pos c.pos)
    (hg : Grounded Goal u.loose n e c) : Going Goal n e c :=
  h n (Nat.le_refl n) c hip hf (.of_frames z u.admits_loose rfl rfl (.refl _)) hg

theorem Sure.mono {M : Nat} (h : Sure Goal N e u L φ z x y f) (hM : M ≤ N) :
    Sure Goal M e u L φ z x y f := fun n hn => h n (Nat.le_trans hn hM)

theorem Sure.weaken (h : Sure Goal N e u L φ z x y f) (hf : ∀ p q, f p q → g p q) :
    Sure Goal N e u L φ z x y g :=
  fun n hn c hc hg hthen => h n hn c hc hg fun m hm d hip hd => hthen m hm d hip (hf _ _ hd)

/-- The more groups are loose before code, the less it may rely on. -/
theorem Sure.widen (h : Sure Goal N e u L φ z x y f) (hL : ∀ g, L g → L' g) :
    Sure Goal N e u L' φ z x y f :=
  fun n hn c hc hg hthen => h n hn c hc (hg.narrow hL) fun m hm d hip hd hl =>
    hthen m hm d hip hd (hl.widen hL)

theorem sure_here : Sure Goal N e u u.loose φ z x x .here :=
  fun _ _ _ hc hg hthen => hthen.here hc.ip rfl hg

/-- Groups that are loose after a first part may be loose before the second. -/
theorem Sure.andThen (hz : z.Ok) (hv : v.Inside u) (h : Sure Goal N e v L φ z x w f)
    (h' : Sure Goal N e u v.loose φ z w y g) : Sure Goal N e u L φ z x y (f.andThen g) := by
  intro n hn c hc hg hthen
  refine h n hn c hc hg fun m hm d hip hf hl hgd => ?_
  exact h' m (Nat.le_trans hm hn) d (hc.after hz hl hip) hgd (hthen.rest hm hv hl hf)

/-! ## Choices -/

/-- A fork goes on to the next instruction, and can be resumed at its alternative. -/
theorem Entered.fork {a : Addr} (hc : Entered e φ z x c) (hg : Grounded Goal u.loose n e c)
    (hi : e.program.code[x]? = some (.fork a))
    (hnext : ∀ m < n, ∀ d : View, d.ip = x + 1 → d.pos = c.pos →
      Leaves e.program z u u.loose c d → Grounded Goal u.loose m e d → Going Goal m e d)
    (halt : ∀ m < n, ∀ d : View, d.ip = a → d.pos = c.pos →
      Leaves e.program z u u.loose c d → Grounded Goal u.loose m e d → Going Goal m e d) :
    Going Goal n e c := by
  refine going_fork (hc.ip ▸ hi) fun m hm => hnext m hm _ (by rw [← hc.ip]) rfl ?_ ?_
  · exact Leaves.under_choice (.of_frames z u.admits_loose rfl rfl (.refl _)) u.admits_loose rfl rfl rfl (.refl _)
  · refine grounded_alternative (fun d hip hpos hs hf hr => ?_) _ _
    exact halt m hm d hip hpos (.of_frames z u.admits_loose hs hf hr)
      ((hg.mono (Nat.le_of_lt hm)).keeps hs hf hr)

/-- An offer goes on past it or at the exit, in whichever order. -/
theorem Entered.offer {greedy : Bool} {exit o : Addr} (hB : B.code = e.program.code)
    (hc : Entered e φ z x c) (hg : Grounded Goal u.loose n e c)
    (hoffer : B.OfferAt greedy exit x o)
    (hmore : ∀ m ≤ n, ∀ d : View, d.ip = o → d.pos = c.pos →
      Leaves e.program z u u.loose c d → Grounded Goal u.loose m e d → Going Goal m e d)
    (hexit : ∀ m ≤ n, ∀ d : View, d.ip = exit → d.pos = c.pos →
      Leaves e.program z u u.loose c d → Grounded Goal u.loose m e d → Going Goal m e d) :
    Going Goal n e c := by
  unfold Built.OfferAt at hoffer
  rw [hB] at hoffer
  split at hoffer
  · obtain ⟨hi, rfl⟩ := hoffer
    exact hc.fork hg hi (fun m hm => hmore m (Nat.le_of_lt hm)) fun m hm => hexit m (Nat.le_of_lt hm)
  · obtain ⟨hi, hj, rfl⟩ := hoffer
    refine hc.fork hg hi (fun m hm d hip hpos hl hgd => ?_) fun m hm => hmore m (Nat.le_of_lt hm)
    refine going_jump (hip ▸ hj) fun k hk => ?_
    refine hexit k (by omega) _ rfl hpos (hl.trans (.of_frames z u.admits_loose rfl rfl (.refl _))) ?_
    exact (hgd.mono (Nat.le_of_lt hk)).keeps rfl rfl (.refl _)

/-- A guard lets the machine pass, if there is one. -/
theorem Entered.guard {later : Nat → Prop} {g : Addr} (hB : B.code = e.program.code)
    (hc : Entered e φ z x c) (hg : Grounded Goal u.loose n e c) (hguard : B.GuardAt φ later z x g)
    (hpass : ∀ m ≤ n, ∀ d : View, d.ip = g → d.pos = c.pos →
      Leaves e.program z u u.loose c d → Grounded Goal u.loose m e d → Going Goal m e d) :
    Going Goal n e c := by
  rcases hguard with rfl | ⟨ψ, id, hφ, -, hi, rfl⟩
  · exact hpass n (Nat.le_refl n) c hc.ip rfl (.of_frames z u.admits_loose rfl rfl (.refl _)) hg
  · rw [hB, ← hc.ip] at hi
    refine going_guard hi (hc.standing (by rw [hφ]; rfl)) (fun m hm L hL => ?_) hg.failing
    have hgm := hg.mono (Nat.le_of_lt hm)
    rcases hL with rfl | rfl
    · refine hpass m (Nat.le_of_lt hm) _ (by rw [← hc.ip]) rfl (.of_frames z u.admits_loose rfl rfl (.refl _)) ?_
      exact hgm.keeps rfl rfl (.refl _)
    · refine hpass m (Nat.le_of_lt hm) _ (by rw [← hc.ip]) rfl ?_ (hgm.guard rfl rfl (.refl _))
      exact Leaves.under_choice (.of_frames z u.admits_loose rfl rfl (.refl _)) u.admits_loose rfl rfl rfl (.refl _)

/-! ## Rounds -/

/-- A round is safe if the next instruction is safe after it, and the one after that where the round
has consumed nothing. -/
def SureRound (Goal : Setting → View → Prop) (N : Nat) (e : Setting) (u : Scope) (φ : Promise)
    (z : Zone) (x y : Addr) (f : Extent) : Prop :=
  ∀ n ≤ N, ∀ c, Entered e φ z x c → Grounded Goal u.loose n e c →
    (∀ m ≤ n, ∀ d : View, d.ip = y → f c.pos d.pos →
      Leaves e.program z u u.loose c d → Grounded Goal u.loose m e d → Going Goal m e d) →
    (∀ m ≤ n, ∀ d : View, d.ip = y + 1 → d.pos = c.pos → f c.pos c.pos →
      Leaves e.program z u u.loose c d → Grounded Goal u.loose m e d → Going Goal m e d) →
    Going Goal n e c

theorem sure_round {info : Info} {body : Part} {later : Nat → Prop} (hB : B.code = e.program.code)
    (hz : z.Ok) (hbody : Solid Goal N e u u.loose body f) (h : B.RoundAt info body φ later z x y) :
    SureRound Goal N e u φ z x y f := by
  intro n hn c hc hg hnext hskip
  unfold Built.RoundAt at h
  split at h
  · exact hbody φ later z x y hz h n hn c hc hg hnext
  · obtain ⟨id, w, hid, hstart, hcode, hend, rfl⟩ := h
    rw [hB] at hstart hend
    refine going_roundStart (hc.ip ▸ hstart) fun m hm => ?_
    let inside : Zone := ⟨some id, id + 1, z.loops⟩
    have hinside : inside.Ok := fun check h => by
      cases h
      exact Nat.lt_succ_self id
    let c' : View := { c with ip := c.ip + 1, frames := .round id c.pos :: c.frames }
    have hc' : Entered e φ inside (x + 1) c' := by
      refine ⟨by rw [← hc.ip], hc.fits, fun _ check h => ?_⟩
      cases h
      exact ⟨c.pos, [], c.frames, id + 1, rfl, .nil _, Nat.lt_succ_self id⟩
    have hgm := hg.mono (Nat.le_of_lt hm)
    have hg' : Grounded Goal u.loose m e c' := hgm.undo rfl rfl rfl fun r hr => hr
    -- what is left after the round has been checked, the record of it being a frame among others
    have hleaves : ∀ (d : View) (a : Addr), Leaves e.program inside u u.loose c' d →
        Leaves e.program z u u.loose c { d with ip := a } := by
      intro d a hl
      have houter : Leaves e.program z u u.loose c' { d with ip := a } :=
        (hl.trans (.of_frames inside u.admits_loose rfl rfl (.refl _))).mono (Nat.le_succ_of_le hid)
          (Nat.le_refl _)
      exact houter.under rfl rfl hid (by simp) ((Registers.Keeps.refl _).onward _ _ u.covers)
        fun r hr => hr
    refine hbody φ later inside (x + 1) w hinside hcode m (by omega) c' hc' hg'
      fun k hk d hip hf hl hgd => ?_
    have hl' := hl
    obtain ⟨-, -, F, K, hframes, hK, hF, -⟩ := hl'
    obtain rfl := hK.eq_of_ne (by simp)
    refine going_roundEnd (hip ▸ hend) hframes hF (Nat.lt_succ_self id) (fun j hj => ?_)
      fun hpos j hj => ?_
    · refine hnext j (by omega) _ (by rw [← hip]) hf (hleaves d _ hl) ?_
      exact (hgd.mono (Nat.le_of_lt hj)).keeps rfl rfl (.refl _)
    · have hpos : d.pos = c.pos := hpos.symm
      refine hskip j (by omega) _ (by rw [← hip]) hpos ?_ (hleaves d _ hl) ?_
      · have hf : f c.pos d.pos := hf
        rwa [hpos] at hf
      · exact (hgd.mono (Nat.le_of_lt hj)).keeps rfl rfl (.refl _)

/-! ## Repeats -/

theorem sure_star {greedy : Bool} {info : Info} {way : Way} {body : Part} {later : Nat → Prop}
    (hB : B.code = e.program.code) (hz : z.Ok) (hbody : Solid Goal N e u u.loose body f)
    (h : B.StarAt greedy info way body φ later z x y) :
    Sure Goal N e u u.loose φ z x y (f.atLeast 0) := by
  obtain ⟨g, o, w, hguard, hoffer, hround, hjump, rfl⟩ := h
  rw [hB] at hjump
  -- the jump back has one step less before it
  intro n
  induction n using Nat.strongRecOn with
  | ind n ih =>
    intro hn c hc hg hthen
    refine hc.guard (u := u) hB hg hguard fun m hm d hip hpos hl hgd => ?_
    refine (hc.after hz hl hip).offer (u := u) hB hgd hoffer (fun k hk d' hip' hpos' hl' hgd' => ?_)
      fun k hk d' hip' hpos' hl' hgd' => ?_
    · have hpos' : d'.pos = c.pos := hpos'.trans hpos
      have hld := hl.trans hl'
      refine sure_round hB hz hbody hround k (by omega) d' (hc.after hz hld hip') hgd'
        (fun j hj b hipb hf hlb hgb => ?_) fun j hj b hipb hposb hf hlb hgb => ?_
      · refine going_jump (hipb ▸ hjump) fun i hi => ?_
        have hlb' : Leaves e.program z u u.loose c { b with ip := x } :=
          (hld.trans hlb).trans (.of_frames z u.admits_loose rfl rfl (.refl _))
        refine ih i (by omega) (by omega) _ (hc.after hz hlb' rfl)
          ((hgb.mono (Nat.le_of_lt hi)).keeps rfl rfl (.refl _)) fun a ha q hq hfq hlq hgq => ?_
        obtain ⟨t, -, ht⟩ := hfq
        rw [hpos'] at hf
        exact hthen a (by omega) q hq ⟨t + 1, Nat.zero_le _, b.pos, hf, ht⟩ (hlb'.trans hlq) hgq
      · refine hthen j (by omega) b hipb ⟨1, Nat.zero_le _, ?_⟩ (hld.trans hlb) hgb
        rw [hpos'] at hf hposb
        rw [hposb]
        exact Extent.times_one hf
    · refine hthen k (by omega) d' hip' ⟨0, Nat.le_refl _, ?_⟩ (hl.trans hl') hgd'
      exact (hpos'.trans hpos).symm

theorem sure_greedyPlus {info : Info} {way : Way} {body : Part} {later : Nat → Prop}
    (hB : B.code = e.program.code) (hz : z.Ok) (hbody : Solid Goal N e u u.loose body f)
    (h : B.GreedyPlusAt info way body φ later z x y) :
    Sure Goal N e u u.loose φ z x y (f.atLeast 1) := by
  obtain ⟨g, w, hin, hguard, hfork, hround, hjump, rfl⟩ := h
  have hat : B.StarAt true info way body φ later z (x + 1) (w + 1) :=
    ⟨g, g + 1, w, hguard, ⟨hfork, rfl⟩, hround, hjump, rfl⟩
  have hstar : Sure Goal N e u u.loose φ z (x + 1) (w + 1) (f.atLeast 0) := sure_star hB hz hbody hat
  rw [hB] at hin hjump
  intro n hn c hc hg hthen
  refine going_jump (hc.ip ▸ hin) fun m hm => ?_
  have hgm := hg.mono (Nat.le_of_lt hm)
  have hl : Leaves e.program z u u.loose c { c with ip := g + 1 } :=
    .of_frames z u.admits_loose rfl rfl (.refl _)
  refine sure_round hB hz hbody hround m (by omega) _ (hc.after hz hl rfl)
    (hgm.keeps rfl rfl (.refl _)) (fun j hj b hipb hf hlb hgb => ?_)
    fun j hj b hipb hposb hf hlb hgb => ?_
  · refine going_jump (hipb ▸ hjump) fun i hi => ?_
    have hlb' : Leaves e.program z u u.loose c { b with ip := x + 1 } :=
      (hl.trans hlb).trans (.of_frames z u.admits_loose rfl rfl (.refl _))
    refine hstar i (by omega) _ (hc.after hz hlb' rfl)
      ((hgb.mono (Nat.le_of_lt hi)).keeps rfl rfl (.refl _)) fun a ha q hq hfq hlq hgq => ?_
    obtain ⟨t, -, ht⟩ := hfq
    exact hthen a (by omega) q hq ⟨t + 1, by omega, b.pos, hf, ht⟩ (hlb'.trans hlq) hgq
  · refine hthen j (by omega) b hipb ⟨1, Nat.le_refl _, ?_⟩ (hl.trans hlb) hgb
    rw [hposb]
    exact Extent.times_one hf

theorem sure_lazyPlus {info : Info} {way : Way} {body : Part} {later : Nat → Prop}
    (hB : B.code = e.program.code) (hz : z.Ok) (hbody : Solid Goal N e u u.loose body f)
    (h : B.LazyPlusAt info way body φ later z x y) :
    Sure Goal N e u u.loose φ z x y (f.atLeast 1) := by
  obtain ⟨g, w, hguard, hround, hfork, rfl⟩ := h
  rw [hB] at hfork
  -- another round is an alternative to what comes after the loop
  intro n
  induction n using Nat.strongRecOn with
  | ind n ih =>
    intro hn c hc hg hthen
    refine hc.guard (u := u) hB hg hguard fun m hm d hip hpos hl hgd => ?_
    refine sure_round hB hz hbody hround m (by omega) d (hc.after hz hl hip) hgd
      (fun j hj b hipb hf hlb hgb => ?_) fun j hj b hipb hposb hf hlb hgb => ?_
    · rw [hpos] at hf
      have hld := hl.trans hlb
      refine (hc.after hz hld hipb).fork (u := u) hgb hfork (fun i hi q hq hpq hlq hgq => ?_)
        fun i hi q hq hpq hlq hgq => ?_
      · refine hthen i (by omega) q hq ⟨1, Nat.le_refl _, ?_⟩ (hld.trans hlq) hgq
        rw [hpq]
        exact Extent.times_one hf
      · refine ih i (by omega) (by omega) q (hc.after hz (hld.trans hlq) hq) hgq
          fun a ha r hr hfr hlr hgr => ?_
        obtain ⟨t, ht1, ht⟩ := hfr
        rw [hpq] at ht
        exact hthen a (by omega) r hr ⟨t + 1, by omega, b.pos, hf, ht⟩
          ((hld.trans hlq).trans hlr) hgr
    · refine hthen j (by omega) b hipb ⟨1, Nat.le_refl _, ?_⟩ (hl.trans hlb) hgb
      rw [hpos] at hf hposb
      rw [hposb]
      exact Extent.times_one hf

theorem sure_plus {greedy : Bool} {info : Info} {way : Way} {body : Part} {later : Nat → Prop}
    (hB : B.code = e.program.code) (hz : z.Ok) (hbody : Solid Goal N e u u.loose body f)
    (h : B.PlusAt greedy info way body φ later z x y) :
    Sure Goal N e u u.loose φ z x y (f.atLeast 1) := by
  unfold Built.PlusAt at h
  split at h
  · exact sure_greedyPlus hB hz hbody h
  · exact sure_lazyPlus hB hz hbody h

theorem sure_times {way : Way} {body : Part} {later : Nat → Prop} (hz : z.Ok)
    (hbody : Solid Goal N e u u.loose body f) (k : Nat) (h : Built.TimesAt way body k φ later z x y) :
    Sure Goal N e u u.loose φ z x y (f.times k) := by
  induction k generalizing x later with
  | zero =>
    obtain rfl : x = y := h
    exact sure_here
  | succ k ih =>
    obtain ⟨w, hw, hrest⟩ := h
    exact (hbody φ _ z x w hz hw).andThen hz (.refl u) (ih hrest)

theorem sure_upTo {greedy : Bool} {way : Way} {body : Part} {later : Nat → Prop}
    (hB : B.code = e.program.code) (hz : z.Ok) (hbody : Solid Goal N e u u.loose body f) (k : Nat)
    (h : B.UpToAt greedy way body k φ later z x y) :
    Sure Goal N e u u.loose φ z x y (f.atLeast 0) := by
  induction k generalizing x later with
  | zero =>
    obtain rfl : x = y := h
    exact sure_here.weaken fun p q hpq => ⟨0, Nat.le_refl _, hpq⟩
  | succ k ih =>
    obtain ⟨o, w, hoffer, hw, hrest⟩ := h
    intro n hn c hc hg hthen
    refine hc.offer (u := u) hB hg hoffer (fun m hm d hip hpos hl hgd => ?_)
      fun m hm d hip hpos hl hgd => ?_
    · refine ((hbody φ _ z o w hz hw).andThen hz (.refl u) (ih hrest)) m (by omega) d (hc.after hz hl hip) hgd
        fun j hj b hipb hf hlb hgb => ?_
      obtain ⟨p, hp, t, -, ht⟩ := hf
      rw [hpos] at hp
      exact hthen j (by omega) b hipb ⟨t + 1, Nat.zero_le _, p, hp, ht⟩ (hl.trans hlb) hgb
    · exact hthen m (by omega) d hip ⟨0, Nat.le_refl _, hpos.symm⟩ hl hgd

theorem sure_unrolled {b : Bounds} {greedy : Bool} {info : Info} {way : Way} {body : Part}
    {later : Nat → Prop} (hB : B.code = e.program.code) (hz : z.Ok)
    (hbody : Solid Goal N e u u.loose body f) (h : B.UnrolledAt b greedy info way body φ later z x y) :
    Sure Goal N e u u.loose φ z x y (f.atLeast b.least) := by
  have hleast := b.least_le_min
  unfold Built.UnrolledAt at h
  split at h
  · obtain ⟨w, hfront, hplus⟩ := h
    refine ((sure_times hz hbody _ hfront).andThen hz (.refl u) (sure_plus hB hz hbody hplus)).weaken ?_
    rintro p q ⟨m, hm, t, ht1, ht⟩
    exact ⟨b.min - 1 + t, by omega, Extent.times_add hm ht⟩
  · obtain ⟨w, hfront, hrest⟩ := h
    refine ((sure_times hz hbody _ hfront).andThen hz (.refl u) (sure_upTo hB hz hbody _ hrest)).weaken ?_
    rintro p q ⟨m, hm, t, -, ht⟩
    exact ⟨b.min + t, by omega, Extent.times_add hm ht⟩

/-! ## Counted loops -/

/-- Going on with a round or at the exit is safe if both are, each for the registers that it may be
resumed with. -/
theorem Rounds.going {l : CountedLoop} {round out : Bool} (h : Rounds l round out c d)
    (hg : Grounded Goal u.loose n e c)
    (hround : round = true → ∀ d : View, d.ip = l.body → d.pos = c.pos → c.regs.Keeps u.loose d.regs →
      Leaves e.program z u u.loose c d → Grounded Goal u.loose n e d → Going Goal n e d)
    (hout : out = true → ∀ d : View, d.ip = l.exit → d.pos = c.pos → c.regs.Keeps u.loose d.regs →
      Leaves e.program z u u.loose c d → Grounded Goal u.loose n e d → Going Goal n e d) : Going Goal n e d := by
  have hregs : c.regs.Keeps u.loose d.regs := h.regs ▸ .refl _
  have hstay : d.frames = c.frames → Leaves e.program z u u.loose c d ∧ Grounded Goal u.loose n e d := fun hf =>
    ⟨.of_frames z u.admits_loose h.start hf hregs, hg.keeps h.start hf hregs⟩
  have hforked : ∀ a, d.frames = .alternative a c.pos :: c.frames →
      (∀ d : View, d.ip = a → d.pos = c.pos → c.regs.Keeps u.loose d.regs →
        Leaves e.program z u u.loose c d → Grounded Goal u.loose n e d → Going Goal n e d) →
      Leaves e.program z u u.loose c d ∧ Grounded Goal u.loose n e d := by
    intro a hf hgo
    refine ⟨Leaves.under_choice (.of_frames z u.admits_loose rfl rfl (.refl _)) u.admits_loose h.start rfl hf hregs, ?_⟩
    have hresume : ∀ d' : View, d'.ip = a → d'.pos = c.pos → d'.start = c.start →
        d'.frames = c.frames → c.regs.Keeps u.loose d'.regs → Going Goal n e d' :=
      fun d' hip hpos hs hf hr => hgo d' hip hpos hr (.of_frames z u.admits_loose hs hf hr) (hg.keeps hs hf hr)
    have halt := grounded_alternative hresume d.ip d.pos
    refine halt.keeps h.start hf ?_
    exact hregs
  rcases h.case with ⟨hr, hip, hf⟩ | ⟨ho, hip, hf⟩ | ⟨hr, ho, ⟨hip, hf⟩ | ⟨hip, hf⟩⟩
  · exact hround hr d hip h.pos hregs (hstay hf).1 (hstay hf).2
  · exact hout ho d hip h.pos hregs (hstay hf).1 (hstay hf).2
  · have := hforked _ hf (hout ho)
    exact hround hr d hip h.pos hregs this.1 this.2
  · have := hforked _ hf (hround hr)
    exact hout ho d hip h.pos hregs this.1 this.2

section
variable {id k j : Nat} {p : Program}

/-- The record of a count gives it back. -/
theorem View.counting_undo (hk : c.regs.counts[id]? = some k) (r : Registers)
    (hr : (c.counting id k j).regs.Keeps u.loose r) : c.regs.Keeps u.loose (r.undo p (.count id k)) := by
  refine ⟨hr.slots, ?_, hr.depth, hr.start⟩
  have hcounts : r.counts = c.regs.counts.setIfInBounds id j := hr.counts
  have hlt := (Array.getElem?_eq_some_iff.mp hk).1
  change r.counts.setIfInBounds id k = c.regs.counts
  rw [hcounts]
  apply Array.ext_getElem?
  intro i
  simp only [Array.getElem?_setIfInBounds, Array.size_setIfInBounds]
  by_cases hi : id = i
  · subst hi
    simp [hlt, ← hk]
  · simp [hi]

theorem Grounded.counting (hk : c.regs.counts[id]? = some k) (hg : Grounded Goal u.loose n e c) (j : Nat) :
    Grounded Goal u.loose n e (c.counting id k j) :=
  hg.undo rfl rfl rfl fun r hr => View.counting_undo hk r hr

theorem Leaves.counting (hk : c.regs.counts[id]? = some k) (hlo : z.loops ≤ id) (hhi : id < u.loops)
    (h : Leaves p z u u.loose (c.counting id k j) d) : Leaves p z u u.loose c d := by
  refine h.under (f := .count id k) rfl rfl trivial (by simp) ?_ fun r hr => View.counting_undo hk r hr
  refine ⟨rfl, by simp [View.counting], fun i hi => ?_, rfl, fun _ _ => rfl⟩
  have hne : id ≠ i := by omega
  simp only [View.counting, Array.getElem?_setIfInBounds, hne, ↓reduceIte]

end

theorem sure_counted {b : Bounds} {greedy : Bool} {info : Info} {body : Part} {later : Nat → Prop}
    (hB : B.code = e.program.code)
    (hloops : ∀ (id : Nat) l, B.loops[id]? = some l →
      id < u.loops ∧ e.program.tables.loops[id]? = some l)
    (hz : z.Ok) (hbody : Solid Goal N e u u.loose body f) (h : B.CountedAt b greedy info body φ later z x y) :
    Sure Goal N e u u.loose φ z x y (f.atLeast b.least) := by
  obtain ⟨id, w, hid, henter, hloop, hround, hnext, rfl⟩ := h
  obtain ⟨hhi, hloop⟩ := hloops id _ hloop
  rw [hB] at henter hnext
  let inside : Zone := ⟨z.within, z.checks, id + 1⟩
  have hinside : inside.Ok := hz
  -- rounds made so far are those that have been counted
  have loop : ∀ n ≤ N, ∀ (p j : Nat) (c : View), c.ip = x + 1 → c.regs.Fits e.program →
      c.regs.counts[id]? = some j → f.times j p c.pos → Grounded Goal u.loose n e c →
      (∀ m ≤ n, ∀ d : View, d.ip = w + 1 → f.atLeast b.least p d.pos →
        Leaves e.program z u u.loose c d → Grounded Goal u.loose m e d → Going Goal m e d) →
      Going Goal n e c := by
    intro n
    induction n using Nat.strongRecOn with
    | ind n ih =>
      intro hn p j c hip hfits hj htimes hg hthen
      have hc : Entered e none inside (x + 1) c := ⟨hip, hfits, by simp⟩
      refine sure_round hB hinside hbody hround n hn c hc hg (fun m hm d hipd hf hl hgd => ?_)
        fun m hm d hipd hpos hf hl hgd => ?_
      · have hjd : d.regs.counts[id]? = some j := by
          rw [hl.onward.counts id (Or.inl (Nat.lt_succ_self id)), hj]
        have htimes' : f.times (j + 1) p d.pos := Extent.times_snoc htimes hf
        have hfitsd := hfits.onward hl.onward
        have hlz : Leaves e.program z u u.loose c d :=
          hl.mono (Nat.le_refl _) (Nat.le_succ_of_le hid)
        have hcount : ∀ d' : View, (d.counting id j (j + 1)).regs.Keeps u.loose d'.regs →
            d'.regs.counts[id]? = some (j + 1) := by
          intro d' hr
          have hlt := (Array.getElem?_eq_some_iff.mp hjd).1
          rw [hr.counts]
          simp [View.counting, hlt]
        refine going_repeatNext (hipd ▸ hnext) hloop hjd fun k hk d' hd' => ?_
        refine hd'.going (z := z) (u := u)
          ((hgd.mono (Nat.le_of_lt hk)).counting hjd (j + 1)) (fun _ q hq hpq hr hlq hgq => ?_)
          fun hout q hq hpq hr hlq hgq => ?_
        · have hfits' : q.regs.Fits e.program :=
            ⟨hr.slots.trans hfitsd.slots, by rw [hr.counts]; simpa [View.counting] using hfitsd.counts⟩
          refine ih k (by omega) (by omega) p (j + 1) q hq hfits' (hcount q hr) (hpq ▸ htimes') hgq
            fun i hi r hr hfr hlr hgr => ?_
          exact hthen i (by omega) r hr hfr ((hlz.trans (hlq.counting hjd hid hhi)).trans hlr) hgr
        · refine hthen k (by omega) q hq ⟨j + 1, Bounds.least_le hout, ?_⟩
            (hlz.trans (hlq.counting hjd hid hhi)) hgq
          rw [hpq]
          exact htimes'
      · refine hthen m hm d hipd ?_ (hl.mono (Nat.le_refl _) (Nat.le_succ_of_le hid)) hgd
        rw [hpos]
        exact Extent.atLeast_of_stay htimes hf _
  intro n hn c hc hg hthen
  obtain ⟨k, hk⟩ := hc.fits.count hloop
  refine going_repeatEnter (hc.ip ▸ henter) hloop hk fun m hm d hd => ?_
  refine hd.going (z := z) (u := u) ((hg.mono (Nat.le_of_lt hm)).counting hk 0)
    (fun _ q hq hpq hr hlq hgq => ?_) fun hout q hq hpq hr hlq hgq => ?_
  · have hlt := (Array.getElem?_eq_some_iff.mp hk).1
    have hfits' : q.regs.Fits e.program :=
      ⟨hr.slots.trans hc.fits.slots, by rw [hr.counts]; simpa [View.counting] using hc.fits.counts⟩
    have hcount : q.regs.counts[id]? = some 0 := by
      rw [hr.counts]
      simp [View.counting, hlt]
    have hpos : c.pos = q.pos := hpq.symm
    refine loop m (by omega) c.pos 0 q hq hfits' hcount hpos hgq fun i hi r hr hfr hlr hgr => ?_
    exact hthen i (by omega) r hr hfr ((hlq.counting hk hid hhi).trans hlr) hgr
  · have hmin : b.min = 0 := of_decide_eq_true hout
    refine hthen m (by omega) q hq ⟨0, Bounds.least_le ?_, hpq.symm⟩ (hlq.counting hk hid hhi) hgq
    simp [hmin]

/-! ## Whole repeats -/

theorem sure_repeat {b : Bounds} {greedy : Bool} {info : Info} {way : Way} {body : Part}
    {later : Nat → Prop} (node : Node Measured) (hB : B.code = e.program.code)
    (hloops : ∀ (id : Nat) l, B.loops[id]? = some l →
      id < u.loops ∧ e.program.tables.loops[id]? = some l)
    (hz : z.Ok) (hbody : Solid Goal N e u u.loose body f)
    (h : B.RepeatAt b greedy (repeatPlan b node) info way body φ later z x y) :
    Sure Goal N e u u.loose φ z x y (f.atLeast b.least) := by
  generalize hplan : repeatPlan b node = plan at h
  have hzero : b.least = 0 → Sure Goal N e u u.loose φ z x y (f.atLeast 0) →
      Sure Goal N e u u.loose φ z x y (f.atLeast b.least) := fun hb hs => hb ▸ hs
  obtain ⟨min, max⟩ := b
  unfold repeatPlan at hplan
  split at hplan
  · rename_i hmax
    cases hplan
    obtain rfl : max = some 0 := hmax
    obtain rfl : x = y := h
    exact hzero (Nat.min_zero min) (sure_here.weaken fun p q hpq => ⟨0, Nat.le_refl _, hpq⟩)
  · rename_i hmin hmax
    cases hplan
    obtain rfl : min = 0 := hmin
    obtain rfl : max = some 1 := hmax
    exact hzero (Nat.zero_min 1) (sure_upTo hB hz hbody 1 h)
  · rename_i hmin hmax
    cases hplan
    obtain rfl : min = 0 := hmin
    obtain rfl : max = none := hmax
    exact hzero rfl (sure_star hB hz hbody h)
  · rename_i hmin hmax
    cases hplan
    obtain rfl : min = 1 := hmin
    obtain rfl : max = none := hmax
    exact sure_plus hB hz hbody h
  · split at hplan
    · cases hplan
      exact sure_unrolled hB hz hbody h
    · cases hplan
      exact sure_counted hB hloops hz hbody h

/-- Alternatives at the places that any characters lead to can be resumed. -/
theorem grounded_places {a : Addr} {ps : List Nat} (hg : Grounded Goal u.loose n e c) (hf : d.frames =
      ps.map (.alternative a) ++ c.frames) (hs : d.start = c.start) (hr : c.regs.Keeps u.loose d.regs)
    (h : ∀ p ∈ ps, ∀ d : View, d.ip = a → d.pos = p → Leaves e.program z u u.loose c d →
      Grounded Goal u.loose n e d → Going Goal n e d) :
    Grounded Goal u.loose n e d ∧ Leaves e.program z u u.loose c d := by
  induction ps generalizing d with
  | nil => exact ⟨hg.keeps hs hf hr, .of_frames z u.admits_loose hs hf hr⟩
  | cons p ps ih =>
    let below : View := { d with frames := ps.map (.alternative a) ++ c.frames }
    have hps := fun q hq => h q (List.mem_cons_of_mem p hq)
    obtain ⟨hgb, hlb⟩ := ih (d := below) rfl hs hr hps
    have hgd : Grounded Goal u.loose n e { below with frames := .alternative a p :: below.frames } := by
      refine grounded_alternative (fun d' hip hpos hs' hf' hr' => ?_) below.ip below.pos
      obtain ⟨hgd', hld'⟩ := ih (d := d') hf' (hs'.trans hs) (hr.trans hr') hps
      exact h p (by simp) d' hip hpos hld' hgd'
    refine ⟨hgd.keeps rfl hf (.refl _), hlb.trans ?_⟩
    exact Leaves.under_choice (.of_frames z u.admits_loose rfl rfl (.refl _)) u.admits_loose rfl rfl hf (.refl _)

/-- A run of any characters is a repeat of one of them. -/
theorem sure_takeAny {i : Instr} {multiline : Bool} {before : Option UInt8}
    (hi : e.program.code[x]? = some i) (ho : i.isOrdinary = true)
    (hx : ∀ r, exec r e i = takeAny e multiline before) :
    Sure Goal N e u u.loose φ z x (x + 1)
      ((Extent.text (e.subject.anyLength? · multiline)).atLeast 0) := by
  intro n hn c hc hg hthen
  refine going_takeAny (hc.ip ▸ hi) ho hx fun m hm q ps hq hps => ?_
  have hip : c.ip + 1 = x + 1 := by rw [hc.ip]
  let after : View :=
    { c with
      ip := c.ip + 1, pos := q
      frames := ps.map (.alternative (c.ip + 1)) ++ c.frames }
  obtain ⟨hgd, hld⟩ := grounded_places (z := z) (u := u) (d := after) (a := c.ip + 1)
    (hg.mono (Nat.le_of_lt hm)) rfl rfl (.refl _) fun p hp d hipd hpos hl hgd => by
      obtain ⟨k, hk⟩ := hps p hp
      exact hthen m (Nat.le_of_lt hm) d (hipd.trans hip) ⟨k, Nat.zero_le _, hpos ▸ hk⟩ hl hgd
  obtain ⟨k, hk⟩ := hq
  exact hthen m (Nat.le_of_lt hm) after hip ⟨k, Nat.zero_le _, hk⟩ hld hgd

end RegexMachine.Machine
