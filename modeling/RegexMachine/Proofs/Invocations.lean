import RegexMachine.Proofs.Nesting
import RegexMachine.Proofs.Visits

/-!
The stack as that of nested invocations. The run itself is one, and every call begins another. The
frames of an invocation lie above the call that began it; when it returns they stay, between that call
and the record of its return, and the frames that its caller leaves from then on come to lie above.
Whatever a frame resumes at is a place that the invocation it belongs to comes to.
-/
namespace RegexMachine

/-! ## Registers -/

namespace Captures

theorem start?_setStart_eq (c : Captures) (g k : Nat) (start : Option Nat) :
    (c.setStart g start).start? k =
      if k = g ∧ g < c.slots.size then start else c.start? k := by
  by_cases hg : g < c.slots.size
  · rw [start?_setStart hg]
    simp [hg]
  · have hnone : c.slot? g = .none := Array.getElem?_eq_none (Nat.not_lt.mp hg)
    simp only [start?, slot?_setStart, hg, and_false, if_false]
    split
    · subst k
      rw [hnone]
      rfl
    · rfl

theorem start?_restore (c : Captures) (g k : Nat) (s : Slot) (h : History) :
    (c.restore g s h).start? k = if k = g ∧ g < c.slots.size then s.start else c.start? k := by
  change ((c.setSlot g s).slot? k).bind Slot.start = _
  rw [slot?_setSlot]
  split <;> rfl

/-- What the start of a group is set to does not depend on other groups. -/
theorem start?_setStarts_congr (pairs : List (Nat × Option Nat)) {c d : Captures} {k : Nat}
    (hsize : d.slots.size = c.slots.size) (h : d.start? k = c.start? k) :
    (pairs.foldl (fun c e => c.setStart e.1 e.2) d).start? k =
      (pairs.foldl (fun c e => c.setStart e.1 e.2) c).start? k := by
  induction pairs generalizing c d with
  | nil => exact h
  | cons e pairs ih =>
    refine ih (by simpa using hsize) ?_
    rw [start?_setStart_eq, start?_setStart_eq, hsize, h]

end Captures

namespace Machine
namespace Registers

/-- Registers with the same counts, the same open calls and, for the groups of a kind, the same
starts. -/
structure Like (kind : Nat → Prop) (r r' : Registers) : Prop where
  slots : r'.captures.slots.size = r.captures.slots.size
  start : ∀ g, kind g → r'.captures.start? g = r.captures.start? g
  counts : r'.counts = r.counts
  depth : r'.depth = r.depth

/-- Registers that differ in groups and loops of a subroutine at most. -/
structure Spares (kind : Nat → Prop) (s : Subroutine) (r r' : Registers) : Prop where
  slots : r'.captures.slots.size = r.captures.slots.size
  start : ∀ g, kind g → g ∉ s.captures.toList → r'.captures.start? g = r.captures.start? g
  size : r'.counts.size = r.counts.size
  counts : ∀ id, ¬ (s.loops.first ≤ id ∧ id < s.loops.stop) → r'.counts[id]? = r.counts[id]?
  depth : r'.depth = r.depth

variable {p : Program} {kind : Nat → Prop} {s : Subroutine} {r r' r'' : Registers} {f : Frame}

namespace Like

theorem refl (r : Registers) : Like kind r r := ⟨rfl, fun _ _ => rfl, rfl, rfl⟩

theorem of_eq (h : r' = r) : Like kind r r' := by
  subst h
  exact refl _

theorem symm (h : Like kind r r') : Like kind r' r :=
  ⟨h.slots.symm, fun g hg => (h.start g hg).symm, h.counts.symm, h.depth.symm⟩

theorem trans (h : Like kind r r') (h' : Like kind r' r'') : Like kind r r'' :=
  ⟨h'.slots.trans h.slots, fun g hg => (h'.start g hg).trans (h.start g hg),
    h'.counts.trans h.counts, h'.depth.trans h.depth⟩

theorem fits (h : Like kind r r') (hr : r.Fits p) : r'.Fits p :=
  ⟨h.slots.trans hr.slots, (congrArg Array.size h.counts).trans hr.counts⟩

theorem setCallState (h : Like kind r r') (sub : Nat) (c : CallState) :
    Like kind (r.setCallState p sub c) (r'.setCallState p sub c) := by
  unfold Registers.setCallState
  split
  · exact h
  · rename_i inside _
    have hspec := Captures.setStarts_spec (inside.captures.toList.zip c.starts)
    exact {
      slots := (hspec r'.captures).1.trans (h.slots.trans (hspec r.captures).1.symm)
      start := fun g hg => Captures.start?_setStarts_congr _ h.slots (h.start g hg)
      counts := congrArg (writeFrom · _ _) h.counts
      depth := h.depth }

/-- Undoing the same gives what is alike again. -/
theorem undo (h : Like kind r r') (f : Frame) : Like kind (r.undo p f) (r'.undo p f) := by
  cases f with
  | capture g slot history =>
    refine ⟨by simpa [Registers.undo, Captures.restore] using h.slots, fun k hk => ?_, h.counts,
      h.depth⟩
    change (r'.captures.restore g slot history).start? k = (r.captures.restore g slot history).start? k
    rw [Captures.start?_restore, Captures.start?_restore, h.slots, h.start k hk]
  | count loop rounds =>
    exact ⟨h.slots, h.start, congrArg (·.setIfInBounds loop rounds) h.counts, h.depth⟩
  | keep start => exact ⟨h.slots, h.start, h.counts, h.depth⟩
  | call back sub saved => exact ⟨h.slots, h.start, h.counts, congrArg (· - 1) h.depth⟩
  | returned sub c =>
    have hset := h.setCallState (p := p) sub c
    exact ⟨hset.slots, hset.start, hset.counts, congrArg (· + 1) h.depth⟩
  | _ => exact h

theorem undoAll (h : Like kind r r') (F : List Frame) :
    Like kind (r.undoAll p F) (r'.undoAll p F) := by
  induction F generalizing r r' with
  | nil => exact h
  | cons f F ih => exact ih (h.undo f)

theorem spares (h : Like kind r r') (s : Subroutine) : Spares kind s r r' :=
  ⟨h.slots, fun g hg _ => h.start g hg, congrArg Array.size h.counts, fun _ _ => by rw [h.counts],
    h.depth⟩

end Like

theorem Agrees.like (h : r.Agrees p r') : Like p.Restores r r' :=
  ⟨h.size, fun g hg => congrArg (·.bind Slot.start) (h.slot g hg), h.counts, h.depth⟩

namespace Spares

theorem refl (r : Registers) : Spares kind s r r :=
  ⟨rfl, fun _ _ _ => rfl, rfl, fun _ _ => rfl, rfl⟩

theorem trans (h : Spares kind s r r') (h' : Spares kind s r' r'') : Spares kind s r r'' :=
  ⟨h'.slots.trans h.slots, fun g hg hs => (h'.start g hg hs).trans (h.start g hg hs),
    h'.size.trans h.size, fun id hid => (h'.counts id hid).trans (h.counts id hid),
    h'.depth.trans h.depth⟩

end Spares

end Registers

/-! ## Invocations -/

/-- What is running: the places it comes to, and its subroutine unless it is the run itself. -/
structure Invocation where
  places : Addr → Nat → Prop
  sub? : Option Nat

/-- What a call of a subroutine that is entered at an address begins at a position. -/
def Invocation.ofCall (e : Setting) (entry pos sub : Nat) : Invocation := ⟨Reach e entry pos, some sub⟩

namespace Invocation

/-- Wherever an invocation comes to, it comes to where that leads. -/
structure Goes (A : Invocation) (e : Setting) : Prop where
  leads : ∀ a x i b y, A.places a x → e.program.code[a]? = some i → Leads e i a x b y → A.places b y
  call : ∀ a x t sub b y, A.places a x → e.program.code[a]? = some (.call t sub) →
    Reach e t x b y → e.program.code[b]? = some .ret → A.places (a + 1) y

theorem goes_ofCall (e : Setting) (entry pos sub : Nat) : (ofCall e entry pos sub).Goes e :=
  ⟨fun _ _ _ _ _ h hi hto => h.step hi hto, fun _ _ _ _ _ _ h hcall hb hret => h.call hcall hb hret⟩

/-- Frames that an invocation leaves. -/
def Owns (A : Invocation) (e : Setting) : Frame → Prop
  | .alternative b y => A.places b y
  | .stepBack b y _ => ∀ z ≤ y, A.places b z
  | .absent b start stop => ∀ z, start ≤ z → z ≤ stop → A.places b z
  | .capture g _ _ => ∃ a x i, A.places a x ∧ e.program.code[a]? = some i ∧ i.Saves g
  | .count id _ => ∃ a x i, A.places a x ∧ e.program.code[a]? = some i ∧ i.Counts id
  | .look mark y => ∃ a, A.places a y ∧ e.program.code[a]? = some (.lookStart mark)
  | .call _ _ _ => False
  | .returned _ _ => False
  | .guard _ _ => True
  | .keep _ => True
  | .atomic _ => True
  | .round _ _ => True
  | .void => True

variable {A : Invocation} {e : Setting} {c : View} {i : Instr} {f g : Frame}

theorem Owns.not_call (h : A.Owns e f) : FrameStack.isCallFrame f = false := by
  cases f with
  | call => exact h.elim
  | returned => exact h.elim
  | _ => rfl

theorem owns_leftBy (hgoes : A.Goes e) (hc : A.places c.ip c.pos)
    (hi : e.program.code[c.ip]? = some i) (h : LeftBy e i c f) : A.Owns e f := by
  have hto : ∀ b y, Leads e i c.ip c.pos b y → A.places b y := fun b y =>
    hgoes.leads _ _ _ _ _ hc hi
  cases f with
  | alternative b y => exact hto b y h
  | stepBack b y more => exact fun z hz => hto b z (h z hz)
  | absent b start stop => exact fun z hz hz' => hto b z (h z hz hz')
  | capture g slot history => exact ⟨c.ip, c.pos, i, hc, hi, h.1⟩
  | count id n => exact ⟨c.ip, c.pos, i, hc, hi, h⟩
  | look mark y =>
    obtain ⟨rfl, rfl⟩ := h
    exact ⟨c.ip, hc, hi⟩
  | call => exact h.elim
  | returned => exact h.elim
  | _ => trivial

/-- A frame resumes where its invocation comes to, and so does the frame in its place. -/
theorem Owns.resuming {a : Addr} {y : Nat} {top : List Frame} (h : A.Owns e g)
    (hg : Resuming e g a y top) : A.places a y ∧ ∀ f ∈ top, A.Owns e f := by
  cases hg with
  | alternative => exact ⟨h, nofun⟩
  | stepBack hp htop =>
    have hle := Nat.le_of_lt (Subject.prev?_lt hp)
    refine ⟨h _ hle, fun f hf => ?_⟩
    rcases htop with rfl | ⟨more', rfl⟩
    · cases hf
    · exact List.mem_singleton.mp hf ▸ fun z hz => h z (Nat.le_trans hz hle)
  | absent hp htop =>
    obtain ⟨hp, hle⟩ := Option.filter_eq_some_iff.mp hp
    have hstop := Nat.le_of_lt (Subject.prev?_lt hp)
    refine ⟨h _ (of_decide_eq_true hle) hstop, fun f hf => ?_⟩
    rcases htop with rfl | rfl
    · cases hf
    · exact List.mem_singleton.mp hf ▸ fun z hz hz' => h z hz (Nat.le_trans hz' hstop)

end Invocation

/-! ## Nested invocations -/

/-- What nested invocations stand on: one that runs there, the frames below, and the registers when
all frames above are undone. -/
structure Ground where
  root : Invocation
  frames : List Frame
  regs : Registers

/-- The ground has no frames, or a call is on top. -/
def Ground.Firm (Γ : Ground) : Prop :=
  Γ.frames = [] ∨ ∃ back sub saved K, Γ.frames = .call back sub saved :: K

/-- What is found on firm ground without a call in between is not there. -/
theorem Ground.Firm.not_locates {Γ : Ground} (hΓ : Γ.Firm) {q : Frame → Bool} {F K : List Frame}
    {m : Frame} (hF : Locates q 0 F m) : Γ.frames ≠ F ++ m :: K := by
  intro hframes
  rcases hΓ with hnone | ⟨back, sub, saved, L, htop⟩
  · simp [hnone] at hframes
  · rw [htop] at hframes
    cases hF with
    | here hm hc =>
      cases (List.cons.inj hframes).1
      cases hc
    | returned => cases (List.cons.inj hframes).1
    | other hc =>
      cases (List.cons.inj hframes).1
      cases hc

/-- The registers and frames of nested invocations of which the given one runs. The position at which
each call was made is told by the height of its frame. Undoing frames gives the registers in which
they were left, and an invocation that has returned has left those of its caller as they were. -/
inductive Held (e : Setting) (kind : Nat → Prop) (γ : Nat → Nat) (Γ : Ground) :
    Invocation → Registers → List Frame → Prop
  | ground {r : Registers} (h : Γ.regs.Like kind r) : Held e kind γ Γ Γ.root r Γ.frames
  | own {A : Invocation} {r : Registers} {f : Frame} {K : List Frame} (hf : A.Owns e f)
    (h : Held e kind γ Γ A (r.undo e.program f) K) : Held e kind γ Γ A r (f :: K)
  | call {A : Invocation} {r : Registers} {K : List Frame} {a t sub : Nat} {s : Subroutine}
    {saved : CallState} (hcode : e.program.code[a]? = some (.call t sub))
    (hplace : A.places a (γ K.length)) (hs : e.program.tables.subroutines[sub]? = some s)
    (hsaved : ∃ r₀, (r.undo e.program (.call (a + 1) sub saved)).Like kind r₀ ∧ saved = r₀.saved s)
    (hdepth : r.depth ≠ 0)
    (h : Held e kind γ Γ A (r.undo e.program (.call (a + 1) sub saved)) K) :
    Held e kind γ Γ (.ofCall e t (γ K.length) sub) r (.call (a + 1) sub saved :: K)
  | returned {A B : Invocation} {r : Registers} {G K : List Frame} {sub : Nat} {undo : CallState}
    {back : Addr} {sub' : Nat} {saved : CallState} (hG : Balanced G)
    (hcallee : Held e kind γ Γ B (r.undo e.program (.returned sub undo))
      (G ++ .call back sub' saved :: K))
    (hlike : r.Like kind
      (r.undoAll e.program (.returned sub undo :: (G ++ [.call back sub' saved]))))
    (h : Held e kind γ Γ A
      (r.undoAll e.program (.returned sub undo :: (G ++ [.call back sub' saved]))) K) :
    Held e kind γ Γ A r (.returned sub undo :: (G ++ .call back sub' saved :: K))

namespace Held
variable {e : Setting} {kind : Nat → Prop} {γ γ' : Nat → Nat} {Γ : Ground} {A : Invocation}
  {r r' : Registers} {F G K L : List Frame} {f m : Frame}

/-- The ground lies below. -/
theorem above (h : Held e kind γ Γ A r K) : ∃ F, K = F ++ Γ.frames := by
  induction h with
  | ground => exact ⟨[], rfl⟩
  | @own A r f K hf h ih =>
    obtain ⟨F, rfl⟩ := ih
    exact ⟨f :: F, rfl⟩
  | call hcode hplace hs hsaved hdepth h ih =>
    obtain ⟨F, rfl⟩ := ih
    exact ⟨_ :: F, rfl⟩
  | returned hG hcallee hlike h ih ih' =>
    obtain ⟨F, hF⟩ := ih
    exact ⟨_ :: F, congrArg (_ :: ·) hF⟩

/-- A frame above the ground can be popped. -/
theorem pop (h : Held e kind γ Γ A r (f :: K)) (hK : Γ.frames.length ≤ K.length) :
    ∃ B, Held e kind γ Γ B (r.undo e.program f) K := by
  generalize hL : f :: K = L at h
  cases h with
  | ground =>
    rw [← hL, List.length_cons] at hK
    omega
  | own hf h =>
    cases hL
    exact ⟨_, h⟩
  | call hcode hplace hs hsaved hdepth h =>
    cases hL
    exact ⟨_, h⟩
  | returned hG hcallee hlike h =>
    cases hL
    exact ⟨_, hcallee⟩

theorem popAll (h : Held e kind γ Γ A r (F ++ K)) (hK : Γ.frames.length ≤ K.length) :
    ∃ B, Held e kind γ Γ B (r.undoAll e.program F) K := by
  induction F generalizing A r with
  | nil => exact ⟨A, h⟩
  | cons f F ih =>
    obtain ⟨B, hB⟩ := h.pop (by simp; omega)
    exact ih hB

theorem push (hF : ∀ f ∈ F, A.Owns e f) (h : Held e kind γ Γ A (r.undoAll e.program F) K) :
    Held e kind γ Γ A r (F ++ K) := by
  induction F generalizing r with
  | nil => exact h
  | cons f F ih => exact .own (hF f (by simp)) (ih (fun g hg => hF g (List.mem_cons_of_mem _ hg)) h)

/-- A frame that begins or ends no invocation belongs to the one that runs. -/
theorem top (h : Held e kind γ Γ A r (f :: K)) (hK : Γ.frames.length ≤ K.length)
    (hf : FrameStack.isCallFrame f = false) :
    A.Owns e f ∧ Held e kind γ Γ A (r.undo e.program f) K := by
  generalize hL : f :: K = L at h
  cases h with
  | ground =>
    rw [← hL, List.length_cons] at hK
    omega
  | own hf h =>
    cases hL
    exact ⟨hf, h⟩
  | call =>
    cases hL
    cases hf
  | returned =>
    cases hL
    cases hf

theorem like (h : Held e kind γ Γ A r K) (hr : r.Like kind r') : Held e kind γ Γ A r' K := by
  induction h generalizing r' with
  | ground h => exact .ground (h.trans hr)
  | own hf h ih => exact .own hf (ih (hr.undo _))
  | call hcode hplace hs hsaved hdepth h ih =>
    obtain ⟨r₀, hr₀, rfl⟩ := hsaved
    exact .call hcode hplace hs ⟨r₀, (hr.undo _).symm.trans hr₀, rfl⟩
      (fun h => hdepth (hr.depth.symm.trans h)) (ih (hr.undo _))
  | returned hG hcallee hlike h ih ih' =>
    exact .returned hG (ih (hr.undo _)) ((hr.symm.trans hlike).trans (hr.undoAll _))
      (ih' (hr.undoAll _))

/-- Only the positions of calls that are on the stack matter. -/
theorem chart (h : Held e kind γ Γ A r K) (hγ : ∀ n < K.length, γ' n = γ n) :
    Held e kind γ' Γ A r K := by
  induction h with
  | ground h => exact .ground h
  | own hf h ih => exact .own hf (ih fun n hn => hγ n (Nat.lt_succ_of_lt hn))
  | call hcode hplace hs hsaved hdepth h ih =>
    rw [← hγ _ (Nat.lt_succ_self _)] at hplace ⊢
    exact .call hcode hplace hs hsaved hdepth (ih fun n hn => hγ n (Nat.lt_succ_of_lt hn))
  | returned hG hcallee hlike h ih ih' =>
    simp only [List.length_cons, List.length_append] at hγ
    refine .returned hG (ih fun n hn => hγ n ?_) hlike (ih' fun n hn => hγ n ?_)
    · simp only [List.length_append, List.length_cons] at hn
      omega
    · omega

/-- Whatever goes on in invocations above the ground goes on as their code says. -/
theorem goes (hroot : Γ.root.Goes e) (h : Held e kind γ Γ A r K) : A.Goes e := by
  induction h with
  | ground => exact hroot
  | own hf h ih => exact ih
  | call => exact Invocation.goes_ofCall ..
  | returned hG hcallee hlike h ih ih' => exact ih'

/-! ## Searches for frames -/

/-- A frame that is found belongs to the invocation that runs. -/
theorem found {q : Frame → Bool} (hΓ : Γ.Firm) (h : Held e kind γ Γ A r (F ++ m :: K))
    (hF : Locates q 0 F m) :
    A.Owns e m ∧ Held e kind γ Γ A ((r.undoAll e.program F).undo e.program m) K := by
  generalize hL : F ++ m :: K = L at h
  induction h generalizing F with
  | ground => exact absurd hL.symm (hΓ.not_locates hF)
  | own hf h ih =>
    cases hF with
    | here hm hc =>
      cases hL
      exact ⟨hf, h⟩
    | returned =>
      cases hL
      exact hf.elim
    | other hc hF =>
      cases hL
      exact ih hF rfl
  | call =>
    cases hF with
    | here hm hc =>
      cases hL
      cases hc
    | returned => cases hL
    | other hc =>
      cases hL
      cases hc
  | @returned A B r G₁ K₁ sub₁ undo₁ back₁ sub₂ saved₁ hG hcallee hlike h ih ih' =>
    cases hF with
    | here hm hc =>
      cases (List.cons.inj hL).1
      cases hc
    | other hc =>
      cases (List.cons.inj hL).1
      cases hc
    | returned sub undo hF =>
      obtain ⟨hsame, hrest⟩ := List.cons.inj (List.cons_append.symm.trans hL)
      cases hsame
      obtain ⟨F₁, rfl, hF₁, hlocates⟩ := hG.locates hF hrest.symm
      cases hlocates with
      | call back sub saved hlocates =>
        obtain ⟨hsame, hK⟩ := List.cons.inj hF₁
        cases hsame
        obtain ⟨howns, hheld⟩ := ih' hlocates hK.symm
        exact ⟨howns, by simpa [Registers.undoAll_append] using hheld⟩
      | returned => cases (List.cons.inj hF₁).1
      | other hf =>
        cases (List.cons.inj hF₁).1
        cases hf

/-- What the invocation is that a call has begun, and its caller. -/
structure Callee (e : Setting) (kind : Nat → Prop) (γ : Nat → Nat) (Γ : Ground) (A : Invocation)
    (r : Registers) (G : List Frame) (back sub : Nat) (saved : CallState) (K : List Frame)
    (B : Invocation) : Prop where
  balanced : Balanced G
  callee : ∃ a t, back = a + 1 ∧ e.program.code[a]? = some (.call t sub) ∧
    B.places a (γ K.length) ∧ A = .ofCall e t (γ K.length) sub
  state : ∃ s r₀, e.program.tables.subroutines[sub]? = some s ∧ saved = r₀.saved s ∧
    (r.undoAll e.program (G ++ [.call back sub saved])).Like kind r₀
  depth : (r.undoAll e.program G).depth ≠ 0
  caller : Held e kind γ Γ B (r.undoAll e.program (G ++ [.call back sub saved])) K

/-- The call that is returned from is the one that began the invocation that runs, unless it lies in
the ground. -/
theorem current {back sub : Nat} {saved : CallState} (h : Held e kind γ Γ A r L)
    (hcall : FrameStack.callFrom 0 L = some (back, sub, saved)) :
    (∃ G K B, L = G ++ .call back sub saved :: K ∧ Callee e kind γ Γ A r G back sub saved K B) ∨
      ∃ H, L = H ++ Γ.frames ∧ Balanced H ∧ A = Γ.root ∧
        Γ.regs.Like kind (r.undoAll e.program H) := by
  induction h with
  | ground h => exact Or.inr ⟨[], rfl, .nil, rfl, h⟩
  | @own A r f K hf h ih =>
    have hsame : FrameStack.callFrom 0 K = some (back, sub, saved) := by
      cases f with
      | call => exact hf.elim
      | returned => exact hf.elim
      | _ => exact hcall
    rcases ih hsame with ⟨G, K, B, rfl, hbalanced, hcallee, hsaved, hdepth, hcaller⟩ |
      ⟨H, rfl, hH, hroot, hregs⟩
    · exact Or.inl ⟨f :: G, K, B, rfl, .frame hf.not_call hbalanced, hcallee, hsaved, hdepth, hcaller⟩
    · exact Or.inr ⟨f :: H, rfl, .frame hf.not_call hH, hroot, hregs⟩
  | call hcode hplace hs hsaved hdepth h ih =>
    cases hcall
    obtain ⟨r₀, hr₀, hsaved⟩ := hsaved
    exact Or.inl ⟨[], _, _, rfl, .nil, ⟨_, _, rfl, hcode, hplace, rfl⟩, ⟨_, r₀, hs, hsaved, hr₀⟩,
      hdepth, h⟩
  | @returned A B r G K sub₂ undo back₂ sub₃ saved₂ hG hcallee hlike h ih ih' =>
    rw [FrameStack.callFrom, hG.callFrom, FrameStack.callFrom, if_neg (Nat.succ_ne_zero _)] at hcall
    rcases ih' hcall with ⟨G', K, B, rfl, hbalanced, hcallee', hsaved, hdepth, hcaller⟩ |
      ⟨H, rfl, hH, hroot, hregs⟩
    · refine Or.inl ⟨.returned sub₂ undo :: (G ++ .call back₂ sub₃ saved₂ :: G'), K, B, by simp,
        .call _ _ _ _ _ hG hbalanced, hcallee', ?_, ?_, ?_⟩
      · simpa [Registers.undoAll_append] using hsaved
      · simpa [Registers.undoAll_append] using hdepth
      · simpa [Registers.undoAll_append] using hcaller
    · exact Or.inr ⟨.returned sub₂ undo :: (G ++ .call back₂ sub₃ saved₂ :: H), by simp,
        .call _ _ _ _ _ hG hH, hroot, by simpa [Registers.undoAll_append] using hregs⟩

end Held
end Machine
end RegexMachine
