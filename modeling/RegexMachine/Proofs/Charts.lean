import Mathlib.Data.List.Chain
import RegexMachine.Proofs.Resumption
import RegexMachine.Proofs.RoutineCourses

/-!
The calls that are open in a state, and where in the subject each was made. What an open call has
begun has made the next one, and the depth of calls is their number.
-/
namespace RegexMachine

/-! ## Open calls -/

def Frame.isCall : Frame → Bool
  | .call _ _ _ => true
  | _ => false

def Frame.isReturn : Frame → Bool
  | .returned _ _ => true
  | _ => false

/-- The calls on a stack that no return above answers, the last one first, with the numbers of their
subroutines and the heights of their frames. `level` returns are still to be answered. -/
def openCalls : (level : Nat) → List Frame → List (Nat × Nat)
  | _, [] => []
  | level, .returned _ _ :: K => openCalls (level + 1) K
  | level, .call _ sub _ :: K => if level = 0 then (sub, K.length) :: openCalls 0 K else openCalls (level - 1) K
  | level, _ :: K => openCalls level K

theorem openCalls_skip {f : Frame} (hf : FrameStack.isCallFrame f = false) (level : Nat)
    (K : List Frame) : openCalls level (f :: K) = openCalls level K := by
  cases f <;> first | rfl | cases hf

/-- Frames in which every return has its call hold no open calls. -/
theorem Balanced.openCalls {G : List Frame} (hG : Balanced G) (level : Nat) (K : List Frame) :
    openCalls level (G ++ K) = openCalls level K := by
  induction hG generalizing level K with
  | nil => rfl
  | frame hf hF ih => rw [List.cons_append, openCalls_skip hf, ih]
  | call sub undo back sub' saved hG hF ih ih' =>
    rw [List.cons_append, List.append_assoc, RegexMachine.openCalls, ih, List.cons_append,
      RegexMachine.openCalls, if_neg (Nat.succ_ne_zero _), Nat.add_sub_cancel, ih']

theorem Balanced.countP_eq {G : List Frame} (hG : Balanced G) :
    G.countP Frame.isCall = G.countP Frame.isReturn := by
  induction hG with
  | nil => rfl
  | @frame f F hf hF ih => cases f <;> first | exact ih | cases hf
  | call sub undo back sub' saved hG hF ih ih' =>
    simp only [List.countP_cons, List.countP_append, Frame.isCall, Frame.isReturn]
    simp only [Bool.false_eq_true, ↓reduceIte]
    omega

namespace Machine

/-- The ground on which a run stands that is entered at an address and a position. -/
def Ground.ofRun (e : Setting) (entry : Addr) (start : Nat) : Ground :=
  ⟨⟨Reach e entry start, none⟩, [],
    .clear e.program.tables.captures e.program.tables.loops.size⟩

/-- States that the runs of a program come to, with the address at which the run was entered and a
chart that tells for each height of the stack where in the subject a frame was put there. -/
inductive Charted (p : Program) : Setting → Addr → (Nat → Nat) → State → Prop
  | attempt {e : Setting} (he : e.program = p) (st : State) (pos : Nat) (γ : Nat → Nat) :
    Charted p e 0 γ ((st.enter e 0 pos).emit e (.start pos))
  | step {e : Setting} {b : Addr} {γ : Nat → Nat} {s t : State} (n : Nat) (h : Charted p e b γ s)
    (hstep : Machine.step (inner n) e s = .ok () t) : Charted p e b (s.view.chart γ) t
  | inside {e : Setting} {a b : Addr} {γ : Nat → Nat} {s : State} (h : Charted p e a γ s)
    (hb : e.program.code[s.ip]? = some (.absent b)) (stop begun pos : Nat) (st : State)
    (γ' : Nat → Nat) : Charted p (e.upTo stop begun) b γ' (st.enter (e.upTo stop begun) b pos)

variable {p : Program} {l : Compile.Layout} {root : Node Measured} {scale : Scale} {strict : Prop}
  {e : Setting} {b : Addr} {s t : State} {kind : Nat → Prop} {γ : Nat → Nat} {Γ : Ground}
  {A : Invocation} {r : Registers} {K : List Frame}

theorem Charted.visited (h : Charted p e b γ s) : Visited p e s := by
  induction h with
  | attempt he st pos => exact .attempt he st pos
  | step n _ hstep ih => exact .step n ih hstep
  | inside _ hb stop begun pos st _ ih => exact .inside ih hb stop begun pos st

/-- Every state that a run comes to has a chart. -/
theorem Visited.charted (h : Visited p e s) : ∃ b γ, Charted p e b γ s := by
  induction h with
  | attempt he st pos => exact ⟨0, id, .attempt he st pos id⟩
  | step n _ hstep ih =>
    obtain ⟨b, γ, h⟩ := ih
    exact ⟨b, _, .step n h hstep⟩
  | inside _ hb stop begun pos st ih =>
    obtain ⟨a, γ, h⟩ := ih
    exact ⟨_, id, .inside h hb stop begun pos st id⟩

/-- Programs all of whose settings are orderly. -/
theorem Orderly.settings (h : Orderly p l root scale strict) (he : e.program = p) :
    Orderly e.program l root scale strict := he.symm ▸ h

/-- A run that stands on nothing keeps its invocations nested. -/
theorem Advances.of_ground {c d : View} (h : Advances e kind γ Γ c d) (hΓ : Γ.frames = []) :
    ∃ B, Held e kind γ Γ B d.regs d.frames ∧ B.places d.ip d.pos := by
  cases h with
  | inside B h hplace => exact ⟨B, h, hplace⟩
  | leaves H sub undo hc hH hcall =>
    rw [hΓ] at hcall
    exact absurd rfl hcall

/-- In every state that a run comes to, the invocations are nested whose calls are on the stack. -/
theorem Charted.held (hp : Orderly p l root scale strict) (h : Charted p e b γ s) :
    ∃ A, Held e p.Restores γ (.ofRun e b s.start) A s.regs s.stack.frames ∧ A.places s.ip s.pos := by
  induction h with
  | @attempt e he st pos γ =>
    have hview := view_emit (st.enter e 0 pos) e (.start pos)
    generalize (st.enter e 0 pos).emit e (.start pos) = s at hview
    change ∃ A, Held e p.Restores γ (.ofRun e 0 s.view.start) A s.view.regs s.view.frames ∧
      A.places s.view.ip s.view.pos
    rw [hview]
    exact ⟨_, .ground (.refl _), .entry 0 pos⟩
  | @step e b γ s t n h hstep ih =>
    obtain ⟨A, hheld, hplace⟩ := ih
    have hvisited := h.visited
    have he := hvisited.program
    have hfits := hvisited.fits hp.compiled
    obtain ⟨i, hi, heffect⟩ := hvisited.effect hp.compiled hfits hstep
    have hstart : t.start = s.start := heffect.start_eq
    rw [hstart]
    have hroot : (Ground.ofRun e b s.start).root.Goes e :=
      ⟨fun _ _ _ _ _ h hi hto => h.step hi hto, fun _ _ _ _ _ _ h hcall hb hret => h.call hcall hb hret⟩
    exact (Held.step (compiled_fits hp.compiled he) (hp.settings he).calls_scoped hroot hfits
      (fun g hg => Or.inl (he.symm ▸ hg)) hi hplace heffect (Or.inl rfl) (Nat.zero_le _) hheld).of_ground rfl
  | inside h hb stop begun pos st γ' =>
    exact ⟨_, .ground (.refl _), .entry _ pos⟩

/-! ## Calls of nested invocations -/

/-- One open call has begun an invocation that has made another. -/
def Links (e : Setting) (γ : Nat → Nat) (new old : Nat × Nat) : Prop :=
  ∃ a t r, e.program.code[a]? = some (.call t new.1) ∧ e.program.tables.subroutines[old.1]? = some r ∧
    Reach e r.entry (γ old.2) a (γ new.2)

/-- The invocation that runs is that of the last open call. -/
def Current (e : Setting) (γ : Nat → Nat) (Γ : Ground) (A : Invocation) : List (Nat × Nat) → Prop
  | [] => A = Γ.root
  | c :: _ => ∃ r, e.program.tables.subroutines[c.1]? = some r ∧ A = .ofCall e r.entry (γ c.2) c.1

/-- Invocations nest as their calls are open. -/
theorem Held.calls (hp : Orderly e.program l root scale strict) (hΓ : Γ.frames = [])
    (h : Held e kind γ Γ A r K) :
    Current e γ Γ A (openCalls 0 K) ∧ (openCalls 0 K).IsChain (Links e γ) ∧
      ∀ c ∈ openCalls 0 K, ∃ r, e.program.tables.subroutines[c.1]? = some r := by
  induction h with
  | ground =>
    rw [hΓ]
    exact ⟨rfl, .nil, nofun⟩
  | own hf h ih =>
    rw [openCalls_skip hf.not_call]
    exact ih
  | @call A r K a t sub s saved hcode hplace hs hsaved hdepth h ih =>
    obtain ⟨hcurrent, hchain, hsubs⟩ := ih
    have ht := hp.call_target hcode hs
    rw [openCalls, if_pos rfl]
    refine ⟨⟨s, hs, by rw [ht]⟩, ?_, List.forall_mem_cons.mpr ⟨⟨s, hs⟩, hsubs⟩⟩
    cases hopen : openCalls 0 K with
    | nil => exact .singleton _
    | cons c cs =>
      rw [hopen] at hcurrent hchain
      obtain ⟨s', hs', rfl⟩ := hcurrent
      exact .cons_cons ⟨a, t, s', hcode, hs', hplace⟩ hchain
  | returned hG hcallee hlike h ih ih' =>
    rw [openCalls, hG.openCalls, openCalls, if_neg (Nat.succ_ne_zero _)]
    exact ih'

/-- Wherever a run comes to, it is in the code that it was entered at, or in that of a call. -/
theorem Charted.within (hp : Orderly p l root scale strict) (h : Charted p e b γ s) :
    Reach e b s.start s.ip s.pos ∨
      ∃ r ∈ e.program.tables.subroutines, ∃ x, Reach e r.entry x s.ip s.pos := by
  obtain ⟨A, hheld, hplace⟩ := h.held hp
  obtain ⟨hcurrent, -⟩ := hheld.calls (hp.settings h.visited.program) rfl
  cases hopen : openCalls 0 s.stack.frames with
  | nil =>
    rw [hopen] at hcurrent
    obtain rfl : A = _ := hcurrent
    exact Or.inl hplace
  | cons c cs =>
    rw [hopen] at hcurrent
    obtain ⟨r, hr, rfl⟩ := hcurrent
    exact Or.inr ⟨r, Array.mem_of_getElem? hr, _, hplace⟩

/-- The depth of calls is the number of open ones, and of calls less that of returns. -/
theorem Held.depth (hΓ : Γ.frames = []) (hregs : Γ.regs.depth = 0) (h : Held e kind γ Γ A r K) :
    r.depth = (openCalls 0 K).length ∧
      r.depth + K.countP Frame.isReturn = K.countP Frame.isCall := by
  induction h with
  | ground h =>
    rw [hΓ, h.depth, hregs]
    exact ⟨rfl, rfl⟩
  | @own A r f K hf h ih =>
    have hdepth : (r.undo e.program f).depth = r.depth := by
      cases f <;> first | rfl | exact hf.elim
    rw [hdepth] at ih
    rw [openCalls_skip hf.not_call]
    refine ⟨ih.1, ?_⟩
    cases f <;> first | exact ih.2 | exact hf.elim
  | @call A r K a t sub s saved hcode hplace hs hsaved hdepth h ih =>
    have hundo : (r.undo e.program (.call (a + 1) sub saved)).depth = r.depth - 1 := rfl
    rw [hundo] at ih
    rw [openCalls, if_pos rfl, List.length_cons]
    simp only [List.countP_cons, Frame.isReturn, Frame.isCall]
    simp only [Bool.false_eq_true, ↓reduceIte]
    omega
  | @returned A B r G K sub undo back sub' saved hG hcallee hlike h ih ih' =>
    rw [hlike.depth] at ih'
    rw [openCalls, hG.openCalls, openCalls, if_neg (Nat.succ_ne_zero _)]
    refine ⟨ih'.1, ?_⟩
    have hcount := hG.countP_eq
    simp only [List.countP_cons, List.countP_append, Frame.isReturn, Frame.isCall]
    simp only [Bool.false_eq_true, ↓reduceIte]
    omega

end Machine
end RegexMachine
