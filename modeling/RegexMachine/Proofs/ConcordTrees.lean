import RegexMachine.Proofs.ConcordCalls

/-!
Trees in concord. The code of a tree in one program is in concord with that in another, whatever plans
the repeats follow in each. Calls are settled first, for fewer steps.
-/
namespace RegexMachine
open Compile Machine

/-- An instruction for any characters. -/
def Instr.TakesAny (i : Instr) : Prop :=
  ∃ multiline before, ∀ (e : Setting) (c : Core) spans,
    c.act e spans i = .ok (.going (c.takeAny e multiline before))

namespace Machine

variable {N hi hi' : Nat} {p p' : Program} {B B' : Built} {part part' rest rest' : Part} {b : Bounds}
  {n : Node Measured} {l : Layout} {root : Node Measured}

/-! ## Pieces of trees -/

/-- One part after another. What comes after the first is of no consequence. -/
theorem Accords.andThen (h : Accords p p' N hi hi' part part')
    (h' : Accords p p' N hi hi' rest rest') (before before' : (Nat → Prop) → Nat → Prop) :
    Accords p p' N hi hi'
      (fun φ later z x y => ∃ w, part φ (before later) z x w ∧ rest φ later z w y)
      (fun φ later z x y => ∃ w, part' φ (before' later) z x w ∧ rest' φ later z w y) := by
  refine ⟨?_, ?_, ?_⟩
  · rintro later z x y ⟨w, hfirst, hlast⟩
    exact Nat.le_trans (h.ascends hfirst) (h'.ascends hlast)
  · rintro later z x y ⟨w, hfirst, hlast⟩
    exact Nat.le_trans (h.ascends' hfirst) (h'.ascends' hlast)
  · rintro e e' O he he' hpair later later' z z' x x' y y' ⟨w, hfirst, hlast⟩ ⟨w', hfirst', hlast'⟩
    exact (h.concur O he he' hpair hfirst hfirst').andThen (h'.concur O he he' hpair hlast hlast')
      (h.ascends hfirst) (h'.ascends hlast) (h.ascends' hfirst') (h'.ascends' hlast')

/-- Code that does not depend on what comes after it or surrounds it. -/
theorem accords_code {q q' : Addr → Addr → Prop} (hq : ∀ x y, q x y → x ≤ y)
    (hq' : ∀ x y, q' x y → x ≤ y)
    (hconcur : ∀ {e e' : Setting} (O : Observer e e'), e.program = p → e'.program = p' →
      Partners e e' → ∀ {z z' x x' y y'}, q x y → q' x' y' → Concur O N hi hi' z z' x x' y y') :
    Accords p p' N hi hi' (fun _ _ _ x y => q x y) fun _ _ _ x y => q' x y :=
  ⟨fun _ _ x y h => hq x y h, fun _ _ x y h => hq' x y h,
    fun _ _ O he he' hpair _ _ _ _ _ _ _ _ h h' => hconcur O he he' hpair h h'⟩

theorem takesAny_of_anyCharsCode? {mode : RepeatMode} {plan : RepeatPlan} {peek : Option UInt8}
    {i : Instr} (h : anyCharsCode? mode plan peek n = some i) : i.TakesAny := by
  unfold anyCharsCode? at h
  split at h
  · split at h
    · cases h
    · split at h
      · cases h
        exact ⟨_, _, fun _ _ _ => rfl⟩
      · cases h
        exact ⟨_, _, fun _ _ _ => rfl⟩
  · cases h

/-- Calls of every group are in concord. -/
def CallsAccord (p p' : Program) (N hi hi' : Nat) (B B' : Built) : Prop :=
  ∀ g, Accords p p' N hi hi' (fun _ _ _ x y => B.CallAt g x y) fun _ _ _ x y => B'.CallAt g x y

namespace Siblings

variable (T : Siblings p p' B B' hi hi')
include T

theorem atom (hcalls : CallsAccord p p' N hi hi' B B') (a : Atom) :
    Accords p p' N hi hi' (fun _ _ _ x y => B.AtomAt a x y) fun _ _ _ x y => B'.AtomAt a x y := by
  have hplain {a : Atom} (ha : ∀ name g, a ≠ .call name g) :
      Accords p p' N hi hi' (fun _ _ _ x y => B.AtomAt a x y) fun _ _ _ x y => B'.AtomAt a x y := by
    have hunfold (C : Built) (x y : Addr) (h : C.AtomAt a x y) :
        C.InstrAt (Built.atomInstr? C.layout.encoding a) x y := by
      cases a with
      | call name g => exact absurd rfl (ha name g)
      | _ => exact h
    have hle (C : Built) (x y : Addr) (h : C.AtomAt a x y) : x ≤ y := by
      have h := hunfold C x y h
      cases hi : Built.atomInstr? C.layout.encoding a with
      | none =>
        rw [hi] at h
        exact Nat.le_of_eq h
      | some i =>
        rw [hi] at h
        exact h.2 ▸ Nat.le_succ x
    refine accords_code (hle B) (hle B') ?_
    rintro e e' O rfl rfl hpair z z' x x' y y' h h'
    have h := hunfold B x y h
    have h' := hunfold B' x' y' h'
    rw [T.layout] at h'
    cases hi : Built.atomInstr? B.layout.encoding a with
    | none =>
      rw [hi] at h h'
      obtain rfl : x = y := h
      obtain rfl : x' = y' := h'
      exact .stay
    | some i =>
      rw [hi] at h h'
      obtain ⟨hcode, rfl⟩ := h
      obtain ⟨hcode', rfl⟩ := h'
      exact .atom hpair hi (T.code ▸ hcode) (T.code' ▸ hcode')
  cases a with
  | call name g => exact hcalls g
  | _ => exact hplain nofun

theorem anyChars {i : Instr} (h : i.TakesAny) :
    Accords p p' N hi hi' (fun _ _ _ x y => B.code[x]? = some i ∧ y = x + 1)
      fun _ _ _ x y => B'.code[x]? = some i ∧ y = x + 1 := by
  obtain ⟨multiline, before, hact⟩ := h
  refine accords_code (fun x y h => h.2 ▸ Nat.le_succ x) (fun x y h => h.2 ▸ Nat.le_succ x) ?_
  rintro e e' O rfl rfl hpair z z' x x' y y' ⟨h, rfl⟩ ⟨h', rfl⟩
  exact .takeAny hpair (T.code ▸ h) (T.code' ▸ h') hact

/-- A loop and the instruction that does it all are not laid out side by side. -/
theorem loop {instr? : Option Instr} (h : Accords p p' N hi hi' part part')
    (hinstr : ∀ i, instr? = some i → i.TakesAny) :
    Accords p p' N hi hi' (B.LoopAt instr? part) (B'.LoopAt instr? part') := by
  cases hi : instr? with
  | none =>
    have hpart {C : Built} {part : Part} {later : Nat → Prop} {z : Zone} {x y : Addr}
        (h : C.LoopAt none part none later z x y) : part none later z x y := by
      rcases h with ⟨i, hi, -⟩ | ⟨-, h⟩
      · cases hi
      · exact h
    exact h.imp (fun _ _ _ _ => hpart) fun _ _ _ _ => hpart
  | some i =>
    have hsingle {C : Built} {part : Part} {later : Nat → Prop} {z : Zone} {x y : Addr}
        (h : C.LoopAt (some i) part none later z x y) : C.code[x]? = some i ∧ y = x + 1 := by
      rcases h with ⟨j, hj, h⟩ | ⟨hnone, -⟩
      · cases hj
        exact h
      · cases hnone rfl
    exact (T.anyChars (hinstr i hi)).imp (fun _ _ _ _ => hsingle) fun _ _ _ _ => hsingle

/-- A branch, with the next ones left as alternatives. -/
theorem branch (h : Accords p p' N hi hi' part part') (h' : Accords p p' N hi hi' rest rest') :
    Accords p p' N hi hi'
      (fun φ later z x y => ∃ w, B.code[x]? = some (.fork (w + 1)) ∧ part φ later z (x + 1) w ∧
        B.code[w]? = some (.jump y) ∧ rest φ later z (w + 1) y)
      (fun φ later z x y => ∃ w, B'.code[x]? = some (.fork (w + 1)) ∧ part' φ later z (x + 1) w ∧
        B'.code[w]? = some (.jump y) ∧ rest' φ later z (w + 1) y) := by
  refine ⟨?_, ?_, ?_⟩
  · rintro later z x y ⟨w, -, hfirst, -, hlast⟩
    exact Nat.le_trans (Nat.le_of_succ_le (h.ascends hfirst)) (Nat.le_of_succ_le (h'.ascends hlast))
  · rintro later z x y ⟨w, -, hfirst, -, hlast⟩
    exact Nat.le_trans (Nat.le_of_succ_le (h.ascends' hfirst)) (Nat.le_of_succ_le (h'.ascends' hlast))
  · rintro e e' O rfl rfl hpair later later' z z' x x' y y' ⟨w, hfork, hfirst, hjump, hlast⟩
      ⟨w', hfork', hfirst', hjump', hlast'⟩
    rw [T.code] at hfork hjump
    rw [T.code'] at hfork' hjump'
    have hw : x + 1 ≤ w := h.ascends hfirst
    have hw' : x' + 1 ≤ w' := h.ascends' hfirst'
    have hy : w + 1 ≤ y := h'.ascends hlast
    have hy' : w' + 1 ≤ y' := h'.ascends' hlast'
    refine .fork hfork hfork' ?_ (h'.concur O rfl rfl hpair hlast hlast') (Nat.lt_succ_of_lt hw) hy
      (Nat.lt_succ_of_lt hw') hy'
    exact (h.concur O rfl rfl hpair hfirst hfirst').andThen (.jump hjump hjump' hy hy') hw
      (Nat.le_of_succ_le hy) hw' (Nat.le_of_succ_le hy')

end Siblings

/-- Plans that suit the same repeat. -/
theorem Siblings.suiting (T : Siblings p p' B B' hi hi') (h : Accords p p' N hi hi' part part')
    {greedy : Bool} {f f' : Way} :
    Accords p p' N hi hi'
      (fun φ later z x y => ∃ plan : RepeatPlan, plan.Suits b n ∧
        B.RepeatAt b greedy plan n.info f part φ later z x y)
      (fun φ later z x y => ∃ plan : RepeatPlan, plan.Suits b n ∧
        B'.RepeatAt b greedy plan n.info f' part' φ later z x y) := by
  have hpair {plan plan' : RepeatPlan} (hp : plan.Suits b n) (hp' : plan'.Suits b n) :
      Accords p p' N hi hi' (B.RepeatAt b greedy plan n.info f part)
        (B'.RepeatAt b greedy plan' n.info f' part') := by
    rcases hp with rfl | ⟨hmeans, hmin, hb⟩
    · rcases hp' with rfl | ⟨hmeans', hmin, hb⟩
      · exact T.alike h repeatPlan_counted
      · exact T.replanned h hmin hb (repeatPlan_means b n) hmeans'
    · rcases hp' with rfl | ⟨hmeans', -, -⟩
      · exact T.replanned h hmin hb hmeans (repeatPlan_means b n)
      · exact T.replanned h hmin hb hmeans hmeans'
  refine ⟨?_, ?_, ?_⟩
  · rintro later z x y ⟨plan, -, hpart⟩
    exact ascends_repeat h.ascends plan hpart
  · rintro later z x y ⟨plan, -, hpart⟩
    exact ascends_repeat h.ascends' plan hpart
  · rintro e e' O he he' hsettings later later' z z' x x' y y' ⟨plan, hplan, hpart⟩
      ⟨plan', hplan', hpart'⟩
    exact (hpair hplan hplan').concur O he he' hsettings hpart hpart'

/-! ## Trees -/

mutual

theorem accords_node (T : Siblings p p' B B' hi hi') (hcalls : CallsAccord p p' N hi hi' B B') :
    ∀ (n : Node Measured) (peek : Option UInt8),
    Accords p p' N hi hi' (B.LaidAt peek n) (B'.LaidAt peek n)
  | .atom _ a, peek => by
    rw [Built.LaidAt, Built.LaidAt]
    exact T.atom hcalls a
  | .repeated _ b mode body, peek => by
    have hbody := accords_node T hcalls body none
    rw [Built.LaidAt, Built.LaidAt]
    split
    · exact T.atomic (T.loop (T.suiting hbody) fun _ => takesAny_of_anyCharsCode?)
    · exact T.loop (T.suiting hbody) fun _ => takesAny_of_anyCharsCode?
  | .group _ (.capture g _) body, peek => by
    rw [Built.LaidAt, Built.LaidAt]
    exact T.capture (accords_node T hcalls body none) g (hcalls g)
  | .group _ .plain body, peek => by
    rw [Built.LaidAt, Built.LaidAt]
    exact accords_node T hcalls body none
  | .group _ .atomic body, peek => by
    rw [Built.LaidAt, Built.LaidAt]
    exact T.atomic (accords_node T hcalls body none)
  | .group _ .absent body, peek => by
    rw [Built.LaidAt, Built.LaidAt]
    exact T.absent (accords_node T hcalls body none)
  | .conditional _ _ gs yes no, peek => by
    rw [Built.LaidAt, Built.LaidAt]
    exact T.conditional (accords_node T hcalls yes none) (accords_option T hcalls no) gs
  | .look _ k body, peek => by
    rw [Built.LaidAt, Built.LaidAt]
    exact T.look (accords_node T hcalls body none) k body.info
  | .sequence _ items, peek => by
    rw [Built.LaidAt, Built.LaidAt]
    exact accords_sequence T hcalls items
  | .alternation _ branches, peek => by
    rw [Built.LaidAt, Built.LaidAt]
    exact accords_branches T hcalls branches

theorem accords_option (T : Siblings p p' B B' hi hi') (hcalls : CallsAccord p p' N hi hi' B B') :
    ∀ no : Option (Node Measured),
    Accords p p' N hi hi' (B.LaidOptionAt no) (B'.LaidOptionAt no)
  | none => by
    rw [Built.LaidOptionAt, Built.LaidOptionAt]
    exact accords_nothing (fun _ _ => id) fun _ _ => id
  | some n => by
    rw [Built.LaidOptionAt, Built.LaidOptionAt]
    exact accords_node T hcalls n none

theorem accords_sequence (T : Siblings p p' B B' hi hi') (hcalls : CallsAccord p p' N hi hi' B B') :
    ∀ ns : List (Node Measured),
    Accords p p' N hi hi' (B.LaidSequenceAt ns) (B'.LaidSequenceAt ns)
  | [] => by
    rw [Built.LaidSequenceAt, Built.LaidSequenceAt]
    exact accords_nothing (fun _ _ => id) fun _ _ => id
  | n :: ns => by
    rw [Built.LaidSequenceAt, Built.LaidSequenceAt]
    exact (accords_node T hcalls n (peekByte? ns)).andThen (accords_sequence T hcalls ns) _ _

theorem accords_branches (T : Siblings p p' B B' hi hi') (hcalls : CallsAccord p p' N hi hi' B B') :
    ∀ ns : List (Node Measured),
    Accords p p' N hi hi' (B.LaidBranchesAt ns) (B'.LaidBranchesAt ns)
  | [] => by
    rw [Built.LaidBranchesAt, Built.LaidBranchesAt]
    exact accords_nothing (fun _ _ => id) fun _ _ => id
  | [n] => by
    rw [Built.LaidBranchesAt, Built.LaidBranchesAt]
    exact accords_node T hcalls n none
  | n :: m :: ns => by
    rw [Built.LaidBranchesAt, Built.LaidBranchesAt]
    exact T.branch (accords_node T hcalls n none) (accords_branches T hcalls (m :: ns))

end

/-! ## Subroutines -/

theorem ascends_routine {g : Nat} (h : Ascends part) : Ascends (B.RoutineAt g part) := by
  intro later z x y hroutine
  unfold Built.RoutineAt at hroutine
  split at hroutine
  · exact h hroutine
  · obtain ⟨w, last, -, hinside, -, -, rfl⟩ := hroutine
    exact Nat.le_succ_of_le (Nat.le_of_succ_le (h hinside))

/-- The body of a group that is called, with the group opened and closed around it. -/
theorem Siblings.routine (T : Siblings p p' B B' hi hi') (h : Accords p p' N hi hi' part part')
    (g : Nat) : Accords p p' N hi hi' (B.RoutineAt g part) (B'.RoutineAt g part') := by
  refine ⟨ascends_routine h.ascends, ascends_routine h.ascends', ?_⟩
  rintro e e' O rfl rfl hpair later later' z z' x x' y y' hroutine hroutine'
  unfold Built.RoutineAt at hroutine hroutine'
  by_cases hg : g = 0
  · rw [if_pos hg] at hroutine hroutine'
    exact h.concur O rfl rfl hpair hroutine hroutine'
  · rw [if_neg hg, T.code] at hroutine
    rw [if_neg hg, T.code'] at hroutine'
    obtain ⟨w, last, hstart, hinside, hend, hlast, rfl⟩ := hroutine
    obtain ⟨w', last', hstart', hinside', hend', hlast', rfl⟩ := hroutine'
    exact .group hpair hstart hstart' (h.concur O rfl rfl hpair hinside hinside') hend hend'
      (hlast.imp_right fun h => ⟨h, rfl⟩) (hlast'.imp_right fun h => ⟨h, rfl⟩) (h.ascends hinside)
      (h.ascends' hinside')

/-- What two programs have in common that are equipped for the same tree. -/
theorem shared {g sub : Nat} (hp : p.Equipped l root) (hp' : p'.Equipped l root)
    (hsub : (l.subroutines[g]?).join = some sub) : ∃ s s' n B B' y y', Shared p p' sub s s' ∧
      s'.group = s.group ∧ p.Laid l root s n B y ∧ p'.Laid l root s' n B' y' := by
  obtain ⟨s, hs, rfl⟩ := hp.called g sub hsub
  obtain ⟨s', hs', hgroup⟩ := hp'.called _ sub hsub
  obtain ⟨n, B, y, hlaid⟩ := hp.laid s (Array.mem_of_getElem? hs)
  obtain ⟨n', B', y', hlaid'⟩ := hp'.laid s' (Array.mem_of_getElem? hs')
  obtain rfl : n' = n := by
    have := hlaid'.runs
    rw [hgroup, hlaid.runs] at this
    exact (Option.some.inj this).symm
  refine ⟨s, s', n', B, B', y, y', ⟨hs, hs', hlaid.fits, hlaid'.fits, ?_⟩, hgroup, hlaid, hlaid'⟩
  rw [hlaid'.captures, hlaid.captures, hgroup]

/-- The code of a tree is in concord in two programs that are equipped for it. The induction is on the
steps: what is called is in concord for fewer of them. -/
theorem accords_equipped (hp : p.Equipped l root) (hp' : p'.Equipped l root)
    (T : Siblings p p' B B' hi hi') (hl : B.layout = l) (hsubs : B.subs = p.tables.subroutines)
    (hsubs' : B'.subs = p'.tables.subroutines) (n : Node Measured) (peek : Option UInt8) :
    Accords p p' N hi hi' (B.LaidAt peek n) (B'.LaidAt peek n) := by
  induction N using Nat.strongRecOn generalizing B B' hi hi' n peek with
  | ind N ih =>
    refine accords_node T (fun g => ?_) n peek
    have hle (C : Built) (x y : Addr) (h : C.CallAt g x y) : x ≤ y := by
      obtain ⟨sub, -, -, rfl⟩ := h
      exact Nat.le_succ x
    refine accords_code (hle B) (hle B') ?_
    rintro e e' O rfl rfl hpair z z' x x' y y' ⟨sub, hsub, hcode, rfl⟩ ⟨sub', hsub', hcode', rfl⟩
    rw [T.layout, hsub] at hsub'
    cases hsub'
    rw [hl] at hsub
    obtain ⟨s, s', m, C, C', v, v', hshared, hgroup, hlaid, hlaid'⟩ := shared hp hp' hsub
    rw [T.code, hsubs, hshared.left] at hcode
    rw [T.code', hsubs', hshared.right] at hcode'
    obtain ⟨later, hstands⟩ := hlaid.stands
    obtain ⟨later', hstands'⟩ := hlaid'.stands
    have S : Siblings e.program e'.program C C' s.loops.stop s'.loops.stop :=
      ⟨hlaid.code, hlaid'.code, hlaid'.layout.trans hlaid.layout.symm,
        fun id c hc => ⟨hlaid.stop ▸ (Array.getElem?_eq_some_iff.mp hc).1, hlaid.loops id c hc⟩,
        fun id c hc => ⟨hlaid'.stop ▸ (Array.getElem?_eq_some_iff.mp hc).1, hlaid'.loops id c hc⟩⟩
    refine .call hpair hshared (fun k hk => ?_) hlaid.ret hlaid'.ret hcode hcode'
    rw [hgroup] at hstands'
    exact (S.routine (ih k hk S hlaid.layout hlaid.subs hlaid'.subs m none) s.group).concur O rfl rfl
      hpair hstands hstands'

end Machine
end RegexMachine
