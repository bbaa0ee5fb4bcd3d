import RegexMachine.Proofs.Undone

/-!
The code of a tree gives the ways of the tree, from whichever state it is entered.
-/
namespace RegexMachine

/-- A text of one byte. -/
theorem Subject.byteLength?_eq (s : Subject) {bytes : Bytes} (h : bytes.size = 1) (i : Nat) :
    s.byteLength? i (bytes.byteAt 0) = s.textLength? i bytes := by
  have hget : bytes[0]? = some (bytes.byteAt 0) := by
    have hlt : 0 < bytes.size := by omega
    rw [Array.getElem?_eq_getElem hlt, Bytes.byteAt, Array.getD_eq_getD_getElem?,
      Array.getElem?_eq_getElem hlt]
    rfl
  unfold byteLength? textLength? Bytes.startsAt
  rw [h]
  unfold Bytes.agree
  rw [hget]
  cases s.bytes[i]? with
  | none => rfl
  | some b => simp [Bytes.agree]

/-- A text that is found begins with its first byte. -/
theorem Subject.first_of_textLength? {s : Subject} {bytes : Bytes} {i n : Nat} {b : UInt8}
    (hb : bytes[0]? = some b) (h : s.textLength? i bytes = some n) : s.bytes[i]? = some b := by
  have hstarts := (s.textLength?_eq h).1
  have hlt : 0 < bytes.size := (Array.getElem?_eq_some_iff.mp hb).1
  unfold Bytes.startsAt at hstarts
  rw [show bytes.size = (bytes.size - 1) + 1 by omega] at hstarts
  unfold Bytes.agree at hstarts
  rw [hb] at hstarts
  cases hx : s.bytes[i]? with
  | none => simp [hx] at hstarts
  | some x =>
    simp only [hx, Bool.and_eq_true, beq_iff_eq] at hstarts
    rw [hstarts.1]

namespace Machine

variable {e : Setting} {B : Built} {μ : Memory} {φ : Promise} {z : Zone} {since : Option Nat} {S P : Stale}
  {x y w : Addr} {t : Trail} {later : Nat → Prop} {fate : Fate} {part : Part} {f : Way}

/-- Code that is empty or one instruction for a text. -/
theorem text_means {peek : Option UInt8} (hB : Hosts e B) {i : Instr} {width : Nat → Option Nat}
    (hx : ∀ r, exec r e i = fun s => consume e (width s.pos) s)
    (hw : ∀ p n, p ≤ e.subject.size → width p = some n → p + n ≤ e.subject.size) :
    Means e B μ peek (fun _ _ _ x y => B.code[x]? = some i ∧ y = x + 1) .none
      (Way.text width) := by
  intro φ later z x y fate since S t h _ _ _ _
  rw [Stale.or_none]
  obtain ⟨hi, rfl⟩ := h
  exact .text hB hi hx hw

theorem stay_means {peek : Option UInt8} :
    Means e B μ peek (fun _ _ _ x y => x = y) .none Way.stay := by
  intro φ later z x y fate since S t h _ _ _ _
  rw [Stale.or_none]
  obtain rfl : x = y := h
  exact .stay

theorem literal_means {peek : Option UInt8} (hB : Hosts e B) (bytes : Bytes) (fold : Bool) :
    Means e B μ peek (fun _ _ _ x y => B.AtomAt (.literal bytes fold) x y) .none
      (B.scene.atomWays (.literal bytes fold)) := by
  have hbounds : ∀ p n, p ≤ e.subject.size → B.scene.literalLength? bytes fold p = some n →
      p + n ≤ e.subject.size := by
    rw [hB.subject]
    exact fun p n hp h => B.scene.literalLength?_bounds h hp
  rw [Scene.atomWays]
  have hcode {i : Instr}
      (hi : Built.atomInstr? B.layout.encoding (.literal bytes fold) = some i)
      (hx : ∀ r, exec r e i = fun s => consume e (B.scene.literalLength? bytes fold s.pos) s) :
      Means e B μ peek (fun _ _ _ x y => B.AtomAt (.literal bytes fold) x y) .none
        (Way.text (B.scene.literalLength? bytes fold)) := by
    simp only [Built.AtomAt, hi]
    exact text_means hB hx hbounds
  by_cases hempty : bytes.isEmpty = true
  · have hi : Built.atomInstr? B.layout.encoding (.literal bytes fold) = none := by
      simp [Built.atomInstr?, Compile.literalCode, hempty]
    have hstay : Way.text (B.scene.literalLength? bytes fold) = Way.stay := by
      funext t
      simp [Way.text, Scene.literalLength?, hempty, Way.stay]
    simp only [Built.AtomAt, hi, hstay]
    exact stay_means
  · cases fold with
    | true =>
      refine hcode (i := .foldedText (B.layout.encoding.foldBytes bytes)) ?_ fun r => ?_
      · simp [Built.atomInstr?, Compile.literalCode, hempty]
      · rw [hB.encoding, ← hB.subject]
        simp only [Scene.literalLength?, hempty, ← hB.subject]
        rfl
    | false =>
      by_cases hone : bytes.size = 1
      · refine hcode (i := .byte (bytes.byteAt 0)) ?_ fun r => ?_
        · simp [Built.atomInstr?, Compile.literalCode, hempty, hone]
        · simp only [Scene.literalLength?, hempty, ← hB.subject, ← e.subject.byteLength?_eq hone]
          rfl
      · refine hcode (i := .text bytes) ?_ fun r => ?_
        · simp [Built.atomInstr?, Compile.literalCode, hempty, hone]
        · simp only [Scene.literalLength?, hempty, ← hB.subject]
          rfl

/-- An atom that refers to no group gives its ways. -/
theorem atom_means {peek : Option UInt8} (hB : Hosts e B) (note : Measured) {a : Atom}
    (ha : (Node.atom note a).understood = true) :
    Means e B μ peek (fun _ _ _ x y => B.AtomAt a x y) .none (B.scene.atomWays a) := by
  cases a with
  | empty => exact stay_means
  | literal bytes fold => exact literal_means hB bytes fold
  | charClass ranges negated =>
    rw [Scene.atomWays, ← hB.subject]
    exact text_means hB (fun _ => rfl) fun p n _ h => (Subject.classLength?_bounds h).1
  | charType type negated ascii =>
    rw [Scene.atomWays, ← hB.subject]
    exact text_means hB (fun _ => rfl) fun p n _ h => (Subject.typeLength?_bounds h).1
  | anyChar multiline =>
    rw [Scene.atomWays, ← hB.subject]
    exact text_means hB (fun _ => rfl) fun p n _ h => (Subject.anyLength?_bounds h).1
  | anchor a =>
    rw [Scene.atomWays, ← hB.subject, ← hB.origin]
    intro φ later z x y fate since S t h _ _ _ _
    rw [Stale.or_none]
    obtain ⟨hi, rfl⟩ := h
    exact .anchor hB hi
  | keep =>
    intro φ later z x y fate since S t h _ _ _ _
    rw [Stale.or_none]
    obtain ⟨hi, rfl⟩ := h
    exact .keep hB hi
  | backref _ _ _ => simp [Node.understood] at ha
  | call _ _ => simp [Node.understood] at ha

/-! ## Constructs -/

theorem Means.unforeseen {peek : Option UInt8} (h : Means e B μ none part P f) :
    Means e B μ peek part P f := fun φ later z x y fate since S t hpart hz hS _ hφ =>
  h φ later z x y fate since S t hpart hz hS (fun _ h => nomatch h) hφ

/-- A repeat of any character may be a single instruction. -/
theorem loop_means (peek : Option UInt8) (mode : RepeatMode) (hB : Hosts e B)
    {body : Node Measured} {b : Bounds} (hpart : Describes e B μ part (B.scene.ways body))
    (hadvance : 0 < body.info.minChars → (B.scene.ways body).Advances e.subject.size)
    (hb : b.max.all (b.min ≤ ·) = true)
    (hcounted : repeatPlan b body = .counted → 0 < body.info.minChars) :
    Means e B μ peek (B.LoopAt (Compile.anyCharsCode? mode (repeatPlan b body) peek body)
        (B.RepeatAt b (mode != .lazy) (repeatPlan b body) body.info (B.scene.ways body) part))
      .none ((B.scene.ways body).rounds e.subject.size b (mode != .lazy)) := by
  intro φ later z x y fate since S t h hz hS hpeek hφ
  rw [Stale.or_none]
  have hf : (B.scene.ways body).Regular e.subject.size := by
    rw [hB.subject]
    exact B.scene.ways_regular body
  rcases h with ⟨i, hcode, hi, rfl⟩ | ⟨-, h⟩
  · unfold Compile.anyCharsCode? at hcode
    split at hcode
    · rename_i note multiline
      split at hcode
      · cases hcode
      · rename_i hmode
        simp only [Bool.or_eq_true, beq_iff_eq, bne_iff_ne, ne_eq, not_or, Decidable.not_not]
          at hmode
        obtain rfl : b = ⟨0, none⟩ := by
          obtain ⟨min, max⟩ := b
          have hplan := hmode.2
          unfold repeatPlan at hplan
          split at hplan <;> first | cases hplan; done | skip
          · rename_i hmin hmax
            exact congrArg₂ Bounds.mk hmin hmax
          · split at hplan <;> cases hplan
        have hgreedy : (mode != .lazy) = true := by simpa using hmode.1
        rw [hgreedy, Scene.ways, Scene.atomWays, ← hB.subject]
        change Gives _ _ _ _ _ _ _ _ _ _ (Way.star _ _ _ t)
        cases peek with
        | none =>
          cases hcode
          exact any_gives hB hi (fun _ => rfl) hpeek
        | some c =>
          cases hcode
          exact any_gives hB hi (fun _ => rfl) hpeek
    · cases hcode
  · exact (repeat_gives hB hpart hf hadvance hb hcounted (mode != .lazy)).gives h hz hS hφ

/-- What a literal after a repeat rules out. -/
theorem foresees_peekByte? (hB : Hosts e B) (ns : List (Node Measured)) (fate : Fate) :
    Foresees e (Compile.peekByte? ns) (fate.before (B.scene.waysAll ns)) := by
  intro b hb
  refine Or.inr fun p hp => ?_
  unfold Compile.peekByte? at hb
  split at hb
  · rename_i note bytes ns
    rintro t r rfl hr
    rw [Scene.waysAll, Scene.ways, Scene.atomWays] at hr
    obtain ⟨m, hm, -⟩ := List.mem_flatMap.mp hr
    obtain ⟨n, hn, -⟩ := Way.mem_text hm
    have hsize : ¬ bytes.isEmpty = true := by
      have := (Array.getElem?_eq_some_iff.mp hb).1
      simp only [Array.isEmpty_iff_size_eq_zero]
      omega
    simp only [Scene.literalLength?, hsize] at hn
    rw [hB.subject] at hp
    exact absurd (Subject.first_of_textLength? hb hn) hp
  · cases hb

theorem regular_ways (hB : Hosts e B) (n : Node Measured) :
    (B.scene.ways n).Regular e.subject.size := by
  rw [hB.subject]
  exact B.scene.ways_regular n

theorem regular_waysAll (hB : Hosts e B) (ns : List (Node Measured)) :
    (B.scene.waysAll ns).Regular e.subject.size := by
  rw [hB.subject]
  exact B.scene.waysAll_regular ns

/-- The ways of a look around in terms of the setting. -/
theorem lookWays_eq (hB : Hosts e B) (k : Look) (info : Info) (f : Way) :
    B.scene.lookWays k info f =
      if k.negated then (lookedFor e.subject k info f).never
      else (lookedFor e.subject k info f).ahead := by
  rw [hB.subject]
  rfl

/-- A piece of code that ends with a jump. -/
theorem Gives.leave {Good : Option Memo → Prop} {ts : List Trail} (hB : Hosts e B) (hz : z.Ok)
    (h : Gives e Good fate z since S S x w t ts) (hi : B.code[w]? = some (.jump y))
    (hforward : ∀ u ∈ ts, t.pos ≤ u.pos) : Gives e Good fate z since S S x y t ts := by
  have hjump : Gives e Good fate z since S S x y t (ts.flatMap Way.stay) :=
    h.bind hz (fun _ _ h => h) hforward (fun u _ => .jump hB hz hi .stay)
      fun u _ => fate.leads_single rfl
  have hmap : ts.flatMap Way.stay = ts := by
    unfold Way.stay
    simp
  rwa [hmap] at hjump

open Node

mutual

/-- The code of a tree gives its ways, in order. -/
theorem node_means (hB : Hosts e B) {s : Scale} (hs : s.encoding = B.scene.subject.encoding) :
    ∀ (n : Node Measured) (peek : Option UInt8) (onPath : Bool),
      Secure B.layout.undone onPath n → n.Clear → n.Weighed s →
      Means e B μ peek (B.NodeAt peek n) (n.looseOf B.layout.undone) (B.scene.ways n)
  | .atom note a, peek, _, _, hu, _ => by
    rw [Built.NodeAt, looseOf, Scene.ways]
    exact atom_means hB note hu.understood
  | .repeated _ b mode body, peek, _, hsec, hu, hw => by
    have hcounted := (Bool.and_eq_true_iff.mp hu.understood).1
    simp only [Bool.or_eq_true, bne_iff_ne, ne_eq, decide_eq_true_eq] at hcounted
    rw [Secure] at hsec
    have hbody := node_means hB hs body none false hsec hu.body hw.2
    rw [looseOf_none hsec] at hbody
    have hadvance : 0 < body.info.minChars → (B.scene.ways body).Advances e.subject.size := by
      rw [hB.subject]
      exact B.scene.ways_advances hs body hw.2 hu.body
    have hloop := loop_means peek mode hB hbody hadvance hu.ordered.self
      fun hc => hcounted.resolve_left fun h => h hc
    rw [Built.NodeAt, looseOf, Scene.ways, ← hB.subject]
    split
    · exact atomic_gives hB hloop
    · exact hloop
  | .group _ (.capture g _) body, peek, onPath, hsec, hu, hw => by
    rw [Secure] at hsec
    rw [Built.NodeAt, looseOf, Scene.ways]
    exact capture_gives hB (node_means hB hs body none onPath hsec.2
      (hu.child (List.mem_singleton.mpr rfl)) hw.2)
      (B.scene.ways_opens body)
  | .group _ .plain body, peek, onPath, hsec, hu, hw => by
    rw [Secure] at hsec
    rw [Built.NodeAt, looseOf, Scene.ways]
    exact (node_means hB hs body none onPath hsec
      (hu.child (List.mem_singleton.mpr rfl)) hw.2).unforeseen
  | .group _ .atomic body, peek, onPath, hsec, hu, hw => by
    rw [Secure] at hsec
    rw [Built.NodeAt, looseOf, Scene.ways]
    exact atomic_gives hB (node_means hB hs body none onPath hsec
      (hu.child (List.mem_singleton.mpr rfl)) hw.2)
  | .group _ .absent _, _, _, _, hu, _ => nomatch hu.understood
  | .conditional _ _ _ _ _, _, _, _, hu, _ => nomatch hu.understood
  | .look _ k body, peek, onPath, hsec, hu, hw => by
    rw [Secure] at hsec
    have hbody := node_means hB hs body none _ hsec (hu.child (List.mem_singleton.mpr rfl)) hw.2
    rw [Built.NodeAt, looseOf, Scene.ways, lookWays_eq hB]
    cases hn : k.negated with
    | true =>
      rw [hn, Bool.or_true, Bool.not_true, Bool.and_false] at hsec
      rw [looseOf_none hsec] at hbody
      rw [Bool.or_true]
      exact (lookAgainst_gives hB hn hbody).unforeseen
    | false =>
      rw [hn, Bool.or_false] at hsec
      rw [Bool.or_false]
      have hbehind : k.behind = true → looseOf B.layout.undone body = .none := by
        intro hk
        rw [hk, Bool.not_true, Bool.and_false] at hsec
        exact looseOf_none hsec
      cases hk : k.behind with
      | true =>
        rw [hbehind hk] at hbody
        exact lookFor_gives hB hn hbody fun _ => rfl
      | false => exact lookFor_gives hB hn hbody fun h => by rw [hk] at h; cases h
  | .sequence _ items, peek, onPath, hsec, hu, hw => by
    rw [Secure] at hsec
    rw [Built.NodeAt, looseOf, Scene.ways]
    exact (sequence_means hB hs items onPath hsec (fun _ => hu.child) hw.2).unforeseen
  | .alternation _ [], peek, _, _, _, _ => by
    rw [Built.NodeAt, looseOf, Scene.ways, Built.BranchesAt]
    exact stay_means
  | .alternation _ (n :: ns), peek, _, hsec, hu, hw => by
    rw [Secure] at hsec
    rw [Built.NodeAt, looseOf, Scene.ways, ← Scene.waysSome]
    exact (branches_means hB hs (n :: ns) (by simp) hsec (fun _ => hu.child) hw.2).unforeseen

theorem sequence_means (hB : Hosts e B) {s : Scale} (hs : s.encoding = B.scene.subject.encoding) :
    ∀ (ns : List (Node Measured)) (onPath : Bool), SecureAll B.layout.undone onPath ns →
      (∀ n ∈ ns, n.Clear) → WeighedAll s ns →
      Means e B μ none (B.SequenceAt ns) (looseAll B.layout.undone ns) (B.scene.waysAll ns)
  | [], _, _, _, _ => by
    rw [Built.SequenceAt, looseAll, Scene.waysAll]
    exact stay_means
  | n :: ns, onPath, hsec, hu, hw => by
    rw [SecureAll] at hsec
    have hn := node_means hB hs n (Compile.peekByte? ns) onPath hsec.1 (hu n (by simp)) hw.1
    have hns := sequence_means hB hs ns onPath hsec.2 (fun k hk => hu k (by simp [hk])) hw.2
    have hreg := regular_waysAll hB ns
    rw [Built.SequenceAt, looseAll, Scene.waysAll]
    intro φ later z x y fate since S t h hz hS _ hφ
    obtain ⟨w, hfirst, hrest⟩ := h
    rw [← Stale.or_or]
    have hS' := hS.or (looseAll_fits B.layout.undone ns)
    have hgives := hn φ _ z x w (fate.before (B.scene.waysAll ns)) since _ t hfirst hz hS'
      (foresees_peekByte? hB ns fate) (hφ.before hreg)
    exact hgives.bind hz (fun _ _ => Or.inl) ((regular_ways hB n).forward t)
      (fun u _ => hns φ later z w y fate since S u hrest hz hS (fun _ h => nomatch h) hφ)
      fun u _ => fate.before_leads hreg u

theorem branches_means (hB : Hosts e B) {s : Scale} (hs : s.encoding = B.scene.subject.encoding) :
    ∀ ns : List (Node Measured), ns ≠ [] → SecureAll B.layout.undone false ns →
      (∀ n ∈ ns, n.Clear) → WeighedAll s ns →
      Describes e B μ (B.BranchesAt ns) (B.scene.waysSome ns)
  | [], hne, _, _, _ => absurd rfl hne
  | n :: ns, _, hsec, hu, hw => by
    rw [SecureAll] at hsec
    have hn := node_means hB hs n none false hsec.1 (hu n (by simp)) hw.1
    rw [looseOf_none hsec.1] at hn
    cases ns with
    | nil =>
      have hor : (B.scene.ways n).orElse (fun _ => []) = B.scene.ways n := by
        funext t
        exact List.append_nil _
      rw [Built.BranchesAt, Scene.waysSome, Scene.waysSome, hor]
      exact hn
    | cons m ms =>
      have hrest := branches_means hB hs (m :: ms) (by simp) hsec.2
        (fun k hk => hu k (List.mem_cons_of_mem n hk)) hw.2
      rw [Built.BranchesAt, Scene.waysSome]
      intro φ later z x y fate since S t h hz hS _ hφ
      obtain ⟨w, hfork, hfirst, hjump, hothers⟩ := h
      rw [Stale.or_none]
      have hgives : Gives e μ.Good fate z since S S (x + 1) w t (B.scene.ways n t) :=
        Describes.gives hn hfirst hz hS hφ
      exact .fork hB hz hfork (hgives.leave hB hz hjump ((regular_ways hB n).forward t))
        (Describes.gives hrest hothers hz hS hφ)

end

end Machine
end RegexMachine
