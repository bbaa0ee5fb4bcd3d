import RegexMachine.Proofs.CallSites
import RegexMachine.Proofs.Subroutines

/-!
Code is valid as it is written. Writers fail only where numbers run out; what they write refers to
numbers that have been handed out, and leads nowhere beyond its own end.
-/
namespace RegexMachine
open Compile

namespace Compile

/-- What instructions can refer to besides the numbers that are handed out while they are written. -/
structure Supply where
  /-- Number of groups. -/
  captures : Nat
  /-- Number of subroutines. -/
  subs : Nat

/-- A group that exists. -/
def Supply.HasGroup (r : Supply) (g : Nat) : Prop := 0 < g ∧ g ≤ r.captures

namespace Issued

/-- No fewer numbers have been handed out later. -/
structure Upto (i i' : Issued) : Prop where
  marks : i.marks ≤ i'.marks
  checks : i.checks ≤ i'.checks
  guards : i.guards ≤ i'.guards
  loops : i.loops.size ≤ i'.loops.size

theorem Upto.refl (i : Issued) : i.Upto i :=
  ⟨Nat.le_refl _, Nat.le_refl _, Nat.le_refl _, Nat.le_refl _⟩

theorem Upto.trans {i j k : Issued} (h : i.Upto j) (h' : j.Upto k) : i.Upto k where
  marks := Nat.le_trans h.marks h'.marks
  checks := Nat.le_trans h.checks h'.checks
  guards := Nat.le_trans h.guards h'.guards
  loops := Nat.le_trans h.loops h'.loops

/-- All loops begin and end at `x` or before. -/
def LoopsTo (i : Issued) (x : Addr) : Prop := ∀ l ∈ i.loops, l.body ≤ x ∧ l.exit ≤ x

end Issued
end Compile

namespace Instr

/-- All that an instruction refers to exists. -/
def Refers (r : Supply) (i : Issued) : Instr → Prop
  | groupStart g _ => r.HasGroup g
  | groupEnd g _ => r.HasGroup g
  | groupEndRecursive g => r.HasGroup g
  | backref gs _ => ∀ g ∈ gs, r.HasGroup g
  | ifSet gs _ => ∀ g ∈ gs, r.HasGroup g
  | repeatEnter l => l < i.loops.size
  | repeatNext l => l < i.loops.size
  | lookStart m => m < i.marks
  | lookEnd m => m < i.marks
  | atomicStart m => m < i.marks
  | atomicEnd m => m < i.marks
  | unwind m => m < i.marks
  | checkPos m => m < i.marks
  | roundStart c => c < i.checks
  | roundEnd c _ => c < i.checks
  | guard s within => s < i.guards ∧ ∀ c, within = some c → c < i.checks
  | call _ sub => sub < r.subs
  | stepBack lo hi => ∀ n, hi = some n → lo ≤ n
  | _ => True

/-- An instruction refers to what exists and leads to places up to `x`. -/
def Stands (r : Supply) (i : Issued) (x : Addr) (instr : Instr) : Prop :=
  instr.Refers r i ∧ ∀ t, instr.target? = some t → t ≤ x

theorem Refers.later {r : Supply} {i i' : Issued} {instr : Instr} (h : instr.Refers r i)
    (hi : i.Upto i') : instr.Refers r i' := by
  have hmarks := hi.marks
  have hchecks := hi.checks
  have hguards := hi.guards
  have hloops := hi.loops
  cases instr with
  | guard s within => exact ⟨Nat.lt_of_lt_of_le h.1 hguards,
      fun c hc => Nat.lt_of_lt_of_le (h.2 c hc) hchecks⟩
  | _ => first | exact h | exact Nat.lt_of_lt_of_le h ‹_›

/-- What refers to nothing but what exists has no operand that is wrong. -/
theorem Refers.operandError? {r : Supply} {i : Issued} {instr : Instr} (h : instr.Refers r i)
    {t : Tables} (hcaptures : t.captures = r.captures) (hsubs : t.subroutines.size = r.subs)
    (hloops : t.loops = i.loops) (hmarks : t.marks = i.marks) (hchecks : t.roundChecks = i.checks)
    (hguards : t.guards = i.guards) (place : Addr) : instr.operandError? t place = none := by
  have hgroups : ∀ gs : List Nat, (∀ g ∈ gs, r.HasGroup g) → badGroup? t.captures gs = none := by
    intro gs hgs
    rw [badGroup?, List.find?_eq_none]
    intro g hg
    obtain ⟨hpos, hle⟩ := hgs g hg
    rw [hcaptures]
    simp
    omega
  have hgroup : ∀ g, r.HasGroup g → badGroup? t.captures [g] = none := fun g hg =>
    hgroups [g] fun g' hg' => List.mem_singleton.mp hg' ▸ hg
  cases instr with
  | groupStart g undo => simp [Instr.operandError?, hgroup g h]
  | groupEnd g undo => simp [Instr.operandError?, hgroup g h]
  | groupEndRecursive g => simp [Instr.operandError?, hgroup g h]
  | backref gs fold => simp [Instr.operandError?, hgroups gs h]
  | ifSet gs otherwise => simp [Instr.operandError?, hgroups gs h]
  | guard s within =>
    obtain ⟨hs, hwithin⟩ := h
    cases within with
    | none => simp [Instr.operandError?, hguards, hs]
    | some c => simp [Instr.operandError?, hguards, hs, hchecks, hwithin c rfl]
  | call x sub =>
    have hsub : sub < t.subroutines.size := hsubs ▸ h
    simp [Instr.operandError?, hsub]
  | stepBack lo hi =>
    cases hi with
    | none => rfl
    | some n =>
      have hle := h n rfl
      simp only [Instr.operandError?, ite_eq_right_iff, reduceCtorEq, imp_false]
      omega
  | repeatEnter l => exact if_pos (hloops ▸ h)
  | repeatNext l => exact if_pos (hloops ▸ h)
  | lookStart m => exact if_pos (hmarks ▸ h)
  | lookEnd m => exact if_pos (hmarks ▸ h)
  | atomicStart m => exact if_pos (hmarks ▸ h)
  | atomicEnd m => exact if_pos (hmarks ▸ h)
  | unwind m => exact if_pos (hmarks ▸ h)
  | checkPos m => exact if_pos (hmarks ▸ h)
  | roundStart c => exact if_pos (hchecks ▸ h)
  | roundEnd c captures => exact if_pos (hchecks ▸ h)
  | _ => rfl

end Instr

namespace Compile

/-! ## Writing steps -/

/-- A writing step comes to what is wanted, unless numbers run out. -/
def Delivers {α : Type} (r : EStateM.Result CodeError Issued α) (q : α → Issued → Prop) : Prop :=
  match r with
  | .ok a j => q a j
  | .error e _ => ∃ what, e = .tooMany what

namespace Delivers

variable {α β : Type} {l : Layout} {i : Issued} {q q' : α → Issued → Prop}

theorem pure {a : α} (h : q a i) : Delivers ((Pure.pure a : Gen α) l i) q := h

theorem mono {r : EStateM.Result CodeError Issued α} (h : Delivers r q)
    (hq : ∀ a j, q a j → q' a j) : Delivers r q' := by
  cases r with
  | ok a j => exact hq a j h
  | error e j => exact h

theorem bind {x : Gen α} {f : α → Gen β} {q' : β → Issued → Prop} (hx : Delivers (x l i) q)
    (hf : ∀ a j, q a j → Delivers (f a l j) q') : Delivers ((x >>= f) l i) q' := by
  change Delivers (EStateM.bind (x l) (fun a => f a l) i) q'
  unfold EStateM.bind
  cases hr : x l i with
  | ok a j =>
    rw [hr] at hx
    exact hf a j hx
  | error e j =>
    rw [hr] at hx
    exact hx

end Delivers

variable {r : Supply} {l : Layout} {i j k i' : Issued} {x y : Addr} {a b chunk : Chunk}
  {w no : Writer} {p : Place}

theorem freshMark_delivers :
    Delivers (freshMark l i) fun id j => id = i.marks ∧ j = { i with marks := i.marks + 1 } := by
  rw [freshMark, bind_get]
  split
  · exact ⟨_, rfl⟩
  · exact ⟨rfl, rfl⟩

theorem freshCheck_delivers :
    Delivers (freshCheck l i) fun id j => id = i.checks ∧ j = { i with checks := i.checks + 1 } := by
  rw [freshCheck, bind_get]
  split
  · exact ⟨_, rfl⟩
  · exact ⟨rfl, rfl⟩

theorem freshGuard_delivers :
    Delivers (freshGuard l i) fun id j => id = i.guards ∧ j = { i with guards := i.guards + 1 } := by
  rw [freshGuard, bind_get]
  split
  · exact ⟨_, rfl⟩
  · exact ⟨rfl, rfl⟩

theorem loopId_delivers : Delivers (loopId l i) fun id j => id = i.loops.size ∧ j = i := by
  rw [loopId, bind_get]
  split
  · exact ⟨_, rfl⟩
  · exact ⟨rfl, rfl⟩

/-! ## Chunks -/

/-- A chunk that was written between two states, leading to places up to `x`. -/
structure Legal (r : Supply) (l : Layout) (x : Addr) (i : Issued) (chunk : Chunk) (i' : Issued) :
    Prop where
  upto : i.Upto i'
  bare : l.guardDepth = 0 → i'.guards = i.guards
  stands : ∀ instr ∈ chunk.toList, instr.Stands r i' x
  /-- Loops that were added for it lie before `x` too. -/
  loops : ∀ y, x ≤ y → i.LoopsTo y → i'.LoopsTo y

namespace Legal

/-- Instructions for which nothing is handed out. -/
theorem plain (h : ∀ instr ∈ chunk.toList, instr.Stands r i x) : Legal r l x i chunk i :=
  ⟨.refl i, fun _ => rfl, h, fun _ _ h => h⟩

theorem empty : Legal r l x i #[] i := plain nofun

theorem append (h : Legal r l x i a j) (h' : Legal r l x j b k) : Legal r l x i (a ++ b) k where
  upto := h.upto.trans h'.upto
  bare hl := (h'.bare hl).trans (h.bare hl)
  stands instr hinstr := by
    rw [Array.toList_append] at hinstr
    rcases List.mem_append.mp hinstr with hinstr | hinstr
    · exact ⟨(h.stands instr hinstr).1.later h'.upto, (h.stands instr hinstr).2⟩
    · exact h'.stands instr hinstr
  loops y hy hi := h'.loops y hy (h.loops y hy hi)

theorem widen (h : Legal r l x i chunk i') (hx : x ≤ y) : Legal r l y i chunk i' where
  upto := h.upto
  bare := h.bare
  stands instr hinstr := ⟨(h.stands instr hinstr).1,
    fun t ht => Nat.le_trans ((h.stands instr hinstr).2 t ht) hx⟩
  loops z hz := h.loops z (Nat.le_trans hx hz)

/-- Marks, checks and guards may have been handed out before. -/
theorem since (h : Legal r l x j chunk i') (hi : i.Upto j) (hloops : j.loops = i.loops)
    (hbare : l.guardDepth = 0 → j.guards = i.guards) : Legal r l x i chunk i' where
  upto := hi.trans h.upto
  bare hl := (h.bare hl).trans (hbare hl)
  stands := h.stands
  loops y hy hl := h.loops y hy fun loop hloop => hl loop (hloops ▸ hloop)

/-- Code between two instructions. -/
theorem between {first last : Instr} (h : Legal r l x i chunk i') (hfirst : first.Stands r i x)
    (hlast : last.Stands r i' x) : Legal r l x i (#[first] ++ chunk ++ #[last]) i' :=
  ((plain fun _ h => List.mem_singleton.mp h ▸ hfirst).append h).append
    (plain fun _ h => List.mem_singleton.mp h ▸ hlast)

end Legal

/-! ## Writers -/

/-- The round around a place has a check. -/
def Place.Inside (p : Place) (i : Issued) : Prop := ∀ c, p.within = some c → c < i.checks

theorem Place.Inside.shift (h : p.Inside i) (n : Nat) : (p.shift n).Inside i := h

theorem Place.Inside.later (h : p.Inside i) (hi : i.Upto i') : p.Inside i' := fun c hc =>
  Nat.lt_of_lt_of_le (h c hc) hi.checks

/-- What is written leads nowhere beyond its end. -/
def Sound (r : Supply) (l : Layout) (w : Writer) : Prop :=
  ∀ p i, p.Inside i → Delivers (w p l i) fun chunk i' => Legal r l (p.base + chunk.size) i chunk i'

theorem guardCode_legal (r : Supply) (depth : Nat) (hp : p.Inside i) :
    Delivers (guardCode depth p l i) fun chunk i' => ∀ x, Legal r l x i chunk i' := by
  refine Delivers.bind (q := fun guarded j => j = i ∧ (l.guardDepth = 0 → guarded = false))
    ⟨rfl, fun hl => by simp [hl]⟩ fun guarded j hj => ?_
  obtain ⟨rfl, hbare⟩ := hj
  cases guarded with
  | false => exact .pure fun _ => .empty
  | true =>
    refine freshGuard_delivers.bind fun id k hid => ?_
    obtain ⟨rfl, rfl⟩ := hid
    refine Delivers.bind (q := fun _ k => k = { j with
      guards := j.guards + 1, features := j.features.insert .hasGuards }) rfl fun _ k hk => ?_
    subst hk
    refine .pure fun x => (Legal.since (.plain fun instr hinstr => ?_)
      ⟨Nat.le_refl _, Nat.le_refl _, Nat.le_succ _, Nat.le_refl _⟩ rfl fun hl => nomatch hbare hl)
    obtain rfl := List.mem_singleton.mp hinstr
    exact ⟨⟨Nat.lt_succ_self _, hp⟩, nofun⟩

theorem offer_legal (greedy : Bool) {exit : Addr} (hx : y + offerSize greedy ≤ x) (hexit : exit ≤ x) :
    Legal r l x i (offer greedy y exit) i := by
  refine .plain fun instr hinstr => ?_
  cases greedy with
  | true =>
    obtain rfl := List.mem_singleton.mp hinstr
    exact ⟨trivial, fun t ht => Option.some.inj ht ▸ hexit⟩
  | false =>
    simp only [offer, Bool.false_eq_true, ↓reduceIte, List.mem_cons, List.not_mem_nil,
      or_false] at hinstr
    rcases hinstr with rfl | rfl
    · exact ⟨trivial, fun t ht => Option.some.inj ht ▸ hx⟩
    · exact ⟨trivial, fun t ht => Option.some.inj ht ▸ hexit⟩

theorem jump_stands {t : Addr} (ht : t ≤ x) : (Instr.jump t).Stands r i x :=
  ⟨trivial, fun _ h => Option.some.inj h ▸ ht⟩

theorem fork_stands {t : Addr} (ht : t ≤ x) : (Instr.fork t).Stands r i x :=
  ⟨trivial, fun _ h => Option.some.inj h ▸ ht⟩

/-- One instruction for which nothing is handed out. -/
theorem Legal.single {instr : Instr} (h : instr.Stands r i x) : Legal r l x i #[instr] i :=
  .plain fun _ hmem => List.mem_singleton.mp hmem ▸ h

theorem loopBody_sound (info : Info) (hw : Sound r l w) : Sound r l (loopBody info w) := by
  intro p i hp
  unfold loopBody
  dsimp only
  split
  · exact hw p.inLoop i hp
  · refine freshCheck_delivers.bind fun id j hid => ?_
    obtain ⟨rfl, rfl⟩ := hid
    rw [bind_read]
    refine (hw _ _ fun c hc => Option.some.inj hc ▸ Nat.lt_succ_self _).bind fun code k hcode => ?_
    have hlt : i.checks < k.checks := hcode.upto.checks
    refine .pure (Legal.since (j := { i with checks := i.checks + 1 }) ?_
      ⟨Nat.le_refl _, Nat.le_succ _, Nat.le_refl _, Nat.le_refl _⟩ rfl fun _ => rfl)
    refine (hcode.widen ?_).between ⟨Nat.lt_succ_self _, nofun⟩ ⟨hlt, nofun⟩
    grind [Built.shift_base, Built.inLoop_base]

theorem starCode_sound (greedy : Bool) (depth : Nat) (info : Info) (hw : Sound r l w) :
    Sound r l (starCode greedy depth info w) := by
  intro p i hp
  refine (guardCode_legal r depth hp).bind fun guard j hguard => ?_
  have hinside := hp.later (hguard 0).upto
  refine (loopBody_sound info hw _ j (hinside.shift _)).bind fun code k hcode => .pure ?_
  refine (((hguard _).append (offer_legal greedy ?_ ?_)).append (hcode.widen ?_)).append
    (.single (jump_stands ?_))
  all_goals grind [Built.offer_size, Built.shift_base]

theorem greedyPlusCode_sound (depth : Nat) (info : Info) (hw : Sound r l w) :
    Sound r l (greedyPlusCode depth info w) := by
  intro p i hp
  refine (guardCode_legal r depth hp).bind fun guard j hguard => ?_
  have hinside := hp.later (hguard 0).upto
  refine (loopBody_sound info hw _ j (hinside.shift _)).bind fun code k hcode => .pure ?_
  refine ((((Legal.single (jump_stands ?_)).append (hguard _)).append
    (.single (fork_stands ?_))).append (hcode.widen ?_)).append (.single (jump_stands ?_))
  all_goals grind [Built.shift_base]

theorem lazyPlusCode_sound (depth : Nat) (info : Info) (hw : Sound r l w) :
    Sound r l (lazyPlusCode depth info w) := by
  intro p i hp
  refine (guardCode_legal r depth hp).bind fun guard j hguard => ?_
  have hinside := hp.later (hguard 0).upto
  refine (loopBody_sound info hw _ j (hinside.shift _)).bind fun code k hcode => .pure ?_
  refine ((hguard _).append (hcode.widen ?_)).append (.single (fork_stands ?_))
  all_goals grind [Built.shift_base]

theorem plusCode_sound (greedy : Bool) (depth : Nat) (info : Info) (hw : Sound r l w) :
    Sound r l (plusCode greedy depth info w) := by
  cases greedy with
  | true => exact greedyPlusCode_sound depth info hw
  | false => exact lazyPlusCode_sound depth info hw

/-- Copies come after what has been written so far. -/
theorem copies_legal (hw : Sound r l w) (n : Nat) {done : Chunk} (hp : p.Inside i)
    (hdone : Legal r l (p.base + done.size) k done i) :
    Delivers (copies w p done n l i) fun chunk i' => Legal r l (p.base + chunk.size) k chunk i' := by
  induction n generalizing done i with
  | zero => exact .pure hdone
  | succ n ih =>
    refine (hw _ i (hp.shift done.size)).bind fun code j hcode => ?_
    refine ih (hp.later hcode.upto) ((hdone.widen ?_).append (hcode.widen ?_))
    all_goals grind [Built.shift_base]

/-- Chunks that were written one after another, `head` places being left before each. -/
def LegalAll (r : Supply) (l : Layout) (head : Nat) : Addr → Issued → List Chunk → Issued → Prop
  | _, i, [], i' => i' = i
  | x, i, b :: bs, i' =>
    ∃ j, Legal r l (x + head + b.size) i b j ∧ LegalAll r l head (x + head + b.size) j bs i'

theorem optionalBodies_legal (greedy : Bool) (hw : Sound r l w) (n : Nat) {done : Array Chunk}
    (hp : p.Inside i) :
    Delivers (optionalBodies greedy w p done n l i) fun bodies i' =>
      ∃ bs : List Chunk, bodies = done ++ bs.toArray ∧
        LegalAll r l (offerSize greedy) p.base i bs i' := by
  induction n generalizing p done i with
  | zero => exact .pure ⟨[], by simp, rfl⟩
  | succ n ih =>
    refine (hw _ i (hp.shift _)).bind fun code j hcode => ?_
    refine (ih (p := p.shift (offerSize greedy + code.size)) (hp.later hcode.upto)).mono ?_
    rintro bodies i' ⟨bs, rfl, hbs⟩
    rw [Built.shift_base, ← Nat.add_assoc] at hbs
    exact ⟨code :: bs, by simp, j, hcode, hbs⟩

theorem joinList_legal (greedy : Bool) {bs : List Chunk} {exit : Addr}
    (h : LegalAll r l (offerSize greedy) x i bs i')
    (hexit : exit = x + (Built.joinList greedy x exit bs).size) :
    Legal r l exit i (Built.joinList greedy x exit bs) i' := by
  induction bs generalizing x i with
  | nil =>
    obtain rfl := h
    exact .empty
  | cons b bs ih =>
    obtain ⟨j, hb, hbs⟩ := h
    refine ((offer_legal greedy ?_ (Nat.le_refl _)).append (hb.widen ?_)).append
      (ih hbs ?_)
    all_goals grind [Built.joinList, Built.offer_size]

theorem optionalCode_sound (greedy : Bool) (hw : Sound r l w) (n : Nat) :
    Sound r l (optionalCode greedy w n) := by
  intro p i hp
  refine (optionalBodies_legal greedy hw n hp).bind fun bodies j hbodies => .pure ?_
  obtain ⟨bs, rfl, hbs⟩ := hbodies
  rw [Array.empty_append, Built.joinOptional_eq]
  have hsize := Built.joinList_size greedy p.base
    (p.base + chunksSize (offerSize greedy) bs.toArray) bs
  rw [hsize]
  exact joinList_legal greedy hbs (by rw [hsize])

theorem unrolledCode_sound (b : Bounds) (greedy : Bool) (depth : Nat) (info : Info)
    (hw : Sound r l w) : Sound r l (unrolledCode b greedy depth info w) := by
  intro p i hp
  have hthen : ∀ (n : Nat) (rest : Writer), Sound r l rest →
      Delivers ((do
        let front ← copies w p #[] n
        return front ++ (← rest (p.shift front.size)) : Gen Chunk) l i)
        fun chunk i' => Legal r l (p.base + chunk.size) i chunk i' := by
    intro n rest hrest
    refine (copies_legal hw n hp .empty).bind fun front j hfront => ?_
    refine (hrest _ j ((hp.later hfront.upto).shift _)).bind fun code k hcode => .pure ?_
    refine (hfront.widen ?_).append (hcode.widen ?_)
    all_goals grind [Built.shift_base]
  unfold unrolledCode
  cases b.max with
  | none => exact hthen _ _ (plusCode_sound greedy depth info hw)
  | some max => exact hthen _ _ (optionalCode_sound greedy hw _)

/-- Code that was written while a loop was in the table, whose places are filled in afterwards. -/
theorem Legal.looping {first last : CountedLoop} {code : Chunk}
    (h : Legal r l x { i with loops := i.loops.push first } code i')
    (hfirst : first.body ≤ x ∧ first.exit ≤ x) (hlast : last.body ≤ x ∧ last.exit ≤ x) :
    Legal r l x i (#[.repeatEnter i.loops.size] ++ code ++ #[.repeatNext i.loops.size])
      { i' with loops := i'.loops.setIfInBounds i.loops.size last } := by
  have hsize : i.loops.size < i'.loops.size := by
    have := h.upto.loops
    rwa [Array.size_push] at this
  have hset : i'.Upto { i' with loops := i'.loops.setIfInBounds i.loops.size last } :=
    ⟨Nat.le_refl _, Nat.le_refl _, Nat.le_refl _, by simp⟩
  have henter : (Instr.repeatEnter i.loops.size).Stands r { i with loops := i.loops.push first } x :=
    ⟨by simp [Instr.Refers], nofun⟩
  have hnext : (Instr.repeatNext i.loops.size).Stands r i' x := ⟨hsize, nofun⟩
  have hcode := h.between henter hnext
  refine ⟨⟨h.upto.marks, h.upto.checks, h.upto.guards, ?_⟩, h.bare, fun instr hinstr => ?_, fun y hy hi => ?_⟩
  · rw [Array.size_setIfInBounds]
    exact Nat.le_of_lt hsize
  · exact ⟨(hcode.stands instr hinstr).1.later hset, (hcode.stands instr hinstr).2⟩
  · have hpushed : Issued.LoopsTo { i with loops := i.loops.push first } y := fun loop hloop => by
      rcases Array.mem_push.mp hloop with hloop | rfl
      · exact hi loop hloop
      · exact ⟨Nat.le_trans hfirst.1 hy, Nat.le_trans hfirst.2 hy⟩
    intro loop hloop
    rcases Array.mem_or_eq_of_mem_setIfInBounds hloop with hloop | rfl
    · exact h.loops y hy hpushed loop hloop
    · exact ⟨Nat.le_trans hlast.1 hy, Nat.le_trans hlast.2 hy⟩

theorem countedCode_sound (b : Bounds) (greedy : Bool) (info : Info) (hw : Sound r l w) :
    Sound r l (countedCode b greedy info w) := by
  intro p i hp
  refine loopId_delivers.bind fun id j hid => ?_
  obtain ⟨rfl, rfl⟩ := hid
  let loop (exit : Addr) : CountedLoop := ⟨b.min, b.max, greedy, p.base + 1, exit⟩
  let j' : Issued := { j with loops := j.loops.push (loop 0) }
  refine Delivers.bind (q := fun _ k => k = j') rfl fun _ k hk => ?_
  subst hk
  refine (loopBody_sound info hw _ j' (hp.shift 1)).bind fun code k hcode => ?_
  let last := loop (p.base + code.size + 2)
  let k' : Issued := { k with loops := k.loops.setIfInBounds j.loops.size last }
  refine Delivers.bind (q := fun _ k => k = k') rfl fun _ k hk => .pure ?_
  subst hk
  refine Legal.looping (hcode.widen ?_) ⟨?_, Nat.zero_le _⟩ ⟨?_, ?_⟩
  all_goals grind [Built.shift_base]

theorem repeatCode_sound (b : Bounds) (greedy : Bool) (depth : Nat) (plan : RepeatPlan)
    (info : Info) (hw : Sound r l w) : Sound r l (repeatCode b greedy depth plan info w) := by
  cases plan with
  | skip => exact fun p i _ => .pure .empty
  | optional => exact optionalCode_sound greedy hw 1
  | star => exact starCode_sound greedy depth info hw
  | plus => exact plusCode_sound greedy depth info hw
  | unroll => exact unrolledCode_sound b greedy depth info hw
  | counted => exact countedCode_sound b greedy info hw

/-! ## Regions, choices and groups -/

theorem atomicCode_sound (hw : Sound r l w) : Sound r l (atomicCode w) := by
  intro p i hp
  refine freshMark_delivers.bind fun mark j hmark => ?_
  obtain ⟨rfl, rfl⟩ := hmark
  refine (hw _ { i with marks := i.marks + 1 } (hp.shift 1)).bind fun code k hcode => .pure ?_
  have hlt : i.marks < k.marks := hcode.upto.marks
  refine Legal.since (j := { i with marks := i.marks + 1 }) ?_
    ⟨Nat.le_succ _, Nat.le_refl _, Nat.le_refl _, Nat.le_refl _⟩ rfl fun _ => rfl
  refine (hcode.widen ?_).between ⟨Nat.lt_succ_self _, nofun⟩ ⟨hlt, nofun⟩
  grind [Built.shift_base]

/-- Lookbehinds step back by bounds in order. -/
theorem lookCode_sound (q : Look) {info : Info} (hinfo : ∀ n, info.maxChars = some n → info.minChars ≤ n)
    (hw : Sound r l w) : Sound r l (lookCode q info w) := by
  intro p i hp
  refine freshMark_delivers.bind fun mark j hmark => ?_
  obtain ⟨rfl, rfl⟩ := hmark
  have hrest : ∀ (j : Issued) (step check : Chunk), i.Upto j → j.loops = i.loops →
      (l.guardDepth = 0 → j.guards = i.guards) → i.marks < j.marks →
      (∀ x, Legal r l x j step j) → (∀ x k, j.Upto k → Legal r l x k check k) →
      Delivers ((if q.negated = true then (do
        let code ← w (p.shift (2 + step.size))
        let inner := #[.lookStart i.marks] ++ step ++ code ++ check
        return #[.fork (p.base + inner.size + 4)] ++ inner ++ #[.unwind i.marks, .drop, .fail] : Gen Chunk)
      else (do
        let code ← w (p.shift (1 + step.size))
        return #[.lookStart i.marks] ++ step ++ code ++ check ++ #[.lookEnd i.marks])) l j)
        fun chunk i' => Legal r l (p.base + chunk.size) i chunk i' := by
    intro j step check hupto hloops hguards hmark hstep hcheck
    have hinside := hp.later hupto
    have hstart (x : Addr) : (Instr.lookStart i.marks).Stands r j x := ⟨hmark, nofun⟩
    split
    · refine (hw _ j (hinside.shift _)).bind fun code k hcode => .pure (Legal.since ?_ hupto hloops hguards)
      have hlt : i.marks < k.marks := Nat.lt_of_lt_of_le hmark hcode.upto.marks
      refine ((Legal.single (fork_stands ?_)).append ((((Legal.single (hstart _)).append
        (hstep _)).append (hcode.widen ?_)).append (hcheck _ k hcode.upto))).append (.plain ?_)
      · grind
      · grind [Built.shift_base]
      · intro instr hinstr
        simp only [List.mem_cons, List.not_mem_nil, or_false] at hinstr
        rcases hinstr with rfl | rfl | rfl
        · exact ⟨hlt, nofun⟩
        · exact ⟨trivial, nofun⟩
        · exact ⟨trivial, nofun⟩
    · refine (hw _ j (hinside.shift _)).bind fun code k hcode => .pure (Legal.since ?_ hupto hloops hguards)
      have hlt : i.marks < k.marks := Nat.lt_of_lt_of_le hmark hcode.upto.marks
      refine ((((Legal.single (hstart _)).append (hstep _)).append (hcode.widen ?_)).append
        (hcheck _ k hcode.upto)).append (.single ⟨hlt, nofun⟩)
      grind [Built.shift_base]
  cases hb : q.behind with
  | true =>
    simp only [↓reduceIte]
    refine Delivers.bind (q := fun _ k => k = { i with
      marks := i.marks + 1, features := i.features.insert .hasLookbehind }) rfl fun _ k hk => ?_
    subst hk
    exact hrest _ #[.stepBack info.minChars info.maxChars] #[.checkPos i.marks]
      ⟨Nat.le_succ _, Nat.le_refl _, Nat.le_refl _, Nat.le_refl _⟩ rfl (fun _ => rfl)
      (Nat.lt_succ_self _) (fun x => .single ⟨hinfo, nofun⟩)
      fun x k hk => .single ⟨Nat.lt_of_lt_of_le (Nat.lt_succ_self _) hk.marks, nofun⟩
  | false =>
    simp only [Bool.false_eq_true, ↓reduceIte]
    exact hrest _ #[] #[] ⟨Nat.le_succ _, Nat.le_refl _, Nat.le_refl _, Nat.le_refl _⟩ rfl
      (fun _ => rfl) (Nat.lt_succ_self _) (fun _ => .empty) fun _ _ _ => .empty

theorem absentCode_sound (hw : Sound r l w) : Sound r l (absentCode w) := by
  intro p i hp
  let j : Issued := { i with features := i.features.insert .hasAbsent }
  refine Delivers.bind (q := fun _ k => k = j) rfl fun _ k hk => ?_
  subst hk
  refine (hw _ j (hp.shift 2)).bind fun code k hcode => .pure ?_
  refine Legal.since (j := j) ?_
    ⟨Nat.le_refl _, Nat.le_refl _, Nat.le_refl _, Nat.le_refl _⟩ rfl fun _ => rfl
  refine ((Legal.plain ?_).append (hcode.widen ?_)).append (.single ⟨trivial, nofun⟩)
  · intro instr hinstr
    simp only [List.mem_cons, List.not_mem_nil, or_false] at hinstr
    rcases hinstr with rfl | rfl
    · refine ⟨trivial, fun t ht => Option.some.inj ht ▸ ?_⟩
      grind
    · refine jump_stands ?_
      grind
  · grind [Built.shift_base]

theorem conditionalCode_sound {groups : List Nat} (hgroups : ∀ g ∈ groups, r.HasGroup g)
    (hw : Sound r l w) (hno : Sound r l no) : Sound r l (conditionalCode groups w no) := by
  intro p i hp
  refine (hw _ i (hp.shift 1)).bind fun code j hcode => ?_
  refine (hno _ j ((hp.later hcode.upto).shift _)).bind fun noCode k hnoCode => .pure ?_
  have hif {x t : Addr} (ht : t ≤ x) : (Instr.ifSet groups t).Stands r i x :=
    ⟨hgroups, fun _ h => Option.some.inj h ▸ ht⟩
  refine (((Legal.single (hif ?_)).append (hcode.widen ?_)).append (.single (jump_stands ?_))).append (hnoCode.widen ?_)
  all_goals grind [Built.shift_base]

/-- A group that can be called has a subroutine, and its number is among those that exist. -/
def Layout.Calls (l : Layout) (r : Supply) (group : Nat) : Prop :=
  ∃ sub, (l.subroutines[group]?).join = some sub ∧ sub < r.subs

theorem callCode_legal {group : Nat} (h : l.Calls r group) (x : Addr) :
    Delivers (callCode group l i) fun chunk i' => Legal r l x i chunk i' := by
  obtain ⟨sub, hsub, hlt⟩ := h
  unfold callCode
  rw [bind_read, hsub]
  exact .pure (.single ⟨hlt, fun t ht => Option.some.inj ht ▸ Nat.zero_le x⟩)

theorem captureCode_sound {group : Nat} (hgroup : r.HasGroup group)
    (hcalls : l.calls.isCalled group = true → l.Calls r group) (hw : Sound r l w) :
    Sound r l (captureCode group w) := by
  intro p i hp
  unfold captureCode
  rw [bind_read]
  split
  · exact (callCode_legal (hcalls ‹_›) 0).mono fun chunk j h => h.widen (Nat.zero_le _)
  · refine (hw _ i (hp.shift 1)).bind fun code k hcode => .pure ?_
    refine (hcode.widen ?_).between ⟨hgroup, nofun⟩ ⟨hgroup, nofun⟩
    grind [Built.shift_base]

theorem anyCharsCode?_stands {mode : RepeatMode} {plan : RepeatPlan} {peek : Option UInt8}
    {n : Node Measured} {instr : Instr} (h : anyCharsCode? mode plan peek n = some instr) :
    instr.Stands r i x := by
  unfold anyCharsCode? at h
  split at h
  · split at h
    · cases h
    · split at h <;> cases h <;> exact ⟨trivial, nofun⟩
  · cases h

theorem repeatWriter_sound (b : Bounds) (mode : RepeatMode) (plan : RepeatPlan)
    (peek : Option UInt8) (n : Node Measured) (depth : Nat) (hw : Sound r l w) :
    Sound r l (repeatWriter b mode plan (anyCharsCode? mode plan peek n) depth n.info w) := by
  have hloop : Sound r l (loopWriter b mode plan (anyCharsCode? mode plan peek n) depth n.info w) := by
    intro p i hp
    unfold loopWriter
    refine Delivers.bind (q := fun _ j => j = i) rfl fun guarded j hj => ?_
    subst hj
    generalize hi : anyCharsCode? mode plan peek n = instr?
    cases instr? with
    | none => exact repeatCode_sound _ _ _ _ _ hw p j hp
    | some instr =>
      cases guarded with
      | true => exact repeatCode_sound _ _ _ _ _ hw p j hp
      | false => exact .pure (.single (anyCharsCode?_stands hi))
  unfold repeatWriter
  dsimp only
  split
  · exact atomicCode_sound hloop
  · exact hloop

/-! ## Trees -/

/-- Whether all groups that a node refers to exist, those that it calls having subroutines, and a
lookaround knows how far to go back. -/
def suits (r : Supply) (l : Layout) : Node Measured → Prop
  | .atom _ (.backref _ gs _) => ∀ g ∈ gs, r.HasGroup g
  | .atom _ (.call _ g) => l.Calls r g
  | .group _ (.capture g _) _ => r.HasGroup g ∧ (l.calls.isCalled g = true → l.Calls r g)
  | .conditional _ _ gs _ _ => ∀ g ∈ gs, r.HasGroup g
  | .look _ _ body => ∀ n, body.info.maxChars = some n → body.info.minChars ≤ n
  | _ => True

theorem atomCode_legal {e : Encoding} {note : Measured} {a : Atom} (h : suits r l (.atom note a)) :
    Delivers (atomCode e a l i) fun chunk i' => ∀ x, Legal r l x i chunk i' := by
  cases a with
  | call t group => exact (callCode_legal h 0).mono fun chunk j h x => h.widen (Nat.zero_le x)
  | literal bytes fold =>
    refine .pure fun x => .plain ?_
    unfold literalCode
    repeat' split
    all_goals simp [Instr.Stands, Instr.Refers, Instr.target?]
  | keep =>
    let j : Issued := { i with features := i.features.insert .hasKeep }
    refine Delivers.bind (q := fun _ k => k = j) rfl fun _ k hk => .pure fun x => ?_
    subst hk
    have hkeep : Instr.keep.Stands r j x := ⟨trivial, nofun⟩
    exact (Legal.single hkeep).since
      ⟨Nat.le_refl _, Nat.le_refl _, Nat.le_refl _, Nat.le_refl _⟩ rfl fun _ => rfl
  | empty => exact .pure fun x => .empty
  | backref t gs fold => exact .pure fun x => .single ⟨h, nofun⟩
  | _ => exact .pure fun x => .single ⟨trivial, nofun⟩

theorem sequenceCode_legal {ns : List (Node Measured)} {done : Chunk} (hp : p.Inside i)
    (hns : ∀ n ∈ ns, ∀ peek, Sound r l fun p => nodeCode peek p n)
    (hdone : Legal r l (p.base + done.size) k done i) :
    Delivers (sequenceCode p done ns l i) fun chunk i' => Legal r l (p.base + chunk.size) k chunk i' := by
  induction ns generalizing done i with
  | nil =>
    rw [sequenceCode]
    exact .pure hdone
  | cons n ns ih =>
    rw [sequenceCode]
    refine (hns n (by simp) (peekByte? ns) _ i (hp.shift done.size)).bind fun code j hcode => ?_
    refine ih (hp.later hcode.upto) (fun m hm => hns m (List.mem_cons_of_mem _ hm))
      ((hdone.widen ?_).append (hcode.widen ?_))
    all_goals grind [Built.shift_base]

/-- Chunks that were written one after another, one place being left before each but the last and one
after it. -/
def LegalBranches (r : Supply) (l : Layout) : Addr → Issued → List Chunk → Issued → Prop
  | _, i, [], i' => i' = i
  | x, i, b :: bs, i' =>
    ∃ j, Legal r l (x + (if bs.isEmpty then 0 else 1) + b.size) i b j ∧
      LegalBranches r l (x + b.size + 2) j bs i'

theorem branchChunks_legal {ns : List (Node Measured)} {done : Array Chunk} (hp : p.Inside i)
    (hns : ∀ n ∈ ns, Sound r l fun p => nodeCode none p n) :
    Delivers (branchChunks p done ns l i) fun chunks i' =>
      ∃ bs : List Chunk, chunks = done ++ bs.toArray ∧ (bs = [] ↔ ns = []) ∧
        LegalBranches r l p.base i bs i' := by
  induction ns generalizing p done i with
  | nil =>
    rw [branchChunks]
    exact .pure ⟨[], by simp, by simp, rfl⟩
  | cons n ns ih =>
    rw [branchChunks]
    have hn := hns n (by simp) _ i (hp.shift (if ns.isEmpty then 0 else 1))
    refine hn.bind fun code j hcode => ?_
    refine (ih (p := p.shift ((if ns.isEmpty then 0 else 1) + code.size + 1))
      (hp.later hcode.upto) fun m hm => hns m (List.mem_cons_of_mem _ hm)).mono ?_
    rintro chunks i' ⟨bs, rfl, hempty, hbs⟩
    have hends : bs.isEmpty = ns.isEmpty := by
      rw [Bool.eq_iff_iff, List.isEmpty_iff, List.isEmpty_iff]
      exact hempty
    refine ⟨code :: bs, by simp, by simp, j, ?_, ?_⟩
    · rw [hends]
      exact hcode
    · cases bs with
      | nil => exact hbs
      | cons b bs =>
        rw [← hends] at hbs
        have hbase : (p.shift ((if (b :: bs).isEmpty then 0 else 1) + code.size + 1)).base =
            p.base + code.size + 2 := by grind [Built.shift_base]
        rwa [hbase] at hbs

theorem branchList_legal {bs : List Chunk} {stop : Addr} (h : LegalBranches r l x i bs i')
    (hstop : stop = x + (Built.branchList x stop bs).size) :
    Legal r l stop i (Built.branchList x stop bs) i' := by
  induction bs generalizing x i with
  | nil =>
    obtain rfl := h
    exact .empty
  | cons b bs ih =>
    obtain ⟨j, hb, hbs⟩ := h
    cases bs with
    | nil =>
      obtain rfl := hbs
      refine hb.widen ?_
      grind [Built.branchList]
    | cons b' bs =>
      have hsize : (Built.branchList x stop (b :: b' :: bs)).size =
          b.size + 2 + (Built.branchList (x + b.size + 2) stop (b' :: bs)).size := by
        rw [Built.branchList, Array.size_append, Array.size_append, Array.size_append]
        · simp only [List.size_toArray, List.length_cons, List.length_nil]
          omega
        · exact nofun
      rw [hsize] at hstop
      refine ((((Legal.single (fork_stands ?_)).append (hb.widen ?_)).append
        (.single (jump_stands (Nat.le_refl _))))).append (ih hbs ?_)
      all_goals grind

/-- All nodes of a tree suit. -/
def Fit (r : Supply) (l : Layout) (n : Node Measured) : Prop := ∀ m ∈ n.subtrees, suits r l m

theorem Fit.child {n c : Node Measured} (h : Fit r l n) (hc : c ∈ n.children) : Fit r l c :=
  fun m hm => h m (Node.mem_subtrees.mpr (Or.inr ⟨c, hc, hm⟩))

theorem Fit.self {n : Node Measured} (h : Fit r l n) : suits r l n := h n (Node.self_mem_subtrees n)

/-- The code of a tree is sound if those of its parts are. -/
theorem nodeCode_sound {n : Node Measured} (h : Fit r l n) (peek : Option UInt8) :
    Sound r l fun p => nodeCode peek p n := by
  induction n using Node.induction generalizing peek with
  | step n ih =>
    have hpart : ∀ c ∈ n.children, Sound r l fun p => nodeCode none p c := fun c hc =>
      ih c hc (h.child hc) none
    intro p i hp
    cases n with
    | atom note a =>
      dsimp only
      rw [nodeCode, bind_read]
      exact (atomCode_legal h.self).mono fun chunk j hchunk => hchunk _
    | repeated note b mode body =>
      dsimp only
      rw [nodeCode]
      exact repeatWriter_sound _ _ _ _ _ _ (hpart body (by simp [Node.children])) p i hp
    | group note kind body =>
      have hbody := hpart body (by simp [Node.children])
      dsimp only
      cases kind with
      | capture g name =>
        rw [nodeCode]
        exact captureCode_sound h.self.1 h.self.2 hbody p i hp
      | plain =>
        rw [nodeCode]
        exact hbody p i hp
      | atomic =>
        rw [nodeCode]
        exact atomicCode_sound hbody p i hp
      | absent =>
        rw [nodeCode]
        exact absentCode_sound hbody p i hp
    | conditional note t gs yes no =>
      dsimp only
      rw [nodeCode]
      refine conditionalCode_sound h.self (hpart yes (by simp [Node.children])) ?_ p i hp
      intro q j hq
      cases no with
      | none =>
        dsimp only
        rw [optionCode]
        exact .pure .empty
      | some no =>
        dsimp only
        rw [optionCode]
        exact hpart no (by simp [Node.children]) q j hq
    | look note k body =>
      dsimp only
      rw [nodeCode]
      exact lookCode_sound k h.self (hpart body (by simp [Node.children])) p i hp
    | sequence note items =>
      dsimp only
      rw [nodeCode]
      exact sequenceCode_legal hp (fun n hn peek => ih n hn (h.child hn) peek) .empty
    | alternation note branches =>
      dsimp only
      rw [nodeCode]
      refine (branchChunks_legal hp hpart).bind fun chunks j hchunks => .pure ?_
      obtain ⟨bs, rfl, -, hbs⟩ := hchunks
      rw [Array.empty_append, Built.joinBranches_eq, Built.branchList_size]
      exact branchList_legal hbs (by rw [Built.branchList_size])

end Compile
end RegexMachine
