import RegexMachine.Proofs.CaptureRuns
import RegexMachine.Proofs.Numbers

/-!
Which groups of a tree backtracking need not restore. They lie on the one path through the pattern,
and their fields are loose while it is run.
-/
namespace RegexMachine

namespace Node

mutual

/-- The fields that are loose in the code of a tree. -/
def looseOf (undone : Array Bool) : Node Measured → Stale
  | atom _ _ => .none
  | repeated _ _ _ _ => .none
  | group _ (.capture g _) body => (looseOf undone body).or (Machine.groupLoose undone g)
  | group _ .plain body => looseOf undone body
  | group _ .atomic body => looseOf undone body
  | group _ .absent _ => .none
  | conditional _ _ _ _ _ => .none
  | look _ k body => if k.behind || k.negated then .none else looseOf undone body
  | sequence _ items => looseAll undone items
  | alternation _ _ => .none

def looseAll (undone : Array Bool) : List (Node Measured) → Stale
  | [] => .none
  | n :: ns => (looseAll undone ns).or (looseOf undone n)

end

mutual

/-- Groups that lie off the one path through a pattern are restored by backtracking. -/
def Secure (undone : Array Bool) (onPath : Bool) : Node Measured → Prop
  | atom _ _ => True
  | repeated _ _ _ body => Secure undone false body
  | group _ (.capture g _) body =>
    (onPath = false → undone.getD g true = true) ∧ Secure undone onPath body
  | group _ .plain body => Secure undone onPath body
  | group _ .atomic body => Secure undone onPath body
  | group _ .absent body => Secure undone false body
  | conditional _ _ _ yes no => Secure undone false yes ∧ SecureOption undone no
  | look _ k body => Secure undone (onPath && !(k.behind || k.negated)) body
  | sequence _ items => SecureAll undone onPath items
  | alternation _ branches => SecureAll undone false branches

def SecureOption (undone : Array Bool) : Option (Node Measured) → Prop
  | none => True
  | some n => Secure undone false n

def SecureAll (undone : Array Bool) (onPath : Bool) : List (Node Measured) → Prop
  | [] => True
  | n :: ns => Secure undone onPath n ∧ SecureAll undone onPath ns

end

mutual

theorem looseOf_fits (undone : Array Bool) : ∀ n : Node Measured, (looseOf undone n).Fits undone
  | atom _ _ => by rw [looseOf]; exact Stale.fits_none _
  | repeated _ _ _ _ => by rw [looseOf]; exact Stale.fits_none _
  | group _ (.capture g _) body => by
    rw [looseOf]
    exact (looseOf_fits undone body).or (Machine.fits_groupLoose undone g)
  | group _ .plain body => by rw [looseOf]; exact looseOf_fits undone body
  | group _ .atomic body => by rw [looseOf]; exact looseOf_fits undone body
  | group _ .absent _ => by rw [looseOf]; exact Stale.fits_none _
  | conditional _ _ _ _ _ => by rw [looseOf]; exact Stale.fits_none _
  | look _ k body => by
    rw [looseOf]
    split
    · exact Stale.fits_none _
    · exact looseOf_fits undone body
  | sequence _ items => by rw [looseOf]; exact looseAll_fits undone items
  | alternation _ _ => by rw [looseOf]; exact Stale.fits_none _

theorem looseAll_fits (undone : Array Bool) :
    ∀ ns : List (Node Measured), (looseAll undone ns).Fits undone
  | [] => by rw [looseAll]; exact Stale.fits_none _
  | n :: ns => by
    rw [looseAll]
    exact (looseAll_fits undone ns).or (looseOf_fits undone n)

end

theorem groupLoose_none {undone : Array Bool} {g : Nat} (h : undone.getD g true = true) :
    Machine.groupLoose undone g = .none := by
  funext k b
  simp [Machine.groupLoose, Stale.none, h]

mutual

/-- Nothing is loose off the one path. -/
theorem looseOf_none {undone : Array Bool} :
    ∀ {n : Node Measured}, Secure undone false n → looseOf undone n = .none
  | atom _ _, _ => by rw [looseOf]
  | repeated _ _ _ _, _ => by rw [looseOf]
  | group _ (.capture g _) body, h => by
    rw [Secure] at h
    rw [looseOf, looseOf_none h.2, groupLoose_none (h.1 rfl), Stale.or_none]
  | group _ .plain body, h => by
    rw [Secure] at h
    rw [looseOf, looseOf_none h]
  | group _ .atomic body, h => by
    rw [Secure] at h
    rw [looseOf, looseOf_none h]
  | group _ .absent _, _ => by rw [looseOf]
  | conditional _ _ _ _ _, _ => by rw [looseOf]
  | look _ k body, h => by
    rw [Secure, Bool.false_and] at h
    rw [looseOf, looseOf_none h, ite_self]
  | sequence _ items, h => by
    rw [Secure] at h
    rw [looseOf, looseAll_none h]
  | alternation _ _, _ => by rw [looseOf]

theorem looseAll_none {undone : Array Bool} :
    ∀ {ns : List (Node Measured)}, SecureAll undone false ns → looseAll undone ns = .none
  | [], _ => by rw [looseAll]
  | n :: ns, h => by
    rw [SecureAll] at h
    rw [looseAll, looseAll_none h.2, looseOf_none h.1, Stale.or_none]

end

/-! ## Trees off the path -/

theorem secureAll_iff {undone : Array Bool} {onPath : Bool} {ns : List (Node Measured)} :
    SecureAll undone onPath ns ↔ ∀ n ∈ ns, Secure undone onPath n := by
  induction ns with
  | nil => simp [SecureAll]
  | cons n ns ih => simp [SecureAll, ih]

/-- What is secure is made of parts that are, and what is off the path of parts off the path. -/
theorem Secure.child {undone : Array Bool} {onPath : Bool} {n c : Node Measured}
    (h : Secure undone onPath n) (hc : c ∈ n.children) :
    ∃ onPath', (onPath = false → onPath' = false) ∧ Secure undone onPath' c := by
  cases n with
  | atom => cases hc
  | group note kind body =>
    obtain rfl := List.mem_singleton.mp hc
    cases kind <;> rw [Secure] at h
    case capture => exact ⟨onPath, id, h.2⟩
    case absent => exact ⟨false, fun _ => rfl, h⟩
    all_goals exact ⟨onPath, id, h⟩
  | repeated note b mode body =>
    obtain rfl := List.mem_singleton.mp hc
    rw [Secure] at h
    exact ⟨false, fun _ => rfl, h⟩
  | look note k body =>
    obtain rfl := List.mem_singleton.mp hc
    rw [Secure] at h
    exact ⟨_, fun hpath => by rw [hpath, Bool.false_and], h⟩
  | conditional note t gs yes no =>
    rw [Secure] at h
    rcases List.mem_cons.mp hc with rfl | hc
    · exact ⟨false, fun _ => rfl, h.1⟩
    · cases no with
      | none => cases hc
      | some no =>
        obtain rfl := List.mem_singleton.mp hc
        rw [SecureOption] at h
        exact ⟨false, fun _ => rfl, h.2⟩
  | sequence note items =>
    rw [Secure] at h
    exact ⟨onPath, id, secureAll_iff.mp h c hc⟩
  | alternation note branches =>
    rw [Secure] at h
    exact ⟨false, fun _ => rfl, secureAll_iff.mp h c hc⟩

/-- Off the path all groups are restored. -/
theorem Secure.marked {undone : Array Bool} {n : Node Measured} (h : Secure undone false n) :
    ∀ g ∈ n.groupNumbers, undone.getD g true = true := by
  induction n using Node.induction with
  | step n ih =>
    intro g hg
    rw [groupNumbers_eq, List.mem_append] at hg
    rcases hg with hg | hg
    · obtain ⟨⟨g', body⟩, hcaptured, rfl⟩ := Option.map_eq_some_iff.mp (Option.mem_toList.mp hg)
      obtain ⟨note, name, rfl⟩ := captured?_some hcaptured
      rw [Secure] at h
      exact h.1 rfl
    · obtain ⟨c, hc, hg⟩ := List.mem_flatMap.mp hg
      obtain ⟨_, hpath, hchild⟩ := h.child hc
      obtain rfl := hpath rfl
      exact ih c hc hchild g hg

/-- A tree all groups of which are restored is secure wherever it stands. -/
theorem Secure.of_marked {undone : Array Bool} {onPath : Bool} {n : Node Measured}
    (h : ∀ g ∈ n.groupNumbers, undone.getD g true = true) : Secure undone onPath n := by
  induction n using Node.induction generalizing onPath with
  | step n ih =>
    have hchild : ∀ c ∈ n.children, ∀ b, Secure undone b c := fun c hc b =>
      ih c hc fun g hg => h g (groupNumbers_child hc g hg)
    cases n with
    | atom => rw [Secure]; trivial
    | group note kind body =>
      have hbody := hchild body (List.mem_singleton.mpr rfl)
      cases kind with
      | capture g name =>
        rw [Secure]
        exact ⟨fun _ => h g (by simp [groupNumbers_capture]), hbody _⟩
      | _ =>
        rw [Secure]
        exact hbody _
    | conditional note t gs yes no =>
      rw [Secure]
      refine ⟨hchild yes (by simp [children]) _, ?_⟩
      cases no with
      | none => rw [SecureOption]; trivial
      | some no =>
        rw [SecureOption]
        exact hchild no (by simp [children]) _
    | sequence | alternation =>
      rw [Secure]
      exact secureAll_iff.mpr fun c hc => hchild c hc _
    | _ =>
      rw [Secure]
      exact hchild _ (List.mem_singleton.mpr rfl) _

end Node

/-! ## What is marked -/

theorem getD_setIfInBounds {α : Type} (xs : Array α) (i j : Nat) (x d : α) :
    (xs.setIfInBounds i x).getD j d = if i = j ∧ i < xs.size then x else xs.getD j d := by
  simp only [Array.getD_eq_getD_getElem?, Array.getElem?_setIfInBounds]
  by_cases hij : i = j
  · subst hij
    by_cases hi : i < xs.size <;> simp [hi]
  · simp [hij]

/-- What is outside an array counts as marked. -/
theorem getD_marked (u : Array Bool) (g k : Nat) :
    (u.setIfInBounds g true).getD k true = (u.getD k true || k == g) := by
  rw [getD_setIfInBounds]
  by_cases hk : g = k
  · subst hk
    by_cases hg : g < u.size <;> simp [hg]
  · simp [hk, Ne.symm hk]

theorem getD_mark (undone : Array Bool) (g : Nat) :
    (undone.setIfInBounds g true).getD g true = true := by
  rw [getD_marked, beq_self_eq_true, Bool.or_true]

/-- Whatever is marked in one array is marked in the other. -/
def Marks (u v : Array Bool) : Prop := ∀ g, u.getD g true = true → v.getD g true = true

theorem Marks.refl (u : Array Bool) : Marks u u := fun _ h => h

theorem Marks.trans {u v w : Array Bool} (h : Marks u v) (h' : Marks v w) : Marks u w :=
  fun g hg => h' g (h g hg)

theorem marks_set (u : Array Bool) (g : Nat) : Marks u (u.setIfInBounds g true) := by
  intro k hk
  rw [getD_marked, hk, Bool.true_or]

theorem markUndone_group (g : CallGraph) (onPath : Bool) (u : Array Bool) {note : Measured}
    (kind : Grouping) (body : Node Measured) (hkind : ∀ k name, kind = .capture k name → False) :
    markUndone g onPath u (.group note kind body) =
      markUndone g (onPath && keepsPath (.group note kind body)) u body := by
  rw [markUndone]
  exact hkind

mutual

theorem markUndone_marks (g : CallGraph) (onPath : Bool) (u : Array Bool) :
    ∀ n : Node Measured, Marks u (markUndone g onPath u n)
  | .atom _ _ => by rw [markUndone]; exact .refl u
  | .repeated _ _ _ body => by rw [markUndone]; exact markUndone_marks g false u body
  | .group _ (.capture k _) body => by
    rw [markUndone]
    refine Marks.trans ?_ (markUndone_marks g _ _ body)
    split
    · exact .refl u
    · exact marks_set u k
  | .group _ .plain body => by
    rw [markUndone_group g onPath u .plain body nofun]
    exact markUndone_marks g _ u body
  | .group _ .atomic body => by
    rw [markUndone_group g onPath u .atomic body nofun]
    exact markUndone_marks g _ u body
  | .group _ .absent body => by
    rw [markUndone_group g onPath u .absent body nofun]
    exact markUndone_marks g _ u body
  | .conditional _ _ _ yes no => by
    rw [markUndone]
    exact (markUndone_marks g false u yes).trans (markUndoneOption_marks g _ no)
  | .look _ _ body => by rw [markUndone]; exact markUndone_marks g _ u body
  | .sequence _ items => by rw [markUndone]; exact markUndoneAll_marks g onPath u items
  | .alternation _ branches => by rw [markUndone]; exact markUndoneAll_marks g false u branches

theorem markUndoneOption_marks (g : CallGraph) (u : Array Bool) :
    ∀ no : Option (Node Measured), Marks u (markUndoneOption g u no)
  | none => by rw [markUndoneOption]; exact .refl u
  | some n => by rw [markUndoneOption]; exact markUndone_marks g false u n

theorem markUndoneAll_marks (g : CallGraph) (onPath : Bool) (u : Array Bool) :
    ∀ ns : List (Node Measured), Marks u (markUndoneAll g onPath u ns)
  | [] => by rw [markUndoneAll]; exact .refl u
  | n :: ns => by
    rw [markUndoneAll]
    exact (markUndone_marks g onPath u n).trans (markUndoneAll_marks g onPath _ ns)

end

/-- Every part of a tree is marked with the tree. What is not on the one path through the pattern has
no parts on it, and neither has a group that is called. -/
theorem markUndone_child (g : CallGraph) (onPath : Bool) (u : Array Bool) {n c : Node Measured}
    (hc : c ∈ n.children) : ∃ onPath' u', Marks (markUndone g onPath' u' c) (markUndone g onPath u n) ∧
      (onPath = false → onPath' = false) ∧
      ∀ k body, n.captured? = some (k, body) → g.isCalled k = true → onPath' = false := by
  have hall : ∀ (onPath' : Bool) (ns : List (Node Measured)) (u : Array Bool), c ∈ ns →
      ∃ u', Marks (markUndone g onPath' u' c) (markUndoneAll g onPath' u ns) := by
    intro onPath' ns
    induction ns with
    | nil => exact fun _ h => nomatch h
    | cons n ns ih =>
      intro u h
      rw [markUndoneAll]
      rcases List.mem_cons.mp h with rfl | h
      · exact ⟨u, markUndoneAll_marks g _ _ ns⟩
      · exact ih _ h
  cases n with
  | atom => cases hc
  | repeated note b mode body =>
    obtain rfl := List.mem_singleton.mp hc
    rw [markUndone]
    exact ⟨false, u, .refl _, fun _ => rfl, nofun⟩
  | group note kind body =>
    obtain rfl := List.mem_singleton.mp hc
    cases kind with
    | capture k name =>
      rw [markUndone]
      refine ⟨_, _, .refl _, fun h => by rw [h, Bool.false_and], fun k' body h hcalled => ?_⟩
      cases h
      rw [hcalled, Bool.not_true, Bool.and_false]
    | plain =>
      rw [markUndone_group g onPath u .plain _ nofun]
      exact ⟨_, u, .refl _, fun h => by rw [h, Bool.false_and], nofun⟩
    | atomic =>
      rw [markUndone_group g onPath u .atomic _ nofun]
      exact ⟨_, u, .refl _, fun h => by rw [h, Bool.false_and], nofun⟩
    | absent =>
      rw [markUndone_group g onPath u .absent _ nofun]
      exact ⟨_, u, .refl _, fun h => by rw [h, Bool.false_and], nofun⟩
  | conditional note t gs yes no =>
    rw [markUndone]
    rcases List.mem_cons.mp hc with rfl | hc
    · exact ⟨false, u, markUndoneOption_marks g _ no, fun _ => rfl, nofun⟩
    · cases no with
      | none => cases hc
      | some no =>
        obtain rfl := List.mem_singleton.mp hc
        rw [markUndoneOption]
        exact ⟨false, _, .refl _, fun _ => rfl, nofun⟩
  | look note k body =>
    obtain rfl := List.mem_singleton.mp hc
    rw [markUndone]
    exact ⟨_, u, .refl _, fun h => by rw [h, Bool.false_and], nofun⟩
  | sequence note items =>
    rw [markUndone]
    obtain ⟨u', hu⟩ := hall onPath items u hc
    exact ⟨onPath, u', hu, id, nofun⟩
  | alternation note branches =>
    rw [markUndone]
    obtain ⟨u', hu⟩ := hall false branches u hc
    exact ⟨false, u', hu, fun _ => rfl, nofun⟩

theorem markUndone_subtree (g : CallGraph) {n : Node Measured} (onPath : Bool) (u : Array Bool)
    {m : Node Measured} (hm : m ∈ n.subtrees) :
    ∃ onPath' u', Marks (markUndone g onPath' u' m) (markUndone g onPath u n) ∧
      (onPath = false → onPath' = false) := by
  induction n using Node.induction generalizing onPath u with
  | step n ih =>
    rcases Node.mem_subtrees.mp hm with rfl | ⟨c, hc, hm⟩
    · exact ⟨onPath, u, .refl _, id⟩
    · obtain ⟨onPath₁, u₁, hmarks₁, hpath₁, -⟩ := markUndone_child g onPath u hc
      obtain ⟨onPath₂, u₂, hmarks₂, hpath₂⟩ := ih c hc onPath₁ u₁ hm
      exact ⟨onPath₂, u₂, hmarks₂.trans hmarks₁, fun h => hpath₂ (hpath₁ h)⟩

/-- A group that is called, or lies off the one path, is marked. -/
theorem markUndone_captured {g : CallGraph} {onPath : Bool} (u : Array Bool) {m body : Node Measured}
    {k : Nat} (hm : m.captured? = some (k, body)) (h : onPath = false ∨ g.isCalled k = true) :
    (markUndone g onPath u m).getD k true = true := by
  obtain ⟨note, name, rfl⟩ : ∃ note name, m = .group note (.capture k name) body := by
    unfold Node.captured? at hm
    split at hm
    · cases hm
      exact ⟨_, _, rfl⟩
    · cases hm
  rw [markUndone]
  refine markUndone_marks g _ _ body k ?_
  rw [if_neg]
  · exact getD_mark u k
  · rcases h with h | h <;> simp [h]

/-- Off the one path all groups are marked. -/
theorem markUndone_groups {g : CallGraph} (u : Array Bool) {n : Node Measured} {k : Nat}
    (hk : k ∈ n.groupNumbers) : (markUndone g false u n).getD k true = true := by
  obtain ⟨m, hm, body, hcaptured⟩ := Node.exists_captured hk
  obtain ⟨onPath, u', hmarks, hpath⟩ := markUndone_subtree g false u hm
  exact hmarks k (markUndone_captured u' hcaptured (Or.inl (hpath rfl)))

open Node

mutual

/-- Marking a tree secures it, whatever else is marked. -/
theorem markUndone_secures {g : CallGraph} {v : Array Bool}
    (onPath : Bool) (u : Array Bool) :
    ∀ n : Node Measured, Marks (markUndone g onPath u n) v → Secure v onPath n
  | .atom _ _, _ => by rw [Secure]; trivial
  | .repeated _ _ _ body, h => by
    rw [markUndone] at h
    rw [Secure]
    exact markUndone_secures false u body h
  | .group _ (.capture k _) body, h => by
    rw [markUndone] at h
    rw [Secure]
    refine ⟨fun hpath => ?_, ?_⟩
    · subst hpath
      exact h k (markUndone_marks g _ _ body k (getD_mark u k))
    · cases hcalled : g.isCalled k with
      | false => simpa [hcalled] using markUndone_secures _ _ body h
      | true =>
        rw [hcalled, Bool.not_true, Bool.and_false] at h
        exact .of_marked (markUndone_secures false _ body h).marked
  | .group _ .plain body, h => by
    rw [markUndone_group g onPath u .plain body nofun] at h
    rw [Secure]
    simpa [keepsPath] using markUndone_secures _ u body h
  | .group _ .atomic body, h => by
    rw [markUndone_group g onPath u .atomic body nofun] at h
    rw [Secure]
    simpa [keepsPath] using markUndone_secures _ u body h
  | .group _ .absent body, h => by
    rw [markUndone_group g onPath u .absent body nofun] at h
    rw [Secure]
    simpa [keepsPath] using markUndone_secures _ u body h
  | .conditional _ _ _ yes no, h => by
    rw [markUndone] at h
    rw [Secure]
    exact ⟨markUndone_secures false u yes ((markUndoneOption_marks g _ no).trans h),
      markUndoneOption_secures _ no h⟩
  | .look _ k body, h => by
    rw [markUndone] at h
    rw [Secure, Bool.not_or]
    simpa [keepsPath] using markUndone_secures _ u body h
  | .sequence _ items, h => by
    rw [markUndone] at h
    rw [Secure]
    exact markUndoneAll_secures onPath u items h
  | .alternation _ branches, h => by
    rw [markUndone] at h
    rw [Secure]
    exact markUndoneAll_secures false u branches h

theorem markUndoneOption_secures {g : CallGraph} {v : Array Bool} (u : Array Bool) :
    ∀ no : Option (Node Measured), Marks (markUndoneOption g u no) v → SecureOption v no
  | none, _ => by rw [SecureOption]; trivial
  | some n, h => by
    rw [markUndoneOption] at h
    rw [SecureOption]
    exact markUndone_secures false u n h

theorem markUndoneAll_secures {g : CallGraph} {v : Array Bool}
    (onPath : Bool) (u : Array Bool) :
    ∀ ns : List (Node Measured), Marks (markUndoneAll g onPath u ns) v → SecureAll v onPath ns
  | [], _ => by rw [SecureAll]; trivial
  | n :: ns, h => by
    rw [markUndoneAll] at h
    rw [SecureAll]
    exact ⟨markUndone_secures onPath u n ((markUndoneAll_marks g onPath _ ns).trans h),
      markUndoneAll_secures onPath _ ns h⟩

end

end RegexMachine
