import RegexMachine.Proofs.Histories
import RegexMachine.Proofs.Reuse
import RegexMachine.Proofs.Selections

/-!
What a search reports. A region that is found is that of a state at the end of the program, also where
the longest match is looked for and the region has been kept since. So all its spans lie in the subject,
and its histories hold what groups have completed on the path to that state.
-/
namespace RegexMachine
open Compile Machine

/-! ## Regions -/

namespace Region

/-- Spans are put in the lists of their groups, each before those that are there. -/
theorem getElem?_sorted (h : History) (lists : Array (List Span)) (g : Nat) :
    (h.foldl (fun lists e => lists.modify e.1 (e.2 :: ·)) lists)[g]? =
      (lists[g]?).map (((h.filter (·.1 == g)).map Prod.snd).reverse ++ ·) := by
  induction h generalizing lists with
  | nil => simp
  | cons e h ih =>
    rw [List.foldl_cons, ih, Array.getElem?_modify, List.filter_cons]
    by_cases he : e.1 = g <;> simp [he, Function.comp_def]

/-- A history is sorted by groups, the first span of each one first. -/
theorem getElem?_historyOf (groups : Nat) (whole : Span) (h : History) {g : Nat} (hg : g < groups) :
    (historyOf groups whole h)[g]? =
      some (if g = 0 then [whole] else ((h.filter (·.1 == g)).map Prod.snd).reverse) := by
  let sorted := h.foldl (fun lists e => lists.modify e.1 (e.2 :: ·)) (Array.replicate groups [])
  have hsorted : sorted[g]? = some ((h.filter (·.1 == g)).map Prod.snd).reverse := by
    rw [getElem?_sorted, Array.getElem?_replicate, if_pos hg]
    simp
  change (sorted.setIfInBounds 0 [whole])[g]? = _
  by_cases h0 : g = 0
  · subst h0
    rw [Array.getElem?_setIfInBounds_self_of_lt (Array.getElem?_eq_some_iff.mp hsorted).1, if_pos rfl]
  · rw [Array.getElem?_setIfInBounds_ne fun h => h0 h.symm, if_neg h0, hsorted]

variable {c : Captures} {whole : Span} {keep : Bool} {g : Nat}

theorem size_ofCaptures : (ofCaptures c whole keep).size = c.slots.size := by
  simp [size, ofCaptures]

theorem span?_ofCaptures (hc : 0 < c.slots.size) :
    (ofCaptures c whole keep).span? g = if g = 0 then some whole else c.span? g := by
  by_cases h0 : g = 0
  · subst h0
    simp [span?, ofCaptures, hc]
  · rw [span?, ofCaptures, Array.getElem?_setIfInBounds_ne fun h => h0 h.symm, if_neg h0,
      Array.getElem?_map, Captures.span?, Captures.slot?]
    cases c.slots[g]? <;> rfl

theorem history?_ofCaptures (hg : g < c.slots.size) :
    (ofCaptures c whole true).history? g =
      some (if g = 0 then [whole] else ((c.history.filter (·.1 == g)).map Prod.snd).reverse) :=
  getElem?_historyOf _ _ _ hg

/-- A region of a program whose spans lie in a subject of this size. -/
structure Sound (p : Program) (size : Nat) (r : Region) : Prop where
  slots : r.size = p.tables.captures + 1
  whole : (r.span? 0).isSome
  spans : ∀ g s, r.span? g = some s → s.start ≤ s.stop ∧ s.stop ≤ size

/-- A region with histories that hold the spans on a path in order. The last one in the history of a
group is the span of the group, and there is none if and only if the group has no span. -/
structure Recounts (p : Program) (path : List Completion) (r : Region) : Prop where
  whole : ∀ s, r.span? 0 = some s → r.history? 0 = some [s]
  groups : ∀ g, 0 < g → g ≤ p.tables.captures →
    r.history? g = some ((path.filter (·.group == g)).map Completion.span)
  last : ∀ g ≤ p.tables.captures, ∃ spans, r.history? g = some spans ∧
    spans.getLast? = r.span? g ∧ (spans = [] ↔ r.span? g = none)

end Region

namespace Captures.Tells
variable {c : Captures} {path : List Completion}

/-- What a history of a path holds of a group, the first span first. -/
theorem filter_eq (h : c.Tells (path.map Completion.entry).reverse) (g : Nat) :
    ((c.history.filter (·.1 == g)).map Prod.snd).reverse =
      (path.filter (·.group == g)).map Completion.span := by
  rw [h.history, List.filter_reverse, List.map_reverse, List.reverse_reverse, List.filter_map,
    List.map_map]
  rfl

/-- The last span of a group is the first one that is found. -/
theorem span_eq (h : c.Tells (path.map Completion.entry).reverse) (g : Nat) :
    c.span? g = ((path.filter (·.group == g)).map Completion.span).getLast? := by
  rw [h.span g, ← List.head?_filter, ← h.history, ← h.filter_eq, List.getLast?_reverse,
    List.head?_map]

end Captures.Tells

namespace Machine
variable {p : Program} {e : Setting} {u : State} {path : List Completion} {size : Nat}

/-- Where nothing lies outside the subject the region that is reported does not. -/
theorem region_sound (hfits : u.regs.Fits p) (hu : u.view.Within size) : (u.region e).Sound p size := by
  have hslots := hfits.slots
  refine ⟨Region.size_ofCaptures.trans hslots, ?_, fun g s hs => ?_⟩
  · rw [State.region, Region.span?_ofCaptures (by omega)]
    rfl
  · rw [State.region, Region.span?_ofCaptures (by omega)] at hs
    split at hs
    · cases hs
      exact ⟨Nat.min_le_right _ _, hu.pos⟩
    · obtain ⟨hordered, hle⟩ := hu.captures g s hs
      exact ⟨hordered, hle⟩

/-- Where the captures tell what is on the path the histories that are reported do. -/
theorem region_recounts (hfits : u.regs.Fits p) (hhistory : e.program.has .captureHistory = true)
    (htold : Told p path u.view) : (u.region e).Recounts p path := by
  have hslots := hfits.slots
  have htells : u.regs.captures.Tells (path.map Completion.entry).reverse := by
    have := htold.tells [] u.view.frames rfl
    rwa [past_of_below htold.below] at this
  have hspan : ∀ g, (u.region e).span? g =
      if g = 0 then some ⟨u.matchStart, u.pos⟩ else u.regs.captures.span? g := fun g =>
    Region.span?_ofCaptures (by omega)
  have hkept : ∀ g ≤ p.tables.captures, (u.region e).history? g =
      some (if g = 0 then [⟨u.matchStart, u.pos⟩]
        else (path.filter (·.group == g)).map Completion.span) := by
    intro g hg
    rw [State.region, hhistory, Region.history?_ofCaptures (by omega), htells.filter_eq]
  refine ⟨fun s hs => ?_, fun g h0 hg => ?_, fun g hg => ⟨_, hkept g hg, ?_⟩⟩
  · rw [hspan, if_pos rfl] at hs
    cases hs
    rw [hkept 0 (Nat.zero_le _), if_pos rfl]
  · rw [hkept g hg, if_neg (Nat.ne_of_gt h0)]
  · rw [hspan]
    split
    · simp
    · rw [htells.span_eq]
      exact ⟨rfl, List.getLast?_eq_none_iff.symm⟩

end Machine

/-! ## What is collected -/

namespace Machine

/-- An action that comes to no match, and collects none. -/
def Passive {α : Type} (best : Option (Nat × Region)) (x : Run α) : Prop :=
  Maintains (·.best = best) (fun k t => t.best = best ∧ k ≠ .accepted) x

section
variable {e : Setting} {s t : State} {best : Option (Nat × Region)}

theorem best_emit (s : State) (e : Setting) (ev : Event) : (s.emit e ev).best = s.best :=
  congrArg Core.best (core_emit s e ev)

theorem passive_halt {α : Type} {k : Halt} (h : k ≠ .accepted) : Passive best (halt k : Run α) :=
  maintains_halt fun _ hs => ⟨hs, h⟩

theorem passive_modify {f : State → State} (h : ∀ s, (f s).best = s.best) :
    Passive best (modify f) := maintains_modify fun s hs => (h s).trans hs

theorem passive_countRetry : Passive best (countRetry e) := by
  refine Maintains.bind (fun _ hs => hs) fun t => ?_
  dsimp only
  split
  · exact passive_halt nofun
  · split
    · exact passive_halt nofun
    · split
      · refine Maintains.bind (passive_modify ?_) fun _ => ?_
        · exact fun _ => rfl
        · split
          · exact passive_halt nofun
          · exact maintains_pure _
      · exact maintains_pure _

theorem pervades_passive (best : Option (Nat × Region)) :
    Pervades e fun {α} => Passive (α := α) best where
  pure := maintains_pure
  bind := .bind
  halt _ := passive_halt
  get _ := maintains_get
  modify hf := passive_modify fun s => (hf s).1
  emit ev _ := passive_modify fun s => best_emit s e ev
  push _ := maintains_push (fun _ _ hs => ⟨hs, nofun⟩) fun _ hs => hs
  resume _ _ _ := by
    refine Maintains.bind (passive_modify ?_) fun _ =>
      Maintains.bind (passive_modify ?_) fun _ => passive_countRetry
    · exact fun _ => rfl
    · exact fun s => best_emit s e _
  detach h s := h s.stack { s with stack := .empty }

/-- A step comes to a match, or collects one, at the end of the program only. -/
theorem passive_step (r : Runner)
    (hi : ∀ i, e.program.code[s.ip]? = some i → i ≠ .accept ∧ i ≠ .absentEnd) :
    Holds (·.best = s.best) (fun k t => t.best = s.best ∧ k ≠ .accepted) (step r e s) := by
  cases hcode : e.program.code[s.ip]? with
  | none =>
    simp only [step, bind_get, hcode]
    exact ⟨rfl, by rintro ⟨⟩⟩
  | some i =>
    obtain ⟨hne, hne'⟩ := hi i hcode
    have hbest : (s.fetched e i).best = s.best := congrArg Core.best (core_fetched s e i)
    rw [step_fetched _ _ _ _ hcode, ← hbest]
    have law := pervades_passive (e := e) (s.fetched e i).best
    refine pervades_exec law (fun body => ?_) hne hne' _ rfl
    exact maintains_takeAbsent law fun _ _ herror _ ht => ⟨ht, (absentEnd_error herror).1⟩

/-- The region of a state may have been collected. -/
def Adds (e : Setting) (s t : State) : Prop := t.best = s.best ∨ ∃ n, t.best = some (n, s.region e)

/-- It may also be the one of the match at which the run has ended. -/
def Gains (e : Setting) (s : State) : EStateM.Result Halt State Unit → Prop
  | .ok _ t => Adds e s t
  | .error h t => Adds e s t ∧ (h = .accepted → t.region e = s.region e)

theorem Passive.gains {u : State} {x : Run Unit} (h : Passive u.best x) (hu : Adds e s u) :
    Gains e s (x u) := by
  have hx := h u rfl
  cases h : x u with
  | ok _ t =>
    rw [h] at hx
    exact hu.imp hx.trans fun ⟨n, hn⟩ => ⟨n, hx.trans hn⟩
  | error k t =>
    rw [h] at hx
    exact ⟨hu.imp hx.1.trans fun ⟨n, hn⟩ => ⟨n, hx.1.trans hn⟩, fun hk => absurd hk hx.2⟩

/-- At the end of the program no other region is added. -/
theorem accept_gains (e : Setting) (s : State) : Gains e s (accept e s) := by
  have hback : ∀ u : State, Adds e s u → Gains e s (backtrack e u) := fun u =>
    Passive.gains (pervades_backtrack (pervades_passive u.best))
  cases hpass : e.options.has .findNotEmpty && s.matchStart == s.pos with
  | true =>
    have hrefused : accept e s = backtrack e s := by
      simp only [accept, bind_get, hpass, ↓reduceIte]
    rw [hrefused]
    exact hback s (Or.inl rfl)
  | false =>
    cases hlongest : e.options.has .findLongest with
    | false =>
      rw [accept_taken hpass hlongest]
      exact ⟨Or.inl (best_emit ..), fun _ => (accept_eq e (core_emit s e _)).2.2.1⟩
    | true =>
      by_cases hstart : s.pos < s.start
      · rw [accept_reversed hpass hlongest hstart]
        exact ⟨Or.inl rfl, by rintro ⟨⟩⟩
      · obtain ⟨t, ht, haccept⟩ := accept_collects hpass hlongest hstart
        rw [haccept]
        have hbest : t.best = longer s.best (some (s.pos - s.start, s.region e)) :=
          congrArg Core.best ht
        refine hback t ?_
        rw [longer] at hbest
        split at hbest
        · exact Or.inr ⟨_, hbest⟩
        · exact Or.inl hbest

end

/-! ## What is found -/

/-- The region of a state at the end of the program that an attempt inside the subject comes to. -/
def Accepts (e : Setting) (r : Region) : Prop :=
  ∃ st pos u path, pos ≤ e.subject.size ∧ Survives e st pos u path ∧
    e.program.code[u.ip]? = some .accept ∧ u.region e = r

section
variable {p : Program} {l : Layout} {root : Node Measured} {scale : Scale} {strict : Prop}
  {e : Setting} {st s t : State} {pos clock : Nat} {path : List Completion}

/-- Whatever has been collected is what an attempt has come to. -/
def Collected (e : Setting) (s : State) : Prop := ∀ b, s.best = some b → Accepts e b.2

theorem Collected.of_none (h : s.best = none) : Collected e s := fun b hb => by
  rw [h] at hb
  cases hb

theorem Collected.of_best (h : Collected e s) (hb : t.best = s.best) : Collected e t :=
  fun b ht => h b (hb ▸ ht)

/-- A run that an attempt has come to collects what the attempt comes to, and ends with it. -/
theorem run_collects (hp : Orderly p l root scale strict) (he : e.program = p)
    (hpos : pos ≤ e.subject.size) (n : Nat) (h : Survives e st pos s path) (hs : Collected e s) :
    Collected e (run n e s).2 ∧ ((run n e s).1 = .accepted → Accepts e ((run n e s).2.region e)) := by
  induction n generalizing s path with
  | zero => exact ⟨hs, nofun⟩
  | succ n ih =>
    rw [run_succ]
    by_cases hi : e.program.code[s.ip]? = some .accept
    · have hfetched : (s.fetched e .accept).core = s.core := core_fetched ..
      have hbest : (s.fetched e .accept).best = s.best := congrArg Core.best hfetched
      have hregion : (s.fetched e .accept).region e = s.region e := (accept_eq e hfetched).2.2.1
      have hcollects : ∀ t, Adds e (s.fetched e .accept) t → Collected e t := by
        rintro t (ht | ⟨n, ht⟩)
        · exact hs.of_best (ht.trans hbest)
        · intro b hb
          cases hb.symm.trans ht
          exact ⟨st, pos, s, path, hpos, h, hi, hregion.symm⟩
      have hstep : step (inner n) e s = accept e (s.fetched e .accept) := step_fetched _ _ _ _ hi
      have haccept := accept_gains e (s.fetched e .accept)
      rw [← hstep] at haccept
      cases hx : step (inner n) e s with
      | ok _ t =>
        rw [hx] at haccept
        exact ih (h.step n hx) (hcollects t haccept)
      | error k t =>
        rw [hx] at haccept
        exact ⟨hcollects t haccept.1, fun hk =>
          ⟨st, pos, s, path, hpos, h, hi, hregion.symm.trans (haccept.2 hk).symm⟩⟩
    · have hkeeps := passive_step (inner n) (h.attemptAt.passing hp he hi)
      cases hx : step (inner n) e s with
      | ok _ t =>
        rw [hx] at hkeeps
        exact ih (h.step n hx) (hs.of_best hkeeps)
      | error k t =>
        rw [hx] at hkeeps
        exact ⟨hs.of_best hkeeps.1, fun hk => absurd hk hkeeps.2⟩

/-- What an attempt finds is what it has come to, and so is what it collects. -/
theorem tryAt_collects (hp : Orderly p l root scale strict) (he : e.program = p)
    (hpos : pos ≤ e.subject.size) (hs : Collected e s) {o : Option SearchOutcome}
    (h : tryAt clock e pos s = .ok o t) :
    Collected e t ∧ ∀ r, o = some (.found r) → Accepts e r := by
  cases hsignal : e.signal s.tally.begun with
  | true =>
    rw [tryAt_signal hsignal] at h
    cases h
    exact ⟨hs, by simp⟩
  | false =>
    have hbegin : Collected e ((s.enter e 0 pos).emit e (.start pos)) := hs.of_best (best_emit ..)
    have hrun := run_collects hp he hpos clock .begin hbegin
    rw [tryAt_eq hsignal, attempt] at h
    generalize run clock e ((s.enter e 0 pos).emit e (.start pos)) = x at h hrun
    obtain ⟨k, u⟩ := x
    obtain ⟨hcollected, haccepts⟩ := hrun
    cases k with
    | accepted =>
      cases h
      exact ⟨hcollected, fun r hr => by cases hr; exact haccepts rfl⟩
    | exhausted =>
      cases h
      exact ⟨hcollected.of_best (best_emit ..), by simp⟩
    | interrupted =>
      cases h
      exact ⟨hcollected, by simp⟩
    | _ => cases h

/-- What attempts find one after another is what one of them has come to. -/
theorem tryAll_accepts (hp : Orderly p l root scale strict) (he : e.program = p) {ps : List Nat}
    (hps : ∀ q ∈ ps, q ≤ e.subject.size) (hs : Collected e s) {r : Region}
    (h : answer (tryAll clock e ps s) = .ok (.found r)) : Accepts e r := by
  induction ps generalizing s with
  | nil =>
    change Except.ok ((s.best.map fun b => SearchOutcome.found b.2).getD .notFound) = _ at h
    cases hb : s.best with
    | none =>
      rw [hb] at h
      cases h
    | some b =>
      rw [hb] at h
      cases h
      exact hs b hb
  | cons q ps ih =>
    obtain ⟨hq, hps⟩ := List.forall_mem_cons.mp hps
    rw [tryAll] at h
    cases htry : tryAt clock e q s with
    | ok o t =>
      obtain ⟨hcollected, hfound⟩ := tryAt_collects hp he hq hs htry
      cases o with
      | some o =>
        rw [orElse_some htry] at h
        cases h
        exact hfound r rfl
      | none =>
        rw [orElse_none htry] at h
        exact ih hps hcollected h
    | error k t =>
      rw [orElse_error htry] at h
      cases h

/-! ## Starts -/

theorem forwardStarts_le (e : Setting) {last pos q : Nat} (hq : q ∈ forwardStarts e last pos) :
    q ≤ last := by
  induction hn : last + 1 - pos using Nat.strongRecOn generalizing pos with
  | _ n ih =>
    have hnext : ∀ c, pos ≤ c → c ≤ last → q ∈ forwardStarts e last (e.subject.next c) → q ≤ last := by
      intro c hc hlast hq
      have := e.subject.lt_next c
      exact ih _ (by omega) hq rfl
    rw [forwardStarts] at hq
    split at hq
    · cases hq
    · split at hq
      · cases hq
      · split at hq
        · cases hq
        · split at hq
          · exact hnext pos (Nat.le_refl _) (by omega) hq
          · rcases List.mem_cons.mp hq with rfl | hq
            · omega
            · split at hq
              · cases hq
              · exact hnext _ (by omega) (by omega) hq

theorem backwardStarts_le (e : Setting) {first pos q : Nat} (hq : q ∈ backwardStarts e first pos) :
    q ≤ pos := by
  induction pos using Nat.strongRecOn with
  | _ pos ih =>
    rw [backwardStarts] at hq
    split at hq
    · cases hq
    · rcases List.mem_append.mp hq with hq | hq
      · split at hq
        · exact Nat.le_of_eq (List.mem_singleton.mp hq)
        · cases hq
      · split at hq
        · cases hq
        · rename_i y hy
          have hlt := Subject.prev?_lt hy
          exact Nat.le_trans (ih y hlt hq) (Nat.le_of_lt hlt)

end

end Machine

namespace Program

/-- With a history all groups are restored. -/
theorem restores_of_history {p : Program} {setting : Pattern.Setting} {o : Options}
    {t : PatternTree Span} {a : Analyzed}
    (h : (Compilation.ofTree setting o t).1 = .ok p)
    (ha : Analyzed.ofTree setting.dialect setting.encoding t = .ok a)
    (hhistory : p.tables.options.has .captureHistory = true) : ∀ g, p.Restores g := by
  intro g
  obtain ⟨i, i', htidy, -⟩ := Compilation.ofTree_tidy h ha
  refine htidy.restores ?_
  by_contra hnot
  have hnone := undoneGroups_history (Bool.not_eq_true _ ▸ hnot)
  rw [(Compilation.ofTree_tables h ha).2.1, hnone] at hhistory
  cases hhistory

end Program

namespace Matcher

/-- What a matcher is set to when it is asked. -/
def asking (m : Matcher) : Query → Setting
  | .search start _ o w _ => m.setting start o w
  | .matchAt pos o w => m.setting pos o w

variable {m : Matcher}

theorem tries_le {start range : Nat} {o : SearchOptions} {w : Watch} {q : Nat}
    (h : q ∈ m.tries start range o w) : q ≤ (m.setting start o w).subject.size := by
  unfold tries at h
  dsimp only at h
  split at h
  · cases h
  · split at h
    · split at h
      · cases h
      · rename_i last hlast
        exact Nat.le_trans (forwardStarts_le _ h) (lastStart?_le hlast)
    · exact Nat.le_trans (backwardStarts_le _ h) (Subject.leftAdjust_le_size _ _)

/-- Whatever a matcher finds an attempt has come to. -/
theorem ask_accepts {l : Layout} {root : Node Measured} {scale : Scale} {strict : Prop}
    (hp : Orderly m.program l root scale strict) {q : Query} {r : Region}
    (h : (m.ask q).result = .ok (.found r)) : Accepts (m.asking q) r := by
  cases q with
  | search start range o w clock =>
    by_cases hin : (m.subject.size < start || m.subject.size < range) = true
    · rw [ask, searchWith, if_pos hin] at h
      cases h
    · rw [ask, searchWith_result m o w clock hin, search_tryAll clock hin rfl] at h
      exact tryAll_accepts (e := m.setting start o w) hp rfl (fun _ => tries_le) (.of_none rfl) h
  | matchAt pos o w =>
    simp only [ask, matchAt] at h
    split at h
    · cases h
    · rename_i hin
      rw [runSearch_result] at h
      have hle : pos ≤ (m.setting pos o w).subject.size := Nat.le_of_not_lt hin
      have hpos : ∀ q ∈ [pos], q ≤ (m.setting pos o w).subject.size := fun q hq => by
        rwa [List.mem_singleton.mp hq]
      exact tryAll_accepts (e := m.setting pos o w) hp rfl hpos (.of_none rfl) h

/-- Every region that a matcher finds for a compiled pattern is that of an attempt at the end of the
program. It has a slot for each group and one for the whole match, which is set, and whatever is set
is a span inside the subject. With histories that of the whole match is its span, that of a group
holds the spans that the group has completed on the path that survives, in order, and the last of
these is the one in the slot. -/
theorem ask_sound {setting : Pattern.Setting} {options : Options} {properties : PropertyRegistry}
    {p : Program} (hprogram : (Compilation.ofPattern setting options properties).result = .ok p)
    (m : Matcher) (hm : m.program = p) (q : Query) {r : Region} (h : (m.ask q).result = .ok (.found r)) :
    r.Sound p m.subject.size ∧
      ∃ st pos u path, Survives (m.asking q) st pos u path ∧ p.code[u.ip]? = some .accept ∧
        u.region (m.asking q) = r ∧
        (p.tables.options.has .captureHistory = true → r.Recounts p path) := by
  subst hm
  obtain ⟨o, t, -, hparse, htree⟩ := Compilation.ofPattern_ok hprogram
  obtain ⟨a, scale, ha, horderly, -⟩ := Compilation.ofTree_orderly htree
    (Pattern.parse_groupNumbers hparse) (Pattern.parse_separate hparse) (Pattern.parse_ordered hparse)
  obtain ⟨st, pos, u, path, hpos, hu, hi, rfl⟩ := ask_accepts horderly h
  have hprogram : (m.asking q).program = m.program := by cases q <;> rfl
  have hsize : (m.asking q).subject.size = m.subject.size := by cases q <;> rfl
  have hcompiled := horderly.compiled
  have hfits := (hu.attemptAt.visited hprogram).fits hcompiled
  rw [hprogram] at hfits hi
  have hwithin := hu.attemptAt.within hcompiled hprogram hpos
  rw [hsize] at hwithin
  refine ⟨region_sound hfits.regs hwithin, st, pos, u, path, hu, hi, rfl, fun hoption => ?_⟩
  have hhistory : m.program.has .captureHistory = true := hcompiled.records.trans hoption
  have hall := Program.restores_of_history htree ha hoption
  exact region_recounts hfits.regs (hprogram ▸ hhistory) (hu.told hcompiled hprogram hall hhistory)

end Matcher

/-- The pattern `(?:(a)|b)*ab`. -/
def recording : Pattern.Setting :=
  ⟨#[40, 63, 58, 40, 97, 41, 124, 98, 41, 42, 97, 98], .native, .ascii, .standard⟩

def recordingOptions : Options := FlagSet.ofList [.captureHistory]

theorem recording_compiles :
    (Compilation.ofPattern recording recordingOptions .empty).result.toOption.isSome = true := by
  decide +kernel

/-- Its program with histories. -/
def recordingProgram : Program :=
  (Compilation.ofPattern recording recordingOptions .empty).result.toOption.get recording_compiles

/-- It is to be run on the text `aaab`. -/
def recordingMatcher : Matcher := .new recordingProgram #[97, 97, 97, 98] ⟨0, 0, 1024, 0, 16384⟩

/-- A match of the whole text, in which the group has matched the first `a` and then the second. -/
def recordedRegion : Region := ⟨#[some ⟨0, 4⟩, some ⟨1, 2⟩], some #[[⟨0, 4⟩], [⟨0, 1⟩, ⟨1, 2⟩]]⟩

/-- The group has completed the third `a` too, on a path that is given up since `ab` must follow. -/
theorem ask_recording :
    (recordingMatcher.ask (.search 0 4 .empty .none 60)).result = .ok (.found recordedRegion) ∧
      recordedRegion.Sound recordingProgram 4 ∧
      ∃ st pos u path, Survives (recordingMatcher.setting 0 .empty .none) st pos u path ∧
        recordingProgram.code[u.ip]? = some .accept ∧
        u.region (recordingMatcher.setting 0 .empty .none) = recordedRegion ∧
        recordedRegion.Recounts recordingProgram path := by
  have hprogram : (Compilation.ofPattern recording recordingOptions .empty).result =
      .ok recordingProgram := ok_of_isSome recording_compiles
  have hmatcher : recordingMatcher.program = recordingProgram := by
    unfold recordingMatcher Matcher.new
    with_reducible rfl
  have hfound : (recordingMatcher.ask (.search 0 4 .empty .none 60)).result =
      .ok (.found recordedRegion) := by decide +kernel
  have hoption : recordingProgram.tables.options.has .captureHistory = true := by decide +kernel
  obtain ⟨hsound, st, pos, u, path, hu, hi, hregion, hrecounts⟩ :=
    Matcher.ask_sound hprogram recordingMatcher hmatcher (.search 0 4 .empty .none 60) hfound
  exact ⟨hfound, hsound, st, pos, u, path, hu, hi, hregion, hrecounts hoption⟩

end RegexMachine
