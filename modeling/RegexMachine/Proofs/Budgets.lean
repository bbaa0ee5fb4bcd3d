import RegexMachine.Proofs.Reports

/-!
Budgets. What a search counts is what its events tell: the instructions that it begins, and the
alternatives that it resumes in each of its attempts. So the limits are bounds on what can be read
off the events, and an interrupt flag that has been set is read in time. Runs inside a step count for
themselves only, and are recorded nowhere.
-/
namespace RegexMachine
open Machine

/-- A flag that is never taken back. -/
def Signal.Stays (flag : Signal) : Prop := ∀ i j, i ≤ j → flag i = true → flag j = true

/-! ## Accounts -/

namespace Machine

/-- What events tell of the work of a search. -/
structure Account where
  /-- Instructions begun. -/
  begun : Nat
  /-- For each attempt, the last one first, how many instructions had begun when it resumed each of
  its alternatives, the last one first. -/
  attempts : List (List Nat)
deriving DecidableEq, Repr

namespace Account

def add (a : Account) : Event → Account
  | .start _ => ⟨a.begun, [] :: a.attempts⟩
  | .instruction _ _ _ => ⟨a.begun + 1, a.attempts⟩
  | .backtrack _ _ => ⟨a.begun, a.attempts.modifyHead (a.begun :: ·)⟩
  | _ => a

def ofEvents (events : Array Event) : Account := events.toList.foldl add ⟨0, []⟩

/-- All alternatives that were resumed. -/
def resumed (a : Account) : List Nat := a.attempts.flatten

/-- How many of them were resumed when an interrupt flag was set. -/
def flagged (a : Account) (flag : Signal) : Nat := a.resumed.countP flag

theorem ofEvents_push (events : Array Event) (ev : Event) :
    ofEvents (events.push ev) = (ofEvents events).add ev := by
  rw [ofEvents, Array.toList_push, List.foldl_append]
  rfl

theorem add_of_not_work (a : Account) {ev : Event} (h : ev.isWork = false) : a.add ev = a := by
  cases ev <;> first | rfl | cases h

/-- Whatever was resumed was resumed when no more instructions had begun than now. -/
def Past (a : Account) : Prop := ∀ n ∈ a.resumed, n ≤ a.begun

theorem Past.add {a : Account} (h : a.Past) (ev : Event) : (a.add ev).Past := by
  obtain ⟨begun, attempts⟩ := a
  cases ev with
  | instruction => exact fun n hn => Nat.le_succ_of_le (h n hn)
  | backtrack =>
    cases attempts with
    | nil => exact h
    | cons now earlier =>
      intro n hn
      rcases List.mem_cons.mp hn with rfl | hn
      · exact Nat.le_refl _
      · exact h n hn
  | _ => exact h

theorem past_ofEvents (events : Array Event) : (ofEvents events).Past := by
  have hfold : ∀ (l : List Event) (a : Account), a.Past → (l.foldl Account.add a).Past := by
    intro l
    induction l with
    | nil => exact fun _ h => h
    | cons ev l ih => exact fun a h => ih _ (h.add ev)
  exact hfold _ _ nofun

theorem flagged_backtrack (a : Account) (flag : Signal) (ip : Addr) (pos : Nat) :
    (a.add (.backtrack ip pos)).flagged flag ≤ a.flagged flag + 1 := by
  obtain ⟨begun, attempts⟩ := a
  cases attempts with
  | nil => exact Nat.zero_le _
  | cons now earlier =>
    change (begun :: (now :: earlier).flatten).countP flag ≤ _
    rw [List.countP_cons]
    refine Nat.add_le_add_left ?_ _
    split
    · exact Nat.le_refl 1
    · exact Nat.zero_le 1

/-- Where a flag that stays is not set it never was. -/
theorem Past.flagged_eq_zero {a : Account} (h : a.Past) {flag : Signal}
    (hstays : flag.Stays) (hflag : flag a.begun = false) :
    a.flagged flag = 0 := by
  refine List.countP_eq_zero.mpr fun n hn hset => ?_
  rw [hstays n _ (h n hn) hset] at hflag
  cases hflag

end Account

/-! ## Counting -/

def State.account (s : State) : Account := .ofEvents s.events

def State.counted (s : State) : State :=
  { s with tally := ⟨s.tally.retries + 1, s.tally.searchRetries + 1, s.tally.ticks + 1,
      s.tally.begun⟩ }

def State.flagRead (s : State) : State := { s with tally := { s.tally with ticks := 0 } }

/-- Not more alternatives have been resumed than the limits allow. -/
structure Tally.Within (l : MatchLimits) (t : Tally) : Prop where
  retries : l.retries ≠ 0 → t.retries ≤ l.retries
  searchRetries : l.searchRetries ≠ 0 → t.searchRetries ≤ l.searchRetries

/-- What it comes to that an alternative is counted. -/
inductive Counts (e : Setting) (s : State) : EStateM.Result Halt State Unit → Prop
  | exceeds (x : LimitError) : Counts e s (.error (.limit x) s.counted)
  | goes (h : s.counted.tally.Within e.limits)
    (hticks : s.counted.tally.ticks < e.limits.interruptInterval) : Counts e s (.ok () s.counted)
  | reads (h : s.counted.tally.Within e.limits) (hflag : e.signal s.tally.begun = false) :
    Counts e s (.ok () s.counted.flagRead)
  | notices (h : s.counted.tally.Within e.limits) :
    Counts e s (.error .interrupted s.counted.flagRead)

section
variable {e : Setting} {s t : State} {ev : Event}

theorem countRetry_counts (e : Setting) (s : State) : Counts e s (countRetry e s) := by
  have hcount : countRetry e s = (do
      let t := s.counted.tally
      let l := e.limits
      if l.retries != 0 && l.retries < t.retries then halt (.limit (.retries l.retries))
      if l.searchRetries != 0 && l.searchRetries < t.searchRetries then
        halt (.limit (.searchRetries l.searchRetries))
      if l.interruptInterval ≤ t.ticks then
        modify State.flagRead
        if e.signal t.begun then halt .interrupted : Run Unit) s.counted := rfl
  rw [hcount]
  dsimp only
  split
  · exact .exceeds _
  · rename_i hretries
    split
    · exact .exceeds _
    · rename_i hsearch
      have hwithin : s.counted.tally.Within e.limits := by
        simp only [bne_iff_ne, Bool.and_eq_true, decide_eq_true_eq, not_and, Nat.not_lt]
          at hretries hsearch
        exact ⟨hretries, hsearch⟩
      split
      · cases hflag : e.signal s.counted.tally.begun with
        | true => exact .notices hwithin
        | false => exact .reads hwithin hflag
      · exact .goes hwithin (Nat.lt_of_not_le ‹_›)

theorem tally_emit (s : State) (e : Setting) (ev : Event) : (s.emit e ev).tally = s.tally := by
  unfold State.emit
  split <;> rfl

theorem account_emit (htracing : e.tracing = true) (s : State) (ev : Event) :
    (s.emit e ev).account = s.account.add ev := by
  rw [State.emit, if_pos htracing]
  exact Account.ofEvents_push ..

theorem tally_fetched (s : State) (e : Setting) (i : Instr) :
    (s.fetched e i).tally = { s.tally with begun := s.tally.begun + 1 } := tally_emit ..

theorem account_fetched (htracing : e.tracing = true) (s : State) (i : Instr) :
    (s.fetched e i).account = ⟨s.account.begun + 1, s.account.attempts⟩ := account_emit htracing _ _

theorem Plainly.unseen {f : State → State} (hf : Plainly f) (s : State) :
    (f s).tally = s.tally ∧ (f s).events = s.events := by
  have h : f s = (f s).veiled s.tally s.best s.events := (hf s).2.2 s.tally s.best s.events
  have htally := congrArg State.tally h
  have hevents := congrArg State.events h
  exact ⟨htally, hevents⟩

end

/-! ## Invariants -/

/-- What holds between the actions of a run, and what holds where it ends, depending only on the work
done and the events. -/
structure Invariant (e : Setting) (I : State → Prop) (J : Halt → State → Prop) : Prop where
  alike {s t : State} (htally : t.tally = s.tally) (hevents : t.events = s.events) (h : I s) : I t
  ends {s : State} (k : Halt) (h : I s) : J k s
  notes {s : State} {ev : Event} (hev : ev.isWork = false) (h : I s) : I (s.emit e ev)
  fetches {s : State} (i : Instr) (h : I s) : I (s.fetched e i)
  resumes {s : State} {r : EStateM.Result Halt State Unit} (ip : Addr) (pos : Nat) (h : I s)
    (hr : Counts e (s.emit e (.backtrack ip pos)) r) : Holds I J r

namespace Invariant
variable {e : Setting} {I : State → Prop} {J : Halt → State → Prop} (law : Invariant e I J)
include law

theorem halts {α : Type} (k : Halt) : Maintains I J (halt k : Run α) :=
  maintains_halt fun _ hs => law.ends k hs

theorem emits {ev : Event} (h : ev.isWork = false) : Maintains I J (emit e ev) :=
  maintains_modify fun _ hs => law.notes h hs

theorem pervades : Pervades e fun {α} => Maintains (α := α) I J where
  pure := maintains_pure
  bind := .bind
  halt _ _ := law.halts _
  get _ := maintains_get
  modify hf := maintains_modify fun s hs => law.alike (hf.unseen s).1 (hf.unseen s).2 hs
  emit _ h := law.emits h
  push _ := maintains_push (fun _ _ hs => law.ends _ hs) fun _ hs => law.alike (by rfl) (by rfl) hs
  resume ip pos stack := by
    intro s hs
    have hmoved : I { s with ip := ip, pos := pos, stack := stack } := law.alike (by rfl) (by rfl) hs
    exact law.resumes ip pos hmoved (countRetry_counts e _)
  detach h s hs := h s.stack { s with stack := .empty } (law.alike (by rfl) (by rfl) hs)

theorem accepts : Maintains I J (accept e) := by
  have hback := pervades_backtrack law.pervades
  refine maintains_get fun s => ?_
  have hcollect : Maintains I J
      (modify fun t => { t with best := some (s.pos - s.start, t.region e) } : Run Unit) :=
    maintains_modify fun _ hs => law.alike (by rfl) (by rfl) hs
  have hlongest : Maintains I J (if s.best.all (·.1 < s.pos - s.start) then
      emit e (.accept s.matchStart s.pos) >>= fun _ =>
        (modify fun t => { t with best := some (s.pos - s.start, t.region e) }) >>= fun _ =>
          backtrack e
      else backtrack e) :=
    law.pervades.ite ((law.emits rfl).bind fun _ => hcollect.bind fun _ => hback) hback
  refine law.pervades.ite hback (law.pervades.ite (law.pervades.ite ?_ hlongest) ?_)
  · exact (law.halts _).bind fun _ => hlongest
  · exact (law.emits rfl).bind fun _ => law.halts _

theorem steps (r : Runner) : Maintains I J (step r e) := by
  intro s hs
  cases hcode : e.program.code[s.ip]? with
  | none =>
    simp only [step, bind_get, hcode]
    exact law.ends _ hs
  | some i =>
    rw [step_fetched _ _ _ _ hcode]
    have hfetched := law.fetches i hs
    by_cases haccept : i = .accept
    · subst haccept
      exact law.accepts _ hfetched
    by_cases hend : i = .absentEnd
    · subst hend
      exact law.ends _ hfetched
    refine pervades_exec law.pervades (fun body => ?_) haccept hend _ hfetched
    exact maintains_takeAbsent law.pervades fun _ k _ _ ht => law.ends k ht

theorem run (n : Nat) {s : State} (hs : I s) : J (run n e s).1 (run n e s).2 := by
  induction n generalizing s with
  | zero => exact law.ends _ hs
  | succ n ih =>
    rw [run_succ]
    have hstep := law.steps (inner n) s hs
    cases hx : step (inner n) e s with
    | ok _ t =>
      rw [hx] at hstep
      exact ih hstep
    | error k t =>
      rw [hx] at hstep
      exact hstep

end Invariant

/-! ## Runs -/

section
variable {e : Setting} {s : State}

/-- However a run ends, unless at a limit, it has kept within the limits. This goes for runs inside a
step too, each of which counts for itself. -/
theorem run_within (n : Nat) (hs : s.tally.Within e.limits)
    (hend : ∀ x, (run n e s).1 ≠ .limit x) : (run n e s).2.tally.Within e.limits := by
  have law : Invariant e (fun s => s.tally.Within e.limits)
      fun k s => (∀ x, k ≠ .limit x) → s.tally.Within e.limits :=
    { alike := fun htally _ h => htally ▸ h
      ends := fun _ h _ => h
      notes := fun _ h => (tally_emit ..).symm ▸ h
      fetches := fun i h => by
        rw [tally_fetched]
        exact ⟨h.retries, h.searchRetries⟩
      resumes := fun _ _ _ hr => by
        cases hr with
        | exceeds x => exact fun hne => absurd rfl (hne x)
        | goes h => exact h
        | reads h => exact ⟨h.retries, h.searchRetries⟩
        | notices h => exact fun _ => ⟨h.retries, h.searchRetries⟩ }
  exact law.run n hs hend

/-- The account that the events give of the work of an attempt, after earlier ones. -/
structure Booked (earlier : List (List Nat)) (s : State) : Prop where
  begun : s.account.begun = s.tally.begun
  resumed : s.account.resumed.length = s.tally.searchRetries
  attempts : ∃ now, s.account.attempts = now :: earlier ∧ now.length = s.tally.retries

namespace Booked
variable {earlier : List (List Nat)} {t : State}

theorem alike (htally : t.tally = s.tally) (hevents : t.events = s.events) (h : Booked earlier s) :
    Booked earlier t := by
  have haccount : t.account = s.account := congrArg Account.ofEvents hevents
  exact ⟨by rw [haccount, htally, h.begun], by rw [haccount, htally, h.resumed],
    by rw [haccount, htally]; exact h.attempts⟩

theorem notes (htracing : e.tracing = true) {ev : Event} (hev : ev.isWork = false)
    (h : Booked earlier s) : Booked earlier (s.emit e ev) := by
  have haccount : (s.emit e ev).account = s.account :=
    (account_emit htracing s ev).trans (Account.add_of_not_work _ hev)
  exact ⟨by rw [haccount, tally_emit, h.begun], by rw [haccount, tally_emit, h.resumed],
    by rw [haccount, tally_emit]; exact h.attempts⟩

theorem fetches (htracing : e.tracing = true) (i : Instr) (h : Booked earlier s) :
    Booked earlier (s.fetched e i) := by
  refine ⟨?_, ?_, ?_⟩ <;> rw [account_fetched htracing, tally_fetched]
  · exact congrArg (· + 1) h.begun
  · exact h.resumed
  · exact h.attempts

/-- An alternative that is resumed is counted and recorded. -/
theorem counted (htracing : e.tracing = true) (ip : Addr) (pos : Nat) (h : Booked earlier s) :
    Booked earlier (s.emit e (.backtrack ip pos)).counted := by
  obtain ⟨now, hattempts, hlen⟩ := h.attempts
  have haccount : (s.emit e (.backtrack ip pos)).counted.account =
      ⟨s.account.begun, (s.account.begun :: now) :: earlier⟩ := by
    refine (account_emit htracing s _).trans ?_
    rw [Account.add, hattempts]
    rfl
  have htally : (s.emit e (.backtrack ip pos)).counted.tally =
      ⟨s.tally.retries + 1, s.tally.searchRetries + 1, s.tally.ticks + 1, s.tally.begun⟩ := by
    rw [State.counted, tally_emit]
  have hresumed := h.resumed
  rw [Account.resumed, hattempts] at hresumed
  refine ⟨by rw [haccount, htally, h.begun], ?_, _, by rw [haccount], ?_⟩
  · rw [haccount, htally, Account.resumed, List.flatten_cons, List.cons_append, List.length_cons]
    exact congrArg (· + 1) hresumed
  · rw [htally, List.length_cons, hlen]

theorem invariant (htracing : e.tracing = true) (earlier : List (List Nat)) :
    Invariant e (Booked earlier) fun _ => Booked earlier where
  alike := alike
  ends _ h := h
  notes hev h := h.notes htracing hev
  fetches i h := h.fetches htracing i
  resumes ip pos h hr := by
    have hcounted := h.counted htracing ip pos
    cases hr with
    | exceeds x => exact hcounted
    | goes => exact hcounted
    | reads => exact ⟨hcounted.begun, hcounted.resumed, hcounted.attempts⟩
    | notices => exact ⟨hcounted.begun, hcounted.resumed, hcounted.attempts⟩

end Booked

/-- No more alternatives have been resumed under a set flag than since the flag was read, and these are
too few for it to be read again. -/
structure Timely (e : Setting) (s : State) : Prop where
  flagged : s.account.flagged e.signal ≤ s.tally.ticks
  ticks : s.tally.ticks < e.limits.interruptInterval

namespace Timely
variable {t : State}

theorem alike (htally : t.tally = s.tally) (haccount : t.account = s.account) (h : Timely e s) :
    Timely e t := ⟨by rw [htally, haccount]; exact h.flagged, by rw [htally]; exact h.ticks⟩

/-- When one more has been resumed the flag is read at the latest. -/
theorem counted (htracing : e.tracing = true) (ip : Addr) (pos : Nat) (h : Timely e s) :
    let t := (s.emit e (.backtrack ip pos)).counted
    t.account.flagged e.signal ≤ t.tally.ticks ∧ t.tally.ticks ≤ e.limits.interruptInterval := by
  intro t
  have hticks : t.tally.ticks = s.tally.ticks + 1 := by
    simp only [t, State.counted, tally_emit]
  have haccount : t.account = s.account.add (.backtrack ip pos) := account_emit htracing s _
  rw [haccount, hticks]
  refine ⟨?_, h.ticks⟩
  exact Nat.le_trans (s.account.flagged_backtrack ..) (Nat.succ_le_succ h.flagged)

theorem invariant (htracing : e.tracing = true) (hstays : e.signal.Stays)
    (earlier : List (List Nat)) :
    Invariant e (fun s => Booked earlier s ∧ Timely e s) fun k s =>
      s.account.flagged e.signal ≤ e.limits.interruptInterval ∧
        (k ≠ .interrupted → (∀ x, k ≠ .limit x) → Timely e s) where
  alike htally hevents h :=
    ⟨h.1.alike htally hevents, h.2.alike htally (congrArg Account.ofEvents hevents)⟩
  ends k h := ⟨Nat.le_trans h.2.flagged (Nat.le_of_lt h.2.ticks), fun _ _ => h.2⟩
  notes hev h := ⟨h.1.notes htracing hev, h.2.alike (tally_emit ..)
    ((account_emit htracing _ _).trans (Account.add_of_not_work _ hev))⟩
  fetches i h := by
    refine ⟨h.1.fetches htracing i, ?_, ?_⟩ <;> rw [tally_fetched]
    · rw [account_fetched htracing]
      exact h.2.flagged
    · exact h.2.ticks
  resumes ip pos h hr := by
    have hbooked := h.1.counted htracing ip pos
    obtain ⟨hflagged, hticks⟩ := h.2.counted htracing ip pos
    have hle := Nat.le_trans hflagged hticks
    cases hr with
    | exceeds x => exact ⟨hle, fun _ hne => absurd rfl (hne x)⟩
    | goes _ hless => exact ⟨hbooked, hflagged, hless⟩
    | notices => exact ⟨hle, fun hne => absurd rfl hne⟩
    | reads _ hflag =>
      -- The flag has never been set, so nothing has been resumed under it.
      have hzero := (Account.past_ofEvents _).flagged_eq_zero hstays
        ((congrArg e.signal hbooked.begun).trans hflag)
      refine ⟨⟨hbooked.begun, hbooked.resumed, hbooked.attempts⟩, Nat.le_of_eq hzero, ?_⟩
      exact Nat.zero_lt_of_lt h.2.ticks

end Timely

/-! ## Searches -/

/-- What the events of a search tell, and how it compares with the limits where none of them has ended
it, and with the flag where that has not ended it either. -/
structure Books (e : Setting) (unlimited unread : Prop) (s : State) : Prop where
  begun : s.account.begun = s.tally.begun
  resumed : s.account.resumed.length = s.tally.searchRetries
  attempts : unlimited → e.limits.retries ≠ 0 →
    ∀ a ∈ s.account.attempts, a.length ≤ e.limits.retries
  search : unlimited → e.limits.searchRetries ≠ 0 →
    s.account.resumed.length ≤ e.limits.searchRetries
  flagged : e.signal.Stays → 0 < e.limits.interruptInterval →
    s.account.flagged e.signal ≤ e.limits.interruptInterval
  timely : unread → e.signal.Stays → 0 < e.limits.interruptInterval → Timely e s

namespace Books
variable {unlimited unread unlimited' unread' : Prop} {t : State} {clock pos : Nat}

theorem mono (h : Books e unlimited unread s) (hlimit : unlimited' → unlimited)
    (hread : unread' → unread) : Books e unlimited' unread' s :=
  ⟨h.begun, h.resumed, h.attempts ∘ hlimit, h.search ∘ hlimit, h.flagged, h.timely ∘ hread⟩

theorem alike (htally : t.tally = s.tally) (haccount : t.account = s.account)
    (h : Books e unlimited unread s) : Books e unlimited unread t := by
  refine ⟨?_, ?_, ?_, ?_, ?_, fun hread hstays hinterval =>
    (h.timely hread hstays hinterval).alike htally haccount⟩
  all_goals rw [haccount]
  · rw [htally, h.begun]
  · rw [htally, h.resumed]
  · exact h.attempts
  · exact h.search
  · exact h.flagged

/-- An attempt goes on with the books of those before. -/
theorem run (htracing : e.tracing = true) (h : Books e True True s) (n pos : Nat) :
    let r := Machine.run n e ((s.enter e 0 pos).emit e (.start pos))
    Books e (∀ x, r.1 ≠ .limit x) (r.1 ≠ .interrupted ∧ ∀ x, r.1 ≠ .limit x) r.2 := by
  intro r
  let u := (s.enter e 0 pos).emit e (.start pos)
  have haccount : u.account = ⟨s.account.begun, [] :: s.account.attempts⟩ :=
    account_emit htracing _ _
  have htally : u.tally = { s.tally with retries := 0 } := tally_emit ..
  have hwithin : u.tally.Within e.limits := by
    rw [htally]
    exact ⟨fun _ => Nat.zero_le _, fun hlimit => h.resumed ▸ h.search trivial hlimit⟩
  have hbooked : Booked s.account.attempts u := by
    refine ⟨?_, ?_, [], ?_⟩ <;> rw [haccount, htally]
    · exact h.begun
    · exact h.resumed
    · exact ⟨rfl, rfl⟩
  have hrun : Booked s.account.attempts r.2 :=
    (Booked.invariant htracing s.account.attempts).run n hbooked
  have hend : (∀ x, r.1 ≠ .limit x) → r.2.tally.Within e.limits := run_within n hwithin
  have hflag (hstays : e.signal.Stays) (hinterval : 0 < e.limits.interruptInterval) :
      r.2.account.flagged e.signal ≤ e.limits.interruptInterval ∧
        (r.1 ≠ .interrupted → (∀ x, r.1 ≠ .limit x) → Timely e r.2) := by
    have htimely := h.timely trivial hstays hinterval
    refine (Timely.invariant htracing hstays s.account.attempts).run n ⟨hbooked, ?_, ?_⟩
    · rw [haccount, htally]
      exact htimely.flagged
    · rw [htally]
      exact htimely.ticks
  refine ⟨hrun.begun, hrun.resumed, fun hne hlimit a ha => ?_, fun hne hlimit => ?_,
    fun hstays hinterval => (hflag hstays hinterval).1,
    fun hread hstays hinterval => (hflag hstays hinterval).2 hread.1 hread.2⟩
  · obtain ⟨now, hattempts, hlen⟩ := hrun.attempts
    rcases List.mem_cons.mp (hattempts ▸ ha) with rfl | ha
    · exact hlen ▸ (hend hne).retries hlimit
    · exact h.attempts trivial hlimit a ha
  · exact hrun.resumed ▸ (hend hne).searchRetries hlimit

end Books

/-- Books of a search that goes on, and where it ends. -/
def Kept (e : Setting) : EStateM.Result SearchError State (Option SearchOutcome) → Prop
  | .ok none t => Books e True True t
  | .ok (some o) t => Books e True (o ≠ .interrupted) t
  | .error _ t => Books e False False t

theorem Books.tryAt (htracing : e.tracing = true) (clock pos : Nat) (h : Books e True True s) :
    Kept e (Machine.tryAt clock e pos s) := by
  cases hsignal : e.signal s.tally.begun with
  | true =>
    rw [tryAt_signal hsignal]
    exact h.mono id fun _ => trivial
  | false =>
    have hrun := h.run htracing clock pos
    rw [tryAt_eq hsignal, attempt]
    generalize Machine.run clock e ((s.enter e 0 pos).emit e (.start pos)) = r at hrun
    obtain ⟨k, t⟩ := r
    cases k with
    | accepted => exact hrun.mono (by simp) (by simp)
    | exhausted =>
      have haccount : (t.emit e (.exhausted pos)).account = t.account :=
        account_emit htracing t _
      exact .alike (tally_emit ..) haccount (hrun.mono (by simp) (by simp))
    | interrupted => exact hrun.mono (by simp) fun h => absurd rfl h
    | _ => exact hrun.mono False.elim False.elim

/-- Books of a search that has ended. -/
def Closes (e : Setting) : EStateM.Result SearchError State SearchOutcome → Prop
  | .ok o t => Books e True (o ≠ .interrupted) t
  | .error _ t => Books e False False t

theorem Books.takeBest (h : Books e True True s) : Closes e (Machine.takeBest s) :=
  .alike (by rfl) (by rfl) (h.mono id fun _ => trivial)

theorem Books.tryAll (htracing : e.tracing = true) {clock : Nat} (ps : List Nat)
    (h : Books e True True s) : Closes e (Machine.tryAll clock e ps s) := by
  induction ps generalizing s with
  | nil => exact h.takeBest
  | cons p ps ih =>
    have htried := h.tryAt htracing clock p
    rw [Machine.tryAll]
    cases htry : Machine.tryAt clock e p s with
    | ok o t =>
      rw [htry] at htried
      cases o with
      | none =>
        rw [orElse_none htry]
        exact ih htried
      | some o =>
        rw [orElse_some htry]
        exact htried
    | error x t =>
      rw [htry] at htried
      rw [orElse_error htry]
      exact htried

theorem Books.forward (htracing : e.tracing = true) {clock : Nat} (last : Nat)
    (h : Books e True True s) : Closes e (Machine.forward clock e last s) := by
  unfold Machine.forward
  cases lastStart? e last with
  | none => exact h.mono id fun _ => trivial
  | some last =>
    simp only [forwardFrom_tryAll]
    exact h.tryAll htracing _

theorem Books.backward (htracing : e.tracing = true) {clock : Nat} (first : Nat)
    (h : Books e True True s) : Closes e (Machine.backward clock e first s) := by
  rw [Machine.backward, backwardFrom_tryAll]
  exact h.tryAll htracing _

end

end Machine

/-! ## Reports -/

def SearchReport.account (r : SearchReport) : Account := .ofEvents r.events

/-- What the events of a report tell: of a search that has been decided, that it has kept within the
limits, and of any search, that an interrupt flag has been read in time. -/
structure SearchReport.Budgeted (l : MatchLimits) (flag : Signal) (r : SearchReport) : Prop where
  begun : r.account.begun = r.begun
  attempts : ∀ o, r.result = .ok o → l.retries ≠ 0 →
    ∀ a ∈ r.account.attempts, a.length ≤ l.retries
  search : ∀ o, r.result = .ok o → l.searchRetries ≠ 0 →
    r.account.resumed.length ≤ l.searchRetries
  flagged : flag.Stays → 0 < l.interruptInterval → r.account.flagged flag ≤ l.interruptInterval
  noticed : flag.Stays → 0 < l.interruptInterval → ∀ o, r.result = .ok o → o ≠ .interrupted →
    r.account.flagged flag < l.interruptInterval

namespace Matcher
variable {m : Matcher} {e : Setting} {search : Search SearchOutcome}
  {log : SearchOutcome → State → List LogRecord}

theorem books_begin (s : State) (e : Setting) : Books e True True (begin s e) where
  begun := rfl
  resumed := rfl
  attempts _ _ := nofun
  search _ _ := Nat.zero_le _
  flagged _ _ := Nat.zero_le _
  timely _ _ h := ⟨Nat.zero_le _, h⟩

theorem runSearch_budgeted (h : ∀ s, Books e True True s → Closes e (search s)) :
    (m.runSearch e search log).Budgeted e.limits e.signal := by
  have hclosed := h _ (books_begin m.state e)
  unfold runSearch
  cases hsearch : search (begin m.state e) with
  | ok o t =>
    rw [hsearch] at hclosed
    refine ⟨hclosed.begun, fun _ _ => hclosed.attempts trivial, fun _ _ => hclosed.search trivial,
      hclosed.flagged, fun hstays hinterval o' ho' hne => ?_⟩
    cases ho'
    have htimely := hclosed.timely hne hstays hinterval
    exact Nat.lt_of_le_of_lt htimely.flagged htimely.ticks
  | error x t =>
    rw [hsearch] at hclosed
    exact ⟨hclosed.begun, nofun, nofun, hclosed.flagged, fun _ _ => nofun⟩

theorem refuse_budgeted (m : Matcher) (l : MatchLimits) (flag : Signal) :
    m.refuse.Budgeted l flag :=
  ⟨rfl, fun _ _ _ => nofun, fun _ _ _ => Nat.zero_le _, fun _ _ => Nat.zero_le _, fun _ h _ _ _ => h⟩

section
variable {start range : Nat} {o : SearchOptions} {w : Watch} {clock : Nat}

theorem search_closes (range clock : Nat) (htracing : w.tracing = true) {s : State}
    (h : Books (m.setting start o w) True True s) :
    Closes (m.setting start o w)
      ((if start ≤ range then forward clock (m.setting start o w) range
        else backward clock (m.setting start o w) range) s) := by
  split
  · exact h.forward htracing _
  · exact h.backward htracing _

/-- A search logs how many alternatives its events tell of. -/
theorem searchWith_log (hin : ¬ (m.subject.size < start || m.subject.size < range) = true)
    (htracing : w.tracing = true) {outcome : SearchOutcome}
    (h : (m.searchWith start range o w clock).result = .ok outcome) :
    (m.searchWith start range o w clock).log = [logRecord start range outcome
      (m.searchWith start range o w clock).account.resumed.length] := by
  have hclosed := search_closes range clock htracing
    (books_begin m.state (m.setting start o w))
  rw [searchWith, if_neg hin] at h ⊢
  dsimp only [runSearch] at h ⊢
  split at h
  · rename_i outcome' t hsearch
    cases h
    rw [hsearch] at hclosed
    exact congrArg (fun n => [logRecord start range outcome n]) hclosed.resumed.symm
  · cases h

end

/-- Whatever a matcher is asked, its own work is within the limits, and it stops in time when it is
interrupted. -/
theorem ask_budgeted (m : Matcher) (q : Query) (htracing : (m.asking q).tracing = true) :
    (m.ask q).Budgeted m.limits (m.asking q).signal := by
  cases q with
  | search start range o w clock =>
    rw [ask, searchWith]
    split
    · exact m.refuse_budgeted ..
    · exact runSearch_budgeted (e := m.setting start o w) fun s hs =>
        search_closes range clock htracing hs
  | matchAt pos o w =>
    rw [ask, matchAt]
    split
    · exact m.refuse_budgeted ..
    · exact runSearch_budgeted (e := m.setting pos o w) fun s hs => hs.tryAll htracing [pos]

end Matcher
end RegexMachine
