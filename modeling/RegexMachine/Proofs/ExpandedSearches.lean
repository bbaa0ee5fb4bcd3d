import RegexMachine.Proofs.CompiledSweeps
import RegexMachine.Proofs.ExpandedRuns
import RegexMachine.Proofs.SettledSearches

/-!
Searches with a program and with its expanded form. An attempt comes to the same in both, so a
search does.
-/
namespace RegexMachine
open Machine

/-- Errors of searches that count as one. The texts of faults name addresses, which have moved. -/
def SearchError.Alike : SearchError → SearchError → Prop
  | .fault _, y => ∃ f, y = .fault f
  | x, y => y = x

namespace Sweep

variable {w : Sweep} {e : Setting} {s s' : State} {pos : Nat}

/-- An attempt that stops answers alike in both. -/
theorem try_alike (hq : Quiet e) {h h' : Halt} {t t' : State}
    (hlike : (Ending.of (h, t)).Like (Ending.of (h', t'))) {N : Nat}
    (hrun : ∀ n, N ≤ n →
      run n (w.plain e) ((s.enter (w.plain e) 0 pos).emit (w.plain e) (.start pos)) = (h, t))
    (hrun' : ∀ n, N ≤ n →
      run n (w.looped e) ((s'.enter (w.looped e) 0 pos).emit (w.looped e) (.start pos)) = (h', t')) :
    (∃ o u u', (o = none → Recalls u u') ∧ ∀ clock, N ≤ clock →
      tryAt clock (w.plain e) pos s = .ok o u ∧ tryAt clock (w.looped e) pos s' = .ok o u') ∨
    ∀ clock, N ≤ clock → ∃ x x' u u', x.Alike x' ∧
      tryAt clock (w.plain e) pos s = .error x u ∧
      tryAt clock (w.looped e) pos s' = .error x' u' := by
  have htry (clock : Nat) := @tryAt_eq (w.plain e) clock pos s (hq.signal s.tally.begun)
  have htry' (clock : Nat) := @tryAt_eq (w.looped e) clock pos s' (hq.signal s'.tally.begun)
  obtain ⟨hhalt, hexhausted, haccepted⟩ := hlike.halts
  cases h with
  | accepted =>
    obtain rfl : h' = .accepted := hhalt
    obtain ⟨hpos, hsame⟩ := haccepted rfl
    have hregion : t'.region (w.looped e) = t.region (w.plain e) := by
      have hstart : t'.start = t.start := hsame.start
      have hregs : t'.regs = t.regs := hsame.regs
      have hhere : t'.pos = t.pos := hpos
      rw [State.region, State.region, State.matchStart, State.matchStart, hstart, hregs, hhere]
      rfl
    refine .inl ⟨some (.found (t.region (w.plain e))), t, t', fun h => absurd h (Option.some_ne_none _),
      fun clock hn => ?_⟩
    rw [htry, htry', attempt, attempt, hrun clock hn, hrun' clock hn]
    refine ⟨rfl, ?_⟩
    rw [← hregion]
  | exhausted =>
    obtain rfl : h' = .exhausted := hhalt
    have hsame := hexhausted rfl
    refine .inl ⟨none, t.emit (w.plain e) (.exhausted pos), t'.emit (w.looped e) (.exhausted pos),
      fun _ => ?_, fun clock hn => ?_⟩
    · have hcore := core_emit t (w.plain e) (.exhausted pos)
      have hcore' := core_emit t' (w.looped e) (.exhausted pos)
      have hsame : (t.emit (w.plain e) (.exhausted pos)).core.Same
          (t'.emit (w.looped e) (.exhausted pos)).core := by
        rw [hcore, hcore']
        exact hsame
      exact ⟨hsame.memo, hsame.best⟩
    · rw [htry, htry', attempt, attempt, hrun clock hn, hrun' clock hn]
      exact ⟨rfl, rfl⟩
  | interrupted =>
    obtain rfl : h' = .interrupted := hhalt
    refine .inl ⟨some .interrupted, t, t', fun h => absurd h (Option.some_ne_none _), fun clock hn => ?_⟩
    rw [htry, htry', attempt, attempt, hrun clock hn, hrun' clock hn]
    exact ⟨rfl, rfl⟩
  | limit x =>
    obtain rfl : h' = .limit x := hhalt
    refine .inr fun clock hn => ⟨.limit x, .limit x, t, t', rfl, ?_⟩
    rw [htry, htry', attempt, attempt, hrun clock hn, hrun' clock hn]
    exact ⟨rfl, rfl⟩
  | fault f =>
    obtain ⟨f', rfl, -⟩ := hhalt
    refine .inr fun clock hn => ⟨.fault f, .fault f', t, t', ⟨f', rfl⟩, ?_⟩
    rw [htry, htry', attempt, attempt, hrun clock hn, hrun' clock hn]
    exact ⟨rfl, rfl⟩
  | late =>
    obtain rfl : h' = .late := hhalt
    refine .inr fun clock hn => ⟨.late, .late, t, t', rfl, ?_⟩
    rw [htry, htry', attempt, attempt, hrun clock hn, hrun' clock hn]
    exact ⟨rfl, rfl⟩

/-- An attempt that is late whatever the clock. -/
theorem try_late {e : Setting} (hq : Quiet e) {clock : Nat}
    (h : (run clock e ((s.enter e 0 pos).emit e (.start pos))).1 = .late) :
    ∃ t, tryAt clock e pos s = .error .late t := by
  rw [tryAt_eq (hq.signal s.tally.begun), attempt]
  generalize run clock e ((s.enter e 0 pos).emit e (.start pos)) = r at h ⊢
  obtain ⟨halt, t⟩ := r
  obtain rfl : halt = .late := h
  exact ⟨t, rfl⟩

/-- Attempts of the program and of its expanded form answer alike. -/
theorem peers (hf : w.Fits) (hq : Quiet e) :
    Peers (w.plain e) (w.looped e) Recalls SearchError.Alike where
  subject := rfl
  origin := rfl
  options := rfl
  hints := rfl
  best h := h.2
  tries {pos s s'} _ hs := by
    have hplain : Quiet (w.plain e) := quiet_plain hq
    have hlooped : Quiet (w.looped e) := quiet_looped hq
    let c := (s.enter (w.plain e) 0 pos).emit (w.plain e) (.start pos)
    let d := (s'.enter (w.looped e) 0 pos).emit (w.looped e) (.start pos)
    have hcore (n : Nat) : Ending.of (run n (w.plain e) c) = c.core.run n (w.plain e) :=
      run_core hplain n c
    have hcore' (n : Nat) : Ending.of (run n (w.looped e) d) = d.core.run n (w.looped e) :=
      run_core hlooped n d
    have hzero : w.moved 0 = 0 := if_pos (Nat.zero_le _)
    have hlevel : w.Level e.subject c.core d.core := by
      have h := level_enter (w := w) (e := e) (t := e.subject) hs 0 pos
      rw [hzero] at h
      rwa [core_emit, core_emit]
    by_cases hends : ∃ n, (run n (w.plain e) c).1 ≠ .late
    · obtain ⟨n, hn⟩ := hends
      obtain ⟨y, ⟨hy, M, hM⟩, hlike⟩ := run_follows hf n hq (.inl hlevel) fun hlate =>
        hn (Ending.at_late.mp ((hcore n).trans hlate))
      have hm : (run M (w.looped e) d).1 ≠ .late := fun hlate =>
        hy ((hM M (Nat.le_refl M)).symm.trans ((hcore' M).symm.trans (Ending.at_late.mpr hlate)))
      obtain ⟨N, hN⟩ := run_stays n c hn
      obtain ⟨N', hN'⟩ := run_stays M d hm
      rw [← hcore, ← hM M (Nat.le_refl M), ← hcore'] at hlike
      exact ⟨max N N', try_alike hq hlike (fun k hk => hN k (by omega)) fun k hk =>
        hN' k (by omega)⟩
    · refine ⟨0, .inr fun clock _ => ?_⟩
      have hlate : (run clock (w.plain e) c).1 = .late := by
        by_contra hn
        exact hends ⟨clock, hn⟩
      have hlate' : (run clock (w.looped e) d).1 = .late := by
        by_contra hn
        obtain ⟨y, ⟨hy, M, hM⟩, -⟩ := run_precedes hf clock hq (.inl hlevel) fun hlate =>
          hn (Ending.at_late.mp ((hcore' clock).trans hlate))
        refine hends ⟨M, fun hx => hy ?_⟩
        rw [← hM M (Nat.le_refl M), ← hcore]
        exact Ending.at_late.mpr hx
      obtain ⟨t, ht⟩ := try_late hplain hlate
      obtain ⟨t', ht'⟩ := try_late hlooped hlate'
      exact ⟨.late, .late, t, t', rfl, ht, ht'⟩

end Sweep

/-- The instruction stands at the place, and the loop can stand for it there: the program fits, as
every program does that was compiled from a pattern. -/
def Sweep.Suits (w : Sweep) : Prop :=
  w.program.code[w.place]? = some w.instr ∧ (w.Fits ∨ ∃ setting options properties,
    (Compilation.ofPattern setting options properties).result = .ok w.program)

theorem Sweep.Suits.fits {w : Sweep} (h : w.Suits) : w.Fits :=
  h.2.elim id fun ⟨_, _, _, hprogram⟩ => fits_of_compiled hprogram h.1

namespace Matcher

/-- A search comes to the same with the program and with its expanded form. -/
theorem searchWith_expanded {w : Sweep} (hw : w.Suits) (m : Matcher) (hretries : m.limits.retries = 0)
    (hsearchRetries : m.limits.searchRetries = 0) (hframes : m.limits.frames = 0)
    (start range : Nat) (o : SearchOptions) {watch : Watch} (hsignal : ∀ n, watch.signal n = false) :
    ∃ N, ∀ clock, N ≤ clock → Agree SearchError.Alike
      (searchWith { m with program := w.program } start range o watch clock).result
      (searchWith { m with program := w.expanded } start range o watch clock).result := by
  by_cases hout : (m.subject.size < start || m.subject.size < range) = true
  · refine ⟨0, fun clock _ => ?_⟩
    rw [searchWith, searchWith, if_pos hout, if_pos hout]
    exact rfl
  let e := setting { m with program := w.program } start o watch
  have hpeers : Peers e (w.looped e) Sweep.Recalls SearchError.Alike :=
    Sweep.peers (e := e) hw.fits ⟨hretries, hsearchRetries, hframes, hsignal⟩
  have hbegin : Sweep.Recalls (begin m.state e) (begin m.state (w.looped e)) := ⟨rfl, rfl⟩
  have hresult clock := searchWith_result { m with program := w.program } o watch clock hout
  have hresult' clock := searchWith_result { m with program := w.expanded } o watch clock hout
  simp only [hresult, hresult']
  split
  · exact hpeers.forward hbegin range
  · exact hpeers.backwardFrom _ hbegin (e.subject.leftAdjust_le_size e.origin)

/-- The pattern `(?!.*b)c`. -/
def lookingAhead : Pattern.Setting :=
  ⟨#[40, 63, 33, 46, 42, 98, 41, 99], .native, .ascii, .standard⟩

theorem lookingAhead_compiles :
    (Compilation.ofPattern lookingAhead .empty .empty).result.toOption.isSome = true := by
  decide +kernel

/-- Its program, at the instruction that takes any characters up to a `b`. -/
def lookingAheadSweep : Sweep where
  program := (Compilation.ofPattern lookingAhead .empty .empty).result.toOption.get
    lookingAhead_compiles
  place := 2
  multiline := false
  before := some 98

/-- In `cbc` the last `c` is found by both programs. -/
theorem searchWith_lookingAhead :
    lookingAheadSweep.expanded.code = #[.fork 9, .lookStart 0, .fork 5, .anyChar false, .jump 2,
        .byte 98, .unwind 0, .drop, .fail, .byte 99, .accept] ∧
      (searchWith ⟨lookingAheadSweep.program, #[99, 98, 99], ⟨0, 0, 1024, 0, 16384⟩, .initial⟩ 0 3
        .empty .none 99).result = .ok (.found ⟨#[some ⟨2, 3⟩], none⟩) ∧
      ∃ N, ∀ clock, N ≤ clock → Agree SearchError.Alike
        (searchWith ⟨lookingAheadSweep.program, #[99, 98, 99], ⟨0, 0, 1024, 0, 16384⟩, .initial⟩ 0 3
          .empty .none clock).result
        (searchWith ⟨lookingAheadSweep.expanded, #[99, 98, 99], ⟨0, 0, 1024, 0, 16384⟩, .initial⟩
          0 3 .empty .none clock).result := by
  refine ⟨by decide +kernel, by decide +kernel, ?_⟩
  exact searchWith_expanded (w := lookingAheadSweep)
    ⟨by decide +kernel, Or.inr ⟨_, _, _, ok_of_isSome lookingAhead_compiles⟩⟩
    ⟨lookingAheadSweep.program, #[99, 98, 99], ⟨0, 0, 1024, 0, 16384⟩, .initial⟩ rfl rfl rfl 0 3
    .empty fun _ => rfl

/-! ## Programs in which the loop does something else -/

/-- A program without groups, loops and subroutines, with so many checks of rounds. -/
def plainProgram (code : Array Instr) (checks : Nat) : Program where
  code := code
  tables :=
    { loops := #[]
      subroutines := #[]
      names := .empty
      captures := 0
      marks := 0
      roundChecks := checks
      guards := 0
      options := .empty
      features := .empty
      hints := .unknown }
  encoding := .ascii

/-- An alternative is dropped after the literal: the loop has left others above it. -/
def droppingSweep : Sweep where
  program := plainProgram #[.fork 5, .anyCharsBefore false 97, .byte 97, .drop, .fail, .accept] 0
  place := 1
  multiline := false
  before := some 97

/-- The instruction is skipped after a round that consumed nothing: of the loop only the first of its
instructions is. -/
def skippingSweep : Sweep where
  program := plainProgram #[.roundStart 0, .roundEnd 0 false, .anyChars false, .accept] 1
  place := 2
  multiline := false
  before := none

/-- Both programs are verified, and the literal comes next that was looked ahead for. The loop finds
another match all the same, the first program with it in `ba` and the second one in `b`. -/
theorem searchWith_expanded_differs :
    (Program.verify droppingSweep.program.code droppingSweep.program.tables = none ∧
      droppingSweep.program.code[droppingSweep.place]? = some droppingSweep.instr ∧
      droppingSweep.program.code[droppingSweep.place + 1]? = some (.byte 97) ∧
      ∃ N, ∀ clock, N ≤ clock →
        (searchWith ⟨droppingSweep.program, #[98, 97], ⟨0, 0, 1024, 0, 16384⟩, .initial⟩ 0 2 .empty
          .none clock).result = .ok (.found ⟨#[some ⟨2, 2⟩], none⟩) ∧
        (searchWith ⟨droppingSweep.expanded, #[98, 97], ⟨0, 0, 1024, 0, 16384⟩, .initial⟩ 0 2 .empty
          .none clock).result = .ok (.found ⟨#[some ⟨0, 0⟩], none⟩)) ∧
    Program.verify skippingSweep.program.code skippingSweep.program.tables = none ∧
      skippingSweep.program.code[skippingSweep.place]? = some skippingSweep.instr ∧
      ∃ N, ∀ clock, N ≤ clock →
        (searchWith ⟨skippingSweep.program, #[98], ⟨0, 0, 1024, 0, 16384⟩, .initial⟩ 0 1 .empty
          .none clock).result = .ok (.found ⟨#[some ⟨0, 0⟩], none⟩) ∧
        (searchWith ⟨skippingSweep.expanded, #[98], ⟨0, 0, 1024, 0, 16384⟩, .initial⟩ 0 1 .empty
          .none clock).result = .ok (.found ⟨#[some ⟨0, 1⟩], none⟩) := by
  have both {m m' : Matcher} {stop : Nat} {found found' : SearchOutcome}
      (h : (m.searchWith 0 stop .empty .none 99).result = .ok found)
      (h' : (m'.searchWith 0 stop .empty .none 99).result = .ok found') :
      ∃ N, ∀ clock, N ≤ clock → (m.searchWith 0 stop .empty .none clock).result = .ok found ∧
        (m'.searchWith 0 stop .empty .none clock).result = .ok found' := by
    obtain ⟨N, hN⟩ := searchWith_ok h
    obtain ⟨M, hM⟩ := searchWith_ok h'
    exact ⟨max N M, fun clock hn => ⟨hN clock (by omega), hM clock (by omega)⟩⟩
  refine ⟨⟨by decide +kernel, by decide +kernel, by decide +kernel, ?_⟩, by decide +kernel,
    by decide +kernel, ?_⟩
  · exact both (by decide +kernel) (by decide +kernel)
  · exact both (by decide +kernel) (by decide +kernel)

end Matcher
end RegexMachine
