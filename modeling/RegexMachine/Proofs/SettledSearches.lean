import RegexMachine.Proofs.Searches
import RegexMachine.Proofs.Settling

/-!
A search that has come to an answer before the clock ran out comes to that answer with every clock
that is late enough.
-/
namespace RegexMachine
open Machine

namespace Machine

variable {e : Setting} {n : Nat} {s : State}

/-- What is not late with one clock is the same with all that are late enough. -/
def Punctual {α : Type} (f : Nat → Search α) (n : Nat) (s : State) : Prop :=
  (∀ t, f n s ≠ .error .late t) → ∃ N, ∀ m, N ≤ m → f m s = f n s

theorem Punctual.const {α : Type} (x : Search α) : Punctual (fun _ => x) n s :=
  fun _ => ⟨0, fun _ _ => rfl⟩

theorem tryAt_punctual (pos : Nat) : Punctual (fun clock => tryAt clock e pos) n s := by
  intro h
  cases hsignal : e.signal s.tally.begun with
  | true =>
    refine ⟨0, fun m _ => ?_⟩
    dsimp only
    rw [tryAt_signal hsignal, tryAt_signal hsignal]
  | false =>
    have htry (clock : Nat) := @tryAt_eq e clock pos s hsignal
    simp only [htry] at h ⊢
    have hlate : (run n e ((s.enter e 0 pos).emit e (.start pos))).1 ≠ .late := by
      intro hlate
      unfold attempt at h
      generalize run n e ((s.enter e 0 pos).emit e (.start pos)) = r at h hlate
      obtain ⟨halt, t⟩ := r
      obtain rfl : halt = .late := hlate
      exact h t rfl
    obtain ⟨N, hN⟩ := run_stays n _ hlate
    refine ⟨N, fun m hm => ?_⟩
    rw [attempt, attempt, hN m hm]

theorem orElse_punctual {x : Nat → Search (Option SearchOutcome)} {rest : Nat → Search SearchOutcome}
    (hx : Punctual x n s) (hrest : ∀ t, Punctual rest n t) :
    Punctual (fun clock => orElse (x clock) (rest clock)) n s := by
  intro h
  have heq (clock : Nat) : orElse (x clock) (rest clock) s =
      match x clock s with
      | .ok (some o) t => .ok o t
      | .ok none t => rest clock t
      | .error y t => .error y t := by
    simp only [orElse, bind, EStateM.bind]
    rcases x clock s with ⟨_ | o, t⟩ | ⟨y, t⟩ <;> rfl
  simp only [heq] at h ⊢
  cases hv : x n s with
  | error y t =>
    rw [hv] at h
    obtain ⟨N, hN⟩ := hx fun u hu => h u (by rw [hv] at hu; cases hu; rfl)
    exact ⟨N, fun m hm => by rw [hN m hm, hv]⟩
  | ok o t =>
    rw [hv] at h
    obtain ⟨N, hN⟩ := hx fun u hu => by rw [hv] at hu; cases hu
    cases o with
    | some o => exact ⟨N, fun m hm => by rw [hN m hm, hv]⟩
    | none =>
      obtain ⟨M, hM⟩ := hrest t h
      refine ⟨max N M, fun m hm => ?_⟩
      rw [hN m (by omega), hv]
      exact hM m (by omega)

theorem forwardFrom_punctual (last pos : Nat) :
    Punctual (fun clock => forwardFrom clock e last pos) n s := by
  -- Each start lies further on.
  induction hk : last + 1 - pos using Nat.strongRecOn generalizing pos s with
  | _ k ih =>
    have hstep (clock : Nat) := forwardFrom_eq clock e last pos
    simp only [hstep]
    split
    · exact .const _
    · split
      · exact .const _
      · rename_i c _
        split
        · exact .const _
        · split
          · have hlt := Subject.lt_next e.subject pos
            exact ih _ (by omega) _ rfl
          · refine orElse_punctual (tryAt_punctual c) fun t => ?_
            split
            · exact .const _
            · have hlt := Subject.lt_next e.subject c
              exact ih _ (by omega) _ rfl

theorem backwardFrom_punctual (first pos : Nat) :
    Punctual (fun clock => backwardFrom clock e first pos) n s := by
  induction pos using Nat.strongRecOn generalizing s with
  | _ pos ih =>
    have hstep (clock : Nat) := backwardFrom_eq clock e first pos
    simp only [hstep]
    split
    · exact .const _
    · refine orElse_punctual ?_ fun t => ?_
      · split
        · exact tryAt_punctual pos
        · exact .const _
      · split
        · exact .const _
        · rename_i p hp
          exact ih p (Subject.prev?_lt hp)

end Machine

namespace Matcher

/-- The answer of a search does not depend on the clock. -/
theorem searchWith_settles (m : Matcher) (start range : Nat) (o : SearchOptions) (w : Watch)
    {n : Nat} (h : (m.searchWith start range o w n).result ≠ .error .late) :
    ∃ N, ∀ clock, N ≤ clock →
      (m.searchWith start range o w clock).result = (m.searchWith start range o w n).result := by
  by_cases hout : (m.subject.size < start || m.subject.size < range) = true
  · refine ⟨0, fun clock _ => ?_⟩
    rw [searchWith, searchWith, if_pos hout, if_pos hout]
  have hresult clock := searchWith_result m o w clock hout
  simp only [hresult] at h ⊢
  have settled {f : Nat → Search SearchOutcome} {s : State} (hf : Punctual f n s)
      (h : answer (f n s) ≠ .error .late) :
      ∃ N, ∀ clock, N ≤ clock → answer (f clock s) = answer (f n s) := by
    obtain ⟨N, hN⟩ := hf fun t ht => h (by rw [ht]; rfl)
    exact ⟨N, fun clock hn => by rw [hN clock hn]⟩
  split at h
  · simp only [if_pos ‹start ≤ range›]
    refine settled (f := fun clock => forward clock (m.setting start o w) range) ?_ h
    unfold forward
    split
    · exact .const _
    · exact forwardFrom_punctual _ _
  · simp only [if_neg ‹¬ start ≤ range›]
    exact settled (f := fun clock => backward clock (m.setting start o w) range)
      (backwardFrom_punctual _ _) h

theorem searchWith_ok {m : Matcher} {start range : Nat} {o : SearchOptions} {w : Watch} {n : Nat}
    {found : SearchOutcome} (h : (m.searchWith start range o w n).result = .ok found) :
    ∃ N, ∀ clock, N ≤ clock → (m.searchWith start range o w clock).result = .ok found := by
  rw [← h]
  exact m.searchWith_settles start range o w (by rw [h]; exact nofun)

end Matcher
end RegexMachine
