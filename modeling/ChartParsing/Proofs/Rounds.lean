/-
ChartParsing/Proofs/Rounds.lean

When bounded loops end by themselves.

A loop that does at most `2 ^ n - 1` rounds ends because there is nothing more
to do, and not because its rounds have run out, if each round makes a measure
smaller that starts below `2 ^ n`.  Whatever every round keeps then holds at
the end.

A loop that was given no bound does the same rounds and ends as well: `Exits`
speaks of such a loop, and `exits_of_rounds` finds it in a bounded one.
-/
import ChartParsing.Rounds

namespace ChartParsing

variable {σ ε : Type} {more : σ → Bool} {step : σ → Except ε σ}

/-- What is at most a power of two is below the next one. -/
theorem lt_pow_succ_of_le {n bits : Nat} (h : n ≤ Nat.pow 2 bits) :
    n < Nat.pow 2 (bits + 1) := by
  have hpos : 0 < Nat.pow 2 bits := Nat.two_pow_pos bits
  have hsucc := pow_two_succ bits
  omega

theorem repeatUpTo_ends {P : σ → Prop} (μ : σ → Nat)
    (hstep : ∀ s, P s → more s = true → ∃ t, step s = .ok t ∧ P t ∧ μ t < μ s)
    (limit : Nat) (s : σ) (hs : P s) (hlimit : μ s ≤ limit) :
    ∃ t, repeatUpTo more step limit s = .ok t ∧ P t ∧ more t = false := by
  induction limit generalizing s with
  | zero =>
    refine ⟨s, rfl, hs, ?_⟩
    cases hmore : more s with
    | false => rfl
    | true =>
      obtain ⟨t, -, -, hlt⟩ := hstep s hs hmore
      omega
  | succ limit ih =>
    cases hmore : more s with
    | false => exact ⟨s, repeatUpTo_of_not_more more step hmore _, hs, hmore⟩
    | true =>
      obtain ⟨t, ht, hPt, hlt⟩ := hstep s hs hmore
      obtain ⟨u, hu, hPu, hend⟩ := ih t hPt (by omega)
      refine ⟨u, ?_, hPu, hend⟩
      rw [repeatUpTo, if_pos hmore, ht]
      exact hu

/-- A loop ends by itself if a measure below its bound falls with each round. -/
theorem rounds_ends (more : σ → Bool) (step : σ → Except ε σ) {P : σ → Prop} (μ : σ → Nat)
    (hstep : ∀ s, P s → more s = true → ∃ t, step s = .ok t ∧ P t ∧ μ t < μ s)
    {n : Nat} {s : σ} (hs : P s) (hn : μ s < Nat.pow 2 n) :
    ∃ t, rounds more step n s = .ok t ∧ P t ∧ more t = false := by
  rw [rounds_eq_repeatUpTo]
  exact repeatUpTo_ends μ hstep _ s hs (Nat.le_sub_one_of_lt hn)

/-! ### Loops without a bound -/

/-- `n` rounds of the loop lead from `s` to `t`. -/
inductive Repeats (more : σ → Bool) (step : σ → Except ε σ) : Nat → σ → σ → Prop
  | zero {s} : Repeats more step 0 s s
  | succ {n s t u} : more s = true → step s = .ok t → Repeats more step n t u →
      Repeats more step (n + 1) s u

/-- The loop that begins with `s`, and does `step` for as long as `more` holds,
reaches its exit with `t`, after `n` rounds. -/
structure Exits (more : σ → Bool) (step : σ → Except ε σ) (n : Nat) (s t : σ) : Prop where
  repeats : Repeats more step n s t
  exit : more t = false

/-- Whatever a round keeps, several rounds keep. -/
theorem Repeats.invariant {P : σ → Prop} {n : Nat} {s t : σ} (h : Repeats more step n s t)
    (hstep : ∀ s t, P s → more s = true → step s = .ok t → P t) (hs : P s) : P t := by
  induction h with
  | zero => exact hs
  | succ hmore hrun _ ih => exact ih (hstep _ _ hs hmore hrun)

theorem repeats_of_repeatUpTo {limit : Nat} {s t : σ} (h : repeatUpTo more step limit s = .ok t) :
    ∃ n, Repeats more step n s t := by
  induction limit generalizing s with
  | zero =>
    obtain rfl := Except.ok.inj h
    exact ⟨0, .zero⟩
  | succ limit ih =>
    rw [repeatUpTo] at h
    split at h
    · rename_i hmore
      cases hrun : step s with
      | error e =>
        rw [hrun] at h
        cases h
      | ok u =>
        rw [hrun] at h
        obtain ⟨n, hn⟩ := ih h
        exact ⟨n + 1, .succ hmore hrun hn⟩
    · obtain rfl := Except.ok.inj h
      exact ⟨0, .zero⟩

/-- What a bounded loop returns, its rounds have led to. -/
theorem repeats_of_rounds {bits : Nat} {s t : σ} (h : rounds more step bits s = .ok t) :
    ∃ n, Repeats more step n s t := by
  rw [rounds_eq_repeatUpTo] at h
  exact repeats_of_repeatUpTo h

/-- A bounded loop that returns with nothing more to do has not met its bound. -/
theorem exits_of_rounds {bits : Nat} {s t : σ} (h : rounds more step bits s = .ok t)
    (hexit : more t = false) : ∃ n, Exits more step n s t := by
  obtain ⟨n, hn⟩ := repeats_of_rounds h
  exact ⟨n, hn, hexit⟩

end ChartParsing
