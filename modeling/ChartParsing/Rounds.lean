/-
ChartParsing/Rounds.lean

Loops whose bound is too large to count down from.

`rounds more step n s` does `step` for as long as `more` holds, at most
`2 ^ n - 1` times.  It works in bursts of 1, 2, 4, … steps: only the sizes of
the bursts are counted, so a loop that ends after a few steps never looks at
how large its bound was.

What it does is said without bursts by `repeatUpTo`, which counts every step
(`rounds_eq_repeatUpTo`).
-/

namespace ChartParsing

variable {σ ε : Type} (more : σ → Bool) (step : σ → Except ε σ)

/-- `step` for as long as `more` holds, at most `limit` times. -/
def repeatUpTo : (limit : Nat) → σ → Except ε σ
  | 0, s => .ok s
  | limit + 1, s => if more s then (step s).bind (repeatUpTo limit) else .ok s

/-- `step` for as long as `more` holds, at most `2 ^ size` times. -/
def burst : (size : Nat) → σ → Except ε σ
  | 0, s => if more s then step s else .ok s
  | size + 1, s =>
    match burst size s with
    | .ok s => if more s then burst size s else .ok s
    | .error e => .error e

/-- Bursts of growing size for as long as `more` holds, at most `count` of them. -/
def burstsFrom : (count size : Nat) → σ → Except ε σ
  | 0, _, s => .ok s
  | count + 1, size, s =>
    if more s then
      match burst more step size s with
      | .ok s => burstsFrom count (size + 1) s
      | .error e => .error e
    else .ok s

/-- `step` for as long as `more` holds, at most `2 ^ n - 1` times. -/
def rounds (n : Nat) (s : σ) : Except ε σ := burstsFrom more step n 0 s

/-! ### Counting the steps -/

theorem pow_two_succ (n : Nat) : Nat.pow 2 (n + 1) = 2 * Nat.pow 2 n := Nat.mul_comm _ _

theorem repeatUpTo_of_not_more {s : σ} (h : more s = false) (limit : Nat) :
    repeatUpTo more step limit s = .ok s := by
  cases limit <;> simp [repeatUpTo, h]

theorem repeatUpTo_add (m n : Nat) (s : σ) :
    repeatUpTo more step (m + n) s =
      (repeatUpTo more step m s).bind (repeatUpTo more step n) := by
  induction m generalizing s with
  | zero => rw [Nat.zero_add]; rfl
  | succ m ih =>
    rw [Nat.succ_add, repeatUpTo, repeatUpTo]
    cases h : more s with
    | false => exact (repeatUpTo_of_not_more more step h n).symm
    | true =>
      cases hs : step s with
      | error e => rfl
      | ok t => exact ih t

theorem burst_eq_repeatUpTo (size : Nat) (s : σ) :
    burst more step size s = repeatUpTo more step (Nat.pow 2 size) s := by
  induction size generalizing s with
  | zero =>
    simp only [burst, repeatUpTo]
    cases h : more s with
    | false => rfl
    | true => cases hs : step s <;> rfl
  | succ size ih =>
    rw [burst, pow_two_succ, Nat.two_mul, repeatUpTo_add, ih]
    cases hs : repeatUpTo more step (Nat.pow 2 size) s with
    | error e => rfl
    | ok t =>
      cases ht : more t with
      | false => simp [Except.bind, ht, repeatUpTo_of_not_more more step ht]
      | true => simp [Except.bind, ht, ih]

theorem burstsFrom_eq_repeatUpTo (count size : Nat) (s : σ) :
    burstsFrom more step count size s =
      repeatUpTo more step ((Nat.pow 2 count - 1) * Nat.pow 2 size) s := by
  induction count generalizing size s with
  | zero =>
    simp only [Nat.pow, Nat.sub_self, Nat.zero_mul]
    rfl
  | succ count ih =>
    have hpos : 0 < Nat.pow 2 count := Nat.pow_pos (by decide)
    have hsplit : (Nat.pow 2 (count + 1) - 1) * Nat.pow 2 size =
        Nat.pow 2 size + (Nat.pow 2 count - 1) * Nat.pow 2 (size + 1) := by
      obtain ⟨k, hk⟩ : ∃ k, Nat.pow 2 count = k + 1 := ⟨Nat.pow 2 count - 1, by omega⟩
      have hcount : Nat.pow 2 (count + 1) - 1 = 2 * k + 1 := by
        rw [pow_two_succ, hk]
        omega
      rw [hcount, hk, pow_two_succ, Nat.add_sub_cancel, Nat.add_mul, Nat.one_mul,
        ← Nat.mul_assoc, Nat.mul_comm k 2, Nat.add_comm]
    rw [burstsFrom, hsplit, repeatUpTo_add, burst_eq_repeatUpTo]
    cases h : more s with
    | false =>
      rw [repeatUpTo_of_not_more more step h]
      simp [Except.bind, repeatUpTo_of_not_more more step h]
    | true =>
      cases hs : repeatUpTo more step (Nat.pow 2 size) s with
      | error e => rfl
      | ok t => exact ih (size + 1) t

/-- Rounds count like single steps. -/
theorem rounds_eq_repeatUpTo (n : Nat) (s : σ) :
    rounds more step n s = repeatUpTo more step (Nat.pow 2 n - 1) s := by
  rw [rounds, burstsFrom_eq_repeatUpTo]
  simp [Nat.pow]

end ChartParsing
