/-
ChartParsing/Proofs/Relabel/Steps.lean

Computations that go the same way over other data.

A computation that may fail corresponds to another if it fails where that
fails, and else comes to the same result carried over by a map.  This is kept
by every way in which the library puts computations together: one after the
other, over a list, and in rounds.
-/
import ChartParsing.Rounds

namespace ChartParsing

variable {ε α β α' β' : Type}

/-- Steps that correspond lead to results that correspond. -/
theorem bind_map_comm {x : Except ε α} {x' : Except ε α'} {k : α → Except ε β}
    {k' : α' → Except ε β'} {g : α → α'} {h : β → β'} (hx : x' = x.map g)
    (hk : ∀ a, k' (g a) = (k a).map h) : (x' >>= k') = (x >>= k).map h := by
  subst hx
  cases x with
  | error e => rfl
  | ok a => exact hk a

theorem mapError_map_comm {ε' : Type} {x : Except ε α} {x' : Except ε α'} {g : α → α'}
    (hx : x' = x.map g) (k : ε → ε') : x'.mapError k = (x.mapError k).map g := by
  subst hx
  cases x with
  | error e => rfl
  | ok a => rfl

theorem mapM_map_comm {k : α → Except ε β} {k' : α' → Except ε β'} {g : α → α'} {h : β → β'}
    (hk : ∀ a, k' (g a) = (k a).map h) (as : List α) :
    (as.map g).mapM k' = (as.mapM k).map (List.map h) := by
  induction as with
  | nil => rfl
  | cons a as ih =>
    rw [List.map_cons, List.mapM_cons, List.mapM_cons]
    exact bind_map_comm (hk a) fun b => bind_map_comm ih fun bs => rfl

theorem foldlM_map_comm {k : β → α → Except ε β} {k' : β' → α' → Except ε β'} {g : α → α'}
    {h : β → β'} (hk : ∀ b a, k' (h b) (g a) = (k b a).map h) (as : List α) (b : β) :
    (as.map g).foldlM k' (h b) = (as.foldlM k b).map h := by
  induction as generalizing b with
  | nil => rfl
  | cons a as ih =>
    rw [List.map_cons, List.foldlM_cons, List.foldlM_cons]
    exact bind_map_comm (hk b a) fun b => ih b

/-- Loops whose steps correspond lead to results that correspond. -/
theorem rounds_map_comm {σ σ' ε : Type} {more : σ → Bool} {more' : σ' → Bool}
    {step : σ → Except ε σ} {step' : σ' → Except ε σ'} {h : σ → σ'}
    (hmore : ∀ s, more' (h s) = more s) (hstep : ∀ s, step' (h s) = (step s).map h) (n : Nat)
    (s : σ) : rounds more' step' n (h s) = (rounds more step n s).map h := by
  rw [rounds_eq_repeatUpTo, rounds_eq_repeatUpTo]
  generalize Nat.pow 2 n - 1 = limit
  induction limit generalizing s with
  | zero => rfl
  | succ limit ih =>
    rw [repeatUpTo, repeatUpTo, hmore]
    cases more s with
    | false => rfl
    | true => exact bind_map_comm (hstep s) ih

end ChartParsing
