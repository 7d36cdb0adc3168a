/-
ChartParsing/Proofs/Label/Series.lean

Advancing over several labels in turn.

`Label.advanceAll dot a founds` moves the dot of `a` over each label, starting
at `dot`; each advance is given both sides as the one before it has left them.
A series can be cut anywhere (`advanceAll_append`), in particular before its
last label (`advanceAll_concat`).
-/
import ChartParsing.Label

namespace ChartParsing

namespace Label

variable {L : Type} [Label L]

/-- Advances over the labels one after the other, the first of them at `dot`. -/
def advanceAll (dot : Nat) (a : Advance L) : List L → Option (Advance L)
  | [] => some a
  | found :: founds =>
    (advance a.lhs a.rhs dot found).bind fun a' => advanceAll (dot + 1) a' founds

theorem advanceAll_append (dot : Nat) (a : Advance L) (fs gs : List L) :
    advanceAll dot a (fs ++ gs) =
      (advanceAll dot a fs).bind fun a' => advanceAll (dot + fs.length) a' gs := by
  induction fs generalizing dot a with
  | nil => rfl
  | cons f fs ih =>
    rw [List.cons_append, advanceAll, advanceAll, Option.bind_assoc]
    refine Option.bind_congr fun a' _ => ?_
    rw [ih, List.length_cons, Nat.add_right_comm, Nat.add_assoc]

theorem advanceAll_singleton (dot : Nat) (a : Advance L) (found : L) :
    advanceAll dot a [found] = advance a.lhs a.rhs dot found := by
  show (advance a.lhs a.rhs dot found).bind some = advance a.lhs a.rhs dot found
  exact Option.bind_fun_some _

/-- A series with one more label at its end. -/
theorem advanceAll_concat (dot : Nat) (a : Advance L) (founds : List L) (found : L) :
    advanceAll dot a (founds ++ [found]) =
      (advanceAll dot a founds).bind fun a' =>
        advance a'.lhs a'.rhs (dot + founds.length) found := by
  rw [advanceAll_append]
  exact Option.bind_congr fun a' _ => advanceAll_singleton _ _ _

end Label

end ChartParsing
