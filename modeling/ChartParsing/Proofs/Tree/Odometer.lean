/-
ChartParsing/Proofs/Tree/Odometer.lean

An odometer, question by question.

Digits that are in range name one position in each list.  Their rank is the
number that they spell when the length of a list is the radix of its digit.
Ranks are ordered as the digits are lexicographically (`rank_lt_rank_iff`), so
no two choices of positions have the same rank, and no rank reaches the product
of the lengths.

Turning an odometer on adds one to the rank (`rank_turn`).  After `n` questions
it therefore stands at the digits of rank `n`, or it is past the last choice
(`standsAt_after`).  All that there is to say about the answers follows: they
are the choices of one element from each list, each once and in the order of
their positions, and then there are none for ever (`runsThrough_start`).
-/
import ChartParsing.Proofs.Tree.Combinations
import Mathlib.Algebra.BigOperators.Group.List.Basic
import Mathlib.Data.List.Lex
import Mathlib.Logic.Function.Iterate

namespace ChartParsing

namespace Odometer

variable {α : Type}

/-! ### The rank of digits -/

/-- The number that the digits spell; the radix of each is the length of its list. -/
def rank : List (List α) → List Nat → Nat
  | _ :: xss, d :: ds => d * total xss + rank xss ds
  | _, _ => 0

theorem total_eq_prod (xss : List (List α)) : total xss = (xss.map List.length).prod := by
  induction xss with
  | nil => rfl
  | cons xs xss ih =>
    rw [List.map_cons, List.prod_cons, ← ih]
    rfl

theorem rank_zero (xss : List (List α)) : rank xss (xss.map fun _ => 0) = 0 := by
  induction xss with
  | nil => rfl
  | cons xs xss ih => rw [List.map_cons, rank, ih, Nat.zero_mul]

/-- A higher digit weighs more than all the digits behind it. -/
theorem mul_add_lt_mul {d n t r : Nat} (hd : d < n) (hr : r < t) : d * t + r < n * t :=
  calc d * t + r < d * t + t := Nat.add_lt_add_left hr _
    _ = (d + 1) * t := (Nat.succ_mul d t).symm
    _ ≤ n * t := Nat.mul_le_mul_right t hd

theorem rank_lt_total {ds : List Nat} {xss : List (List α)} (h : InRange ds xss) :
    rank xss ds < total xss := by
  induction h with
  | nil => exact Nat.one_pos
  | cons hd _ ih => exact mul_add_lt_mul hd ih

theorem rank_lt_rank_of_lex {ds ds' : List Nat} {xss : List (List α)} (h : InRange ds xss)
    (h' : InRange ds' xss) (hlex : List.Lex (· < ·) ds ds') : rank xss ds < rank xss ds' := by
  induction hlex generalizing xss with
  | nil =>
    -- there are as many digits as lists, so neither side runs out first
    cases h
    cases h'
  | rel hlt =>
    cases h with
    | cons _ hrest =>
      exact Nat.lt_of_lt_of_le (mul_add_lt_mul hlt (rank_lt_total hrest)) (Nat.le_add_right _ _)
  | cons _ ih =>
    cases h with
    | cons _ hrest =>
      cases h' with
      | cons _ hrest' => exact Nat.add_lt_add_left (ih hrest hrest') _

/-- Digits of the same rank are the same. -/
theorem eq_of_rank_eq {ds ds' : List Nat} {xss : List (List α)} (h : InRange ds xss)
    (h' : InRange ds' xss) (heq : rank xss ds = rank xss ds') : ds = ds' := by
  rcases trichotomous_of (List.Lex (· < ·)) ds ds' with hlex | hsame | hlex
  · exact absurd heq (Nat.ne_of_lt (rank_lt_rank_of_lex h h' hlex))
  · exact hsame
  · exact absurd heq (Nat.ne_of_gt (rank_lt_rank_of_lex h' h hlex))

/-- Ranks are ordered as the digits are lexicographically. -/
theorem rank_lt_rank_iff {ds ds' : List Nat} {xss : List (List α)} (h : InRange ds xss)
    (h' : InRange ds' xss) : rank xss ds < rank xss ds' ↔ List.Lex (· < ·) ds ds' := by
  refine ⟨fun hlt => ?_, rank_lt_rank_of_lex h h'⟩
  rcases trichotomous_of (List.Lex (· < ·)) ds ds' with hlex | rfl | hlex
  · exact hlex
  · exact absurd hlt (Nat.lt_irrefl _)
  · exact absurd hlt (Nat.lt_asymm (rank_lt_rank_of_lex h' h hlex))

/-- What is still to come makes up for the rank. -/
theorem length_pending_add_rank {ds : List Nat} {xss : List (List α)} (h : InRange ds xss) :
    (pending xss ds).length + rank xss ds = total xss := by
  induction h with
  | nil => rfl
  | @cons d xs ds xss hd _ ih =>
    have hget : xs[d]? = some xs[d] := List.getElem?_eq_getElem hd
    -- behind the element at the digit there are `k` more
    obtain ⟨k, hk⟩ := Nat.exists_eq_add_of_le (Nat.succ_le_of_lt hd)
    have hlater : xs.length - (d + 1) = k := by rw [hk, Nat.add_sub_cancel_left]
    rw [pending, hget, Option.toList_some, List.flatMap_singleton, List.length_append,
      List.length_map, length_flatMap_cons, length_combinations, List.length_drop, hlater, rank]
    calc (pending xss ds).length + k * total xss + (d * total xss + rank xss ds)
        = d * total xss + ((pending xss ds).length + rank xss ds) + k * total xss := by omega
      _ = d * total xss + total xss + k * total xss := by rw [ih]
      _ = (d + 1 + k) * total xss := by rw [Nat.add_mul, Nat.add_mul, Nat.one_mul]
      _ = xs.length * total xss := by rw [hk]

/-- Turning on adds one to the rank, and after the last choice there is none. -/
theorem rank_turn {ds : List Nat} {xss : List (List α)} (h : InRange ds xss) :
    match turn (xss.map List.toArray) ds with
    | none => rank xss ds + 1 = total xss
    | some ds' => InRange ds' xss ∧ rank xss ds' = rank xss ds + 1 := by
  have hpending := pending_eq h
  have hlength := length_pending_add_rank h
  cases hturn : turn (xss.map List.toArray) ds with
  | none =>
    rw [hturn] at hpending
    change pending xss ds = [_] at hpending
    rw [hpending, List.length_singleton] at hlength
    exact (Nat.add_comm _ _).trans hlength
  | some ds' =>
    rw [hturn] at hpending
    obtain ⟨hfirst, hin⟩ := hpending
    -- one choice less is still to come
    have hlength' := length_pending_add_rank hin
    rw [hfirst, List.length_cons] at hlength
    exact ⟨hin, by omega⟩

/-! ### The choice at the digits -/

/-- The choice consists of the elements at these positions, one in each list. -/
def Picks (xss : List (List α)) (ds : List Nat) (choice : List α) : Prop :=
  choice.map some = List.zipWith (fun xs d => xs[d]?) xss ds

theorem picks_chosen {ds : List Nat} {xss : List (List α)} (h : InRange ds xss) :
    Picks xss ds (chosen (xss.map List.toArray) ds) := by
  induction h with
  | nil => rfl
  | @cons d xs ds xss hd _ ih =>
    have hget : xs[d]? = some xs[d] := List.getElem?_eq_getElem hd
    have hfirst : xs.toArray[d]?.toList = [xs[d]] := by simp [hget]
    rw [Picks, List.zipWith_cons_cons, ← ih, List.map_cons, chosen, hfirst, hget]
    rfl

theorem Picks.unique {ds : List Nat} {xss : List (List α)} {choice choice' : List α}
    (h : Picks xss ds choice) (h' : Picks xss ds choice') : choice = choice' :=
  List.map_injective_iff.2 (fun _ _ => Option.some.inj) (Eq.trans h (Eq.symm h'))

/-! ### Questions -/

/-- Asks for the next choice.  An odometer that has none stays as it is. -/
def ask (o : Odometer α) : Option (List α) × Odometer α :=
  match o.next? with
  | none => (none, o)
  | some (choice, o) => (some choice, o)

/-- The odometer after so many questions. -/
def after (o : Odometer α) (n : Nat) : Odometer α := (fun o : Odometer α => o.ask.2)^[n] o

/-- The answer that comes after so many others. -/
def answer (o : Odometer α) (n : Nat) : Option (List α) := (o.after n).ask.1

theorem after_succ (o : Odometer α) (n : Nat) : o.after (n + 1) = (o.after n).ask.2 :=
  Function.iterate_succ_apply' _ n o

theorem answer_succ (o : Odometer α) (n : Nat) : o.answer (n + 1) = o.ask.2.answer n := rfl

theorem answer_of_next?_eq_none {o : Odometer α} (h : o.next? = none) (n : Nat) :
    o.answer n = none := by
  have hask : o.ask = (none, o) := by rw [ask, h]
  induction n with
  | zero => exact congrArg Prod.fst hask
  | succ n ih => rw [answer_succ, hask, ih]

/-- Taking choices is asking for them. -/
theorem getElem?_take (o : Odometer α) (limit n : Nat) :
    (take limit o)[n]? = if n < limit then o.answer n else none := by
  induction limit generalizing o n with
  | zero => rfl
  | succ limit ih =>
    rw [take_succ]
    cases hnext : o.next? with
    | none => simp [answer_of_next?_eq_none hnext]
    | some step =>
      obtain ⟨choice, o'⟩ := step
      have hask : o.ask = (some choice, o') := by rw [ask, hnext]
      cases n with
      | zero => exact (congrArg Prod.fst hask).symm
      | succ n => simp only [List.getElem?_cons_succ, ih, answer_succ, hask, Nat.succ_lt_succ_iff]

/-! ### Where an odometer stands -/

/-- The odometer stands at the digits of rank `n`, or there are none of that rank. -/
inductive StandsAt (xss : List (List α)) (n : Nat) : Odometer α → Prop
  | digits {ds : List Nat} : InRange ds xss → rank xss ds = n →
      StandsAt xss n ⟨xss.map List.toArray, some ds⟩
  | past : total xss ≤ n → StandsAt xss n ⟨xss.map List.toArray, none⟩

theorem standsAt_start (xss : List (List α)) : StandsAt xss 0 (start xss) := by
  rw [start]
  by_cases hempty : xss.any List.isEmpty = true
  · have hmem : [] ∈ xss := by simpa using hempty
    rw [if_pos hempty]
    refine .past (Nat.le_of_eq ?_)
    rw [← length_combinations, combinations_eq_nil hmem, List.length_nil]
  · rw [if_neg hempty]
    refine .digits (inRange_zero fun xs hxs hnil => hempty ?_) (rank_zero xss)
    exact List.any_eq_true.2 ⟨xs, hxs, List.isEmpty_iff.2 hnil⟩

namespace StandsAt

variable {xss : List (List α)} {n : Nat} {o : Odometer α}

theorem ask (h : StandsAt xss n o) : StandsAt xss (n + 1) o.ask.2 := by
  cases h with
  | @digits ds hin hrank =>
    have hturn := rank_turn hin
    show StandsAt xss (n + 1) ⟨xss.map List.toArray, turn (xss.map List.toArray) ds⟩
    cases h : turn (xss.map List.toArray) ds with
    | none =>
      rw [h] at hturn
      exact .past (Nat.le_of_eq (hrank ▸ hturn.symm))
    | some ds' =>
      rw [h] at hturn
      exact .digits hturn.1 (hrank ▸ hturn.2)
  | past hle => exact .past (Nat.le_succ_of_le hle)

theorem choices_eq (h : StandsAt xss n o) : o.choices = xss.map List.toArray := by
  cases h <;> rfl

theorem digits_eq_some_iff (h : StandsAt xss n o) {ds : List Nat} :
    o.digits = some ds ↔ InRange ds xss ∧ rank xss ds = n := by
  cases h with
  | @digits ds' hin hrank =>
    constructor
    · rintro ⟨⟩
      exact ⟨hin, hrank⟩
    · rintro ⟨hin', hrank'⟩
      exact congrArg some (eq_of_rank_eq hin hin' (hrank.trans hrank'.symm))
  | past hle =>
    refine ⟨fun h => (nomatch h), ?_⟩
    rintro ⟨hin, rfl⟩
    exact absurd (rank_lt_total hin) (Nat.not_lt_of_le hle)

theorem ask_eq_some_iff (h : StandsAt xss n o) {choice : List α} :
    o.ask.1 = some choice ↔ ∃ ds, o.digits = some ds ∧ Picks xss ds choice := by
  cases h with
  | @digits ds hin =>
    show some (chosen (xss.map List.toArray) ds) = some choice ↔ _
    constructor
    · rintro ⟨⟩
      exact ⟨ds, rfl, picks_chosen hin⟩
    · rintro ⟨_, ⟨⟩, hpicks⟩
      exact congrArg some ((picks_chosen hin).unique hpicks)
  | past => exact ⟨fun h => (nomatch h), fun ⟨_, h, _⟩ => (nomatch h)⟩

theorem ask_eq_none_iff (h : StandsAt xss n o) : o.ask.1 = none ↔ total xss ≤ n := by
  cases h with
  | digits hin hrank =>
    refine ⟨fun h => (nomatch h), fun hle => ?_⟩
    exact absurd (rank_lt_total hin) (Nat.not_lt_of_le (hrank ▸ hle))
  | past hle => exact ⟨fun _ => hle, fun _ => rfl⟩

end StandsAt

theorem standsAt_after (xss : List (List α)) (n : Nat) : StandsAt xss n ((start xss).after n) := by
  induction n with
  | zero => exact standsAt_start xss
  | succ n ih =>
    rw [after_succ]
    exact ih.ask

/-! ### All the answers -/

/-- The odometer answers with every choice of one element from each list, once
and in the order of the positions, and then no more. -/
structure RunsThrough (xss : List (List α)) (o : Odometer α) : Prop where
  /-- The lists stay the same, and the digits in range of each of them. -/
  inRange : ∀ n, (o.after n).choices = xss.map List.toArray ∧
    ∀ ds, (o.after n).digits = some ds → InRange ds xss
  /-- An answer is the choice at the digits. -/
  answers : ∀ n choice, o.answer n = some choice ↔
    ∃ ds, (o.after n).digits = some ds ∧ Picks xss ds choice
  /-- All positions come up, and each only once. -/
  once : ∀ ds, InRange ds xss → ∃! n, (o.after n).digits = some ds
  /-- Positions come up in their lexicographic order. -/
  ordered : ∀ m n ds ds', (o.after m).digits = some ds → (o.after n).digits = some ds' →
    (m < n ↔ List.Lex (· < ·) ds ds')
  /-- There are as many answers as the product of the lengths, and none for ever after. -/
  ends : ∀ n, o.answer n = none ↔ (xss.map List.length).prod ≤ n
  /-- From no lists there is one choice, of nothing. -/
  ofNone : xss = [] → o.answer 0 = some []
  /-- Where a list is empty there is no choice. -/
  ofEmpty : [] ∈ xss → ∀ n, o.answer n = none
  /-- To take them all is to ask until there are no more. -/
  all : ∀ n, (Odometer.all xss)[n]? = o.answer n

/-- A new odometer runs through the choices. -/
theorem runsThrough_start (xss : List (List α)) : RunsThrough xss (start xss) := by
  have hstands := standsAt_after xss
  have hnone : ∀ n, (start xss).answer n = none ↔ total xss ≤ n := fun n =>
    (hstands n).ask_eq_none_iff
  constructor
  case inRange =>
    exact fun n => ⟨(hstands n).choices_eq, fun ds h => ((hstands n).digits_eq_some_iff.1 h).1⟩
  case answers => exact fun n choice => (hstands n).ask_eq_some_iff
  case once =>
    intro ds hin
    refine ⟨rank xss ds, (hstands _).digits_eq_some_iff.2 ⟨hin, rfl⟩, fun n h => ?_⟩
    exact ((hstands n).digits_eq_some_iff.1 h).2.symm
  case ordered =>
    intro m n ds ds' h h'
    obtain ⟨hin, rfl⟩ := (hstands m).digits_eq_some_iff.1 h
    obtain ⟨hin', rfl⟩ := (hstands n).digits_eq_some_iff.1 h'
    exact rank_lt_rank_iff hin hin'
  case ends => exact fun n => total_eq_prod xss ▸ hnone n
  case ofNone =>
    rintro rfl
    rfl
  case ofEmpty =>
    intro hmem n
    have htotal : total xss = 0 := by
      rw [← length_combinations, combinations_eq_nil hmem, List.length_nil]
    exact (hnone n).2 (htotal ▸ Nat.zero_le n)
  case all =>
    intro n
    rw [Odometer.all, getElem?_take]
    split
    · rfl
    · rename_i hlt
      exact ((hnone n).2 (Nat.le_of_not_lt hlt)).symm

example : (List.range 6).map (start [[1, 2], [3], [4, 5]]).answer =
    [some [1, 3, 4], some [1, 3, 5], some [2, 3, 4], some [2, 3, 5], none, none] := by decide

end Odometer

end ChartParsing
