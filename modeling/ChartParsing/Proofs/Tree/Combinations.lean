/-
ChartParsing/Proofs/Tree/Combinations.lean

What an odometer runs through.

`combinations` says by recursion which choices there are and in which order,
the last list varying fastest.  An odometer comes to the same list
(`Odometer.all_eq_combinations`): what is still to come from any digits on is
the choice at the digits, followed by what is to come from the next ones
(`pending_eq`).
-/
import ChartParsing.Tree.Odometer
import Mathlib.Data.List.Forall2
import Mathlib.Data.List.Nodup

namespace ChartParsing

variable {α β : Type}

/-- The ways to choose one element from each list, the last list varying fastest. -/
def combinations : List (List α) → List (List α)
  | [] => [[]]
  | xs :: xss => xs.flatMap fun x => (combinations xss).map (x :: ·)

/-! ### Choices -/

theorem mem_combinations {xss : List (List α)} {choice : List α} :
    choice ∈ combinations xss ↔ List.Forall₂ (· ∈ ·) choice xss := by
  induction xss generalizing choice with
  | nil => simp [combinations]
  | cons xs xss ih =>
    simp only [combinations, List.mem_flatMap, List.mem_map, ih, List.forall₂_cons_right_iff]
    constructor
    · rintro ⟨x, hx, rest, hrest, rfl⟩
      exact ⟨x, rest, hx, hrest, rfl⟩
    · rintro ⟨x, rest, hx, hrest, rfl⟩
      exact ⟨x, hx, rest, hrest, rfl⟩

theorem length_flatMap_cons (xs : List α) (choices : List (List α)) :
    (xs.flatMap fun x => choices.map (x :: ·)).length = xs.length * choices.length := by
  simp only [List.length_flatMap, List.length_map, List.map_const', List.sum_replicate_nat]

theorem length_combinations (xss : List (List α)) :
    (combinations xss).length = Odometer.total xss := by
  induction xss with
  | nil => rfl
  | cons xs xss ih =>
    rw [combinations, length_flatMap_cons, ih]
    rfl

theorem combinations_map (f : α → β) (xss : List (List α)) :
    combinations (xss.map fun xs => xs.map f) = (combinations xss).map fun choice =>
      choice.map f := by
  induction xss with
  | nil => rfl
  | cons xs xss ih =>
    simp only [List.map_cons, combinations, ih, List.flatMap_map, List.map_flatMap, List.map_map,
      Function.comp_def]

/-- The choices that consist of such elements are the choices among such elements. -/
theorem combinations_filter (p : α → Bool) (xss : List (List α)) :
    combinations (xss.map fun xs => xs.filter p) = (combinations xss).filter fun choice =>
      choice.all p := by
  induction xss with
  | nil => rfl
  | cons xs xss ih =>
    -- the outer choice is filtered element by element
    simp only [List.map_cons, combinations, ih]
    induction xs with
    | nil => rfl
    | cons x xs ihxs =>
      rw [List.flatMap_cons, List.filter_append, ← ihxs, List.filter_map, List.filter_cons]
      cases hx : p x with
      | true => simp [Function.comp_def, hx]
      | false => simp [Function.comp_def, hx]

/-- Choices among distinct elements are distinct. -/
theorem nodup_combinations {xss : List (List α)} (h : ∀ xs ∈ xss, xs.Nodup) :
    (combinations xss).Nodup := by
  induction xss with
  | nil => exact List.nodup_singleton _
  | cons xs xss ih =>
    obtain ⟨hxs, hxss⟩ := List.forall_mem_cons.1 h
    rw [combinations, List.nodup_flatMap]
    refine ⟨fun x _ => (ih hxss).map List.cons_injective, List.Pairwise.imp ?_ hxs⟩
    intro x y hne choice hx hy
    obtain ⟨rest, -, rfl⟩ := List.mem_map.1 hx
    obtain ⟨rest', -, heq⟩ := List.mem_map.1 hy
    exact hne (List.cons.inj heq).1.symm

theorem combinations_eq_nil {xss : List (List α)} (h : [] ∈ xss) : combinations xss = [] := by
  induction xss with
  | nil => cases h
  | cons xs xss ih =>
    rw [combinations]
    rcases List.mem_cons.1 h with rfl | h
    · rfl
    · rw [ih h, List.flatMap_eq_nil_iff]
      exact fun _ _ => rfl

/-! ### Odometers -/

namespace Odometer

/-- The choices from the digits on. -/
def pending : List (List α) → List Nat → List (List α)
  | xs :: xss, d :: ds =>
    (xs[d]?.toList.flatMap fun x => (pending xss ds).map (x :: ·)) ++
      (xs.drop (d + 1)).flatMap fun x => (combinations xss).map (x :: ·)
  | _, _ => [[]]

/-- All is still to come when the digits are at zero. -/
theorem pending_zero (xss : List (List α)) :
    pending xss (xss.map fun _ => 0) = combinations xss := by
  induction xss with
  | nil => rfl
  | cons xs xss ih =>
    rw [List.map_cons, pending, ih, combinations]
    cases xs with
    | nil => rfl
    | cons x xs => simp

/-- Every digit names an element of its list. -/
abbrev InRange (ds : List Nat) (xss : List (List α)) : Prop :=
  List.Forall₂ (fun d xs => d < xs.length) ds xss

theorem inRange_zero {xss : List (List α)} (h : ∀ xs ∈ xss, xs ≠ []) :
    InRange (xss.map fun _ => 0) xss := by
  induction xss with
  | nil => exact .nil
  | cons xs xss ih =>
    refine .cons (List.length_pos_iff.2 (h xs List.mem_cons_self)) (ih fun ys hys => ?_)
    exact h ys (List.mem_cons_of_mem _ hys)

theorem InRange.ne_nil {ds : List Nat} {xss : List (List α)} (h : InRange ds xss) :
    ∀ xs ∈ xss, xs ≠ [] := by
  induction h with
  | nil => exact fun _ h => nomatch h
  | cons hd _ ih =>
    intro ys hys
    rcases List.mem_cons.1 hys with rfl | hys
    · exact List.ne_nil_of_length_pos (Nat.zero_lt_of_lt hd)
    · exact ih ys hys

/-- The choice at the digits comes first, then those from the next digits on. -/
theorem pending_eq {ds : List Nat} {xss : List (List α)} (h : InRange ds xss) :
    match turn (xss.map List.toArray) ds with
    | none => pending xss ds = [chosen (xss.map List.toArray) ds]
    | some ds' =>
      pending xss ds = chosen (xss.map List.toArray) ds :: pending xss ds' ∧ InRange ds' xss := by
  induction h with
  | nil => rfl
  | @cons d xs ds xss hd hrest ih =>
    have hget : xs[d]? = some xs[d] := List.getElem?_eq_getElem hd
    have hchosen : chosen ((xs :: xss).map List.toArray) (d :: ds) =
        xs[d] :: chosen (xss.map List.toArray) ds := by
      simp [chosen, hget]
    have hpending : ∀ ds', pending (xs :: xss) (d :: ds') = (pending xss ds').map (xs[d] :: ·) ++
        (xs.drop (d + 1)).flatMap fun x => (combinations xss).map (x :: ·) := by
      intro ds'
      rw [pending, hget, Option.toList_some, List.flatMap_singleton]
    rw [hchosen, hpending, List.map_cons, turn]
    cases hturn : turn (xss.map List.toArray) ds with
    | some ds' =>
      rw [hturn] at ih
      obtain ⟨hfirst, hin⟩ := ih
      refine ⟨?_, .cons hd hin⟩
      rw [hfirst, hpending]
      rfl
    | none =>
      -- the last digits have come round
      rw [hturn] at ih
      change pending xss ds = [_] at ih
      simp only [List.size_toArray, ih, List.map_cons, List.map_nil, List.map_map]
      by_cases hnext : d + 1 < xs.length
      · rw [if_pos hnext]
        have hzero : xss.map ((fun _ => 0) ∘ List.toArray) = xss.map fun _ => 0 := rfl
        have hget' : xs[d + 1]? = some xs[d + 1] := List.getElem?_eq_getElem hnext
        rw [hzero]
        refine ⟨?_, .cons hnext (inRange_zero (InRange.ne_nil hrest))⟩
        rw [pending, pending_zero, hget', List.drop_eq_getElem_cons hnext, List.flatMap_cons,
          Option.toList_some, List.flatMap_singleton]
        rfl
      · rw [if_neg hnext, List.drop_eq_nil_of_le (Nat.le_of_not_lt hnext)]
        rfl

theorem take_eq_take_pending {ds : List Nat} {xss : List (List α)} (h : InRange ds xss)
    (limit : Nat) :
    take limit ⟨xss.map List.toArray, some ds⟩ = (pending xss ds).take limit := by
  induction limit generalizing ds with
  | zero => rfl
  | succ limit ih =>
    have hpending := pending_eq h
    rw [take_succ]
    cases hturn : turn (xss.map List.toArray) ds with
    | none =>
      rw [hturn] at hpending
      change pending xss ds = [_] at hpending
      have hstop : take limit ⟨xss.map List.toArray, (none : Option (List Nat))⟩ = [] := by
        cases limit with
        | zero => rfl
        | succ limit => rw [take_succ]; rfl
      simp only [next?, Option.map_some, hturn, hpending, hstop]
      simp
    | some ds' =>
      rw [hturn] at hpending
      obtain ⟨hfirst, hin⟩ := hpending
      simp only [next?, Option.map_some, hturn, hfirst, ih hin, List.take_succ_cons]

/-- An odometer runs through the combinations. -/
theorem all_eq_combinations (xss : List (List α)) : all xss = combinations xss := by
  rw [all, start]
  by_cases hempty : xss.any List.isEmpty = true
  · have hmem : [] ∈ xss := by simpa using hempty
    rw [if_pos hempty, combinations_eq_nil hmem]
    cases total xss with
    | zero => rfl
    | succ n => rw [take_succ]; rfl
  · have hin : InRange (xss.map fun _ => 0) xss := by
      refine inRange_zero fun xs hxs hnil => hempty ?_
      exact List.any_eq_true.2 ⟨xs, hxs, List.isEmpty_iff.2 hnil⟩
    rw [if_neg hempty, take_eq_take_pending hin, pending_zero, ← length_combinations,
      List.take_length]

end Odometer

end ChartParsing
