/-
ChartParsing/Tree/Odometer.lean

Every way to choose one element from each of several lists.

The digits of an odometer say which element is chosen from each list.  The
last digit turns fastest; a digit that has come round is set back and carries
to the one before it.  When the first digit has come round, or if some list is
empty from the start, nothing is left to choose.
-/

namespace ChartParsing

/-- Lists to choose from, and the digits of the next choice, if there is one. -/
structure Odometer (α : Type) where
  choices : List (Array α)
  digits : Option (List Nat)

namespace Odometer

variable {α : Type}

/-- All digits at zero, unless some list has nothing to offer. -/
def start (choices : List (List α)) : Odometer α where
  choices := choices.map List.toArray
  digits := if choices.any List.isEmpty then none else some (choices.map fun _ => 0)

/-- The elements at the digits. -/
def chosen : List (Array α) → List Nat → List α
  | xs :: xss, d :: ds => xs[d]?.toList ++ chosen xss ds
  | _, _ => []

/-- Turns the last digit on by one, carrying to the left; nothing after the last choice. -/
def turn : List (Array α) → List Nat → Option (List Nat)
  | xs :: xss, d :: ds =>
    match turn xss ds with
    | some ds => some (d :: ds)
    | none => if d + 1 < xs.size then some ((d + 1) :: xss.map fun _ => 0) else none
  | _, _ => none

/-- The choice at the digits, with the odometer turned on. -/
def next? (o : Odometer α) : Option (List α × Odometer α) :=
  o.digits.map fun ds => (chosen o.choices ds, { o with digits := turn o.choices ds })

/-- The choices in `taken`, followed by the next ones, at most `limit` of them. -/
def takeOnto : (limit : Nat) → (taken : Array (List α)) → Odometer α → Array (List α)
  | 0, taken, _ => taken
  | limit + 1, taken, o =>
    match o.next? with
    | none => taken
    | some (choice, o) => takeOnto limit (taken.push choice) o

/-- The next choices, at most `limit` of them. -/
def take (limit : Nat) (o : Odometer α) : List (List α) := (takeOnto limit #[] o).toList

theorem toList_takeOnto (limit : Nat) (taken : Array (List α)) (o : Odometer α) :
    (takeOnto limit taken o).toList = taken.toList ++ take limit o := by
  induction limit generalizing taken o with
  | zero => simp [takeOnto, take]
  | succ limit ih =>
    rw [take, takeOnto, takeOnto]
    cases h : o.next? with
    | none => simp
    | some step => simp [ih]

/-- Taking goes choice by choice. -/
theorem take_succ (limit : Nat) (o : Odometer α) :
    take (limit + 1) o =
      match o.next? with
      | none => []
      | some (choice, o) => choice :: take limit o := by
  rw [take, takeOnto]
  cases h : o.next? with
  | none => rfl
  | some step => simp [toList_takeOnto]

/-- How many choices there are: the product of the lengths. -/
def total (choices : List (List α)) : Nat := choices.foldr (fun xs n => xs.length * n) 1

/-- Every choice, the last list varying fastest. -/
def all (choices : List (List α)) : List (List α) := (start choices).take (total choices)

end Odometer

end ChartParsing
