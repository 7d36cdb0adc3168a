/-
ChartParsing/Queue.lean

Queues: what comes in first goes out first.

A queue keeps its end turned round, so that joining it costs no more than
leaving it.  It is read through one view, `toList`, the waiting elements in
the order in which they will leave.
-/

namespace ChartParsing

/-- The elements at the front in order, and those at the end in reverse order. -/
structure Queue (α : Type) where
  front : List α
  turned : List α

namespace Queue

variable {α : Type}

/-- The waiting elements, the next one first. -/
def toList (q : Queue α) : List α := q.front ++ q.turned.reverse

/-- The queue of these elements. -/
def ofList (as : List α) : Queue α := ⟨as, []⟩

/-- Whether nobody waits. -/
def isEmpty (q : Queue α) : Bool := q.front.isEmpty && q.turned.isEmpty

/-- The queue with more elements at its end. -/
def join (q : Queue α) (as : List α) : Queue α := ⟨q.front, as.reverse ++ q.turned⟩

/-- The next element, and the queue without it. -/
def next? (q : Queue α) : Option (α × Queue α) :=
  match q.front with
  | a :: front => some (a, ⟨front, q.turned⟩)
  | [] =>
    match q.turned.reverse with
    | a :: front => some (a, ⟨front, []⟩)
    | [] => none

@[simp] theorem toList_ofList (as : List α) : (ofList as).toList = as := by simp [ofList, toList]

@[simp] theorem toList_join (q : Queue α) (as : List α) : (q.join as).toList = q.toList ++ as := by
  simp [join, toList]

theorem isEmpty_iff (q : Queue α) : q.isEmpty = true ↔ q.toList = [] := by
  simp [isEmpty, toList]

/-- The next element is the first that waits. -/
theorem next?_map_toList (q : Queue α) :
    q.next?.map (fun p => p.1 :: p.2.toList) = if q.toList = [] then none else some q.toList := by
  obtain ⟨front, turned⟩ := q
  cases front with
  | cons a front => simp [next?, toList]
  | nil =>
    cases h : turned.reverse with
    | nil => simp [next?, toList, h]
    | cons a front => simp [next?, toList, h]

theorem next?_eq_none_iff {q : Queue α} : q.next? = none ↔ q.toList = [] := by
  rw [← Option.map_eq_none_iff, q.next?_map_toList]
  simp

theorem toList_of_next? {q rest : Queue α} {a : α} (h : q.next? = some (a, rest)) :
    q.toList = a :: rest.toList := by
  have hlist := q.next?_map_toList
  rw [h, Option.map_some] at hlist
  split at hlist
  · cases hlist
  · exact (Option.some.inj hlist).symm

end Queue

end ChartParsing
