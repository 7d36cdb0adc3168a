/-
ChartParsing/Roster.lean

Rosters: distinct values in order of arrival.

A value that comes again is not taken in again.  A roster is read through one
view, `toList`:

    (r.enter a).toList = r.toList           if a is among them already
    (r.enter a).toList = r.toList ++ [a]    otherwise

(`toList_enter`).  Beside the list a roster keeps its members in a search tree,
so that a newcomer need not be compared with all of them; that the two agree is
part of the type.
-/
import Std.Data.TreeSet.Lemmas

namespace ChartParsing

/-- Distinct values, the latest first, and the same values for searching. -/
structure Roster (α : Type) [Ord α] where
  latestFirst : List α
  members : Std.TreeSet α
  mem_members : ∀ a, a ∈ members ↔ a ∈ latestFirst
  nodup : latestFirst.Nodup

namespace Roster

variable {α : Type} [Ord α]

/-- Nobody on the roster. -/
def empty : Roster α := ⟨[], ∅, fun _ => by simp, .nil⟩

/-- The values, in order of arrival. -/
def toList (r : Roster α) : List α := r.latestFirst.reverse

/-- The number of values. -/
def size (r : Roster α) : Nat := r.latestFirst.length

/-- Whether a value is among them. -/
def contains (r : Roster α) (a : α) : Bool := r.members.contains a

theorem contains_iff_mem (r : Roster α) (a : α) : r.contains a = true ↔ a ∈ r.toList := by
  rw [contains, ← Std.TreeSet.mem_iff_contains, r.mem_members, toList, List.mem_reverse]

theorem size_eq_length_toList (r : Roster α) : r.size = r.toList.length := by
  simp [size, toList]

theorem nodup_toList (r : Roster α) : r.toList.Nodup :=
  List.pairwise_reverse.2 (r.nodup.imp Ne.symm)

@[simp] theorem toList_empty : (empty : Roster α).toList = [] := rfl

variable [Std.TransOrd α] [Std.LawfulEqOrd α]

/-- Takes a value in, behind the others, unless it is among them. -/
def enter (r : Roster α) (a : α) : Roster α :=
  match h : r.contains a with
  | true => r
  | false =>
    { latestFirst := a :: r.latestFirst
      members := r.members.insert a
      mem_members := fun b => by
        rw [Std.TreeSet.mem_insert, Std.LawfulEqOrd.compare_eq_iff_eq, r.mem_members,
          List.mem_cons, eq_comm]
      nodup := by
        refine List.nodup_cons.2 ⟨fun hmem => ?_, r.nodup⟩
        have hin := (r.contains_iff_mem a).2 (List.mem_reverse.2 hmem)
        rw [h] at hin
        cases hin }

/-- Takes values in, one after the other. -/
def enterAll (r : Roster α) (as : List α) : Roster α := as.foldl enter r

theorem toList_enter [DecidableEq α] (r : Roster α) (a : α) :
    (r.enter a).toList = if a ∈ r.toList then r.toList else r.toList ++ [a] := by
  rw [enter]
  split
  · rename_i h
    rw [if_pos ((r.contains_iff_mem a).1 h)]
  · rename_i h
    have hnot : a ∉ r.toList := fun hmem => by
      rw [(r.contains_iff_mem a).2 hmem] at h
      cases h
    rw [if_neg hnot]
    simp [toList]

end Roster

end ChartParsing
