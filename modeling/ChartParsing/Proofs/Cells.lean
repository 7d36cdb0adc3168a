/-
ChartParsing/Proofs/Cells.lean

Lists put together from cells of one width.

Such a list is as long as its cells are many times the width, and the `k`th cell
begins at `k * width` (`drop_flatten_cells`), so that what stands at a place of
the list can be looked up in its cell (`getElem?_flatten_cells`).
-/
import Mathlib.Data.List.Basic

namespace ChartParsing

variable {α : Type} {width : Nat} {cells : List (List α)}

theorem length_flatten_cells (hcells : ∀ cell ∈ cells, cell.length = width) :
    cells.flatten.length = cells.length * width := by
  have hlengths : cells.map List.length = List.replicate cells.length width :=
    List.eq_replicate_iff.2 ⟨List.length_map _, by simpa using hcells⟩
  rw [List.length_flatten, hlengths, List.sum_replicate_nat]

/-- Past the first `k` cells come the others. -/
theorem drop_flatten_cells (hcells : ∀ cell ∈ cells, cell.length = width) (k : Nat) :
    cells.flatten.drop (k * width) = (cells.drop k).flatten := by
  induction cells generalizing k with
  | nil => simp
  | cons cell cells ih =>
    obtain ⟨hcell, hcells⟩ := List.forall_mem_cons.1 hcells
    cases k with
    | zero => rw [Nat.zero_mul, List.drop_zero, List.drop_zero]
    | succ k =>
      rw [Nat.succ_mul, Nat.add_comm, ← List.drop_drop, List.flatten_cons,
        List.drop_left' hcell, ih hcells, List.drop_succ_cons]

/-- What stands at place `i` of the `k`th cell. -/
theorem getElem?_flatten_cells (hcells : ∀ cell ∈ cells, cell.length = width) {k i : Nat}
    {cell : List α} (hk : cells[k]? = some cell) (hi : i < width) :
    cells.flatten[k * width + i]? = cell[i]? := by
  obtain ⟨hlt, rfl⟩ := List.getElem?_eq_some_iff.1 hk
  have hlength : i < cells[k].length := by rwa [hcells _ (List.getElem_mem hlt)]
  rw [← List.getElem?_drop, drop_flatten_cells hcells, List.drop_eq_getElem_cons hlt,
    List.flatten_cons, List.getElem?_append_left hlength]

end ChartParsing
