/-
ChartParsing/Proofs/Plain/Count.lean

How many edges a plain grammar allows.

An edge that the productions allow is a leaf over one of `n` tokens, or an
empty production at one of `n + 1` positions, or a production with its dot
behind one of its symbols, over one of `(n + 1) * (n + 2) / 2` spans.  A list
of all these edges (`allowedEdges`) is longer than any chart gets.
-/
import ChartParsing.Proofs.Plain.Edges

namespace ChartParsing

/-- The number of edges that the productions allow over `n` tokens, at most. -/
def edgeBound (productions : List (Production Symbol)) (n : Nat) : Nat :=
  n + ((productions.filter Production.isEmpty).map fun _ => n + 1).sum +
    ((productions.filter fun p => !p.isEmpty).map fun p =>
      p.rhs.length * ((n + 1) * (n + 2) / 2)).sum

/-- The spans within `n` tokens, each as a start and a length. -/
def spans (n : Nat) : List (Nat × Nat) :=
  (List.range (n + 1)).flatMap fun stop =>
    (List.range (stop + 1)).map fun start => (start, stop - start)

/-- The production with its dot behind each of its symbols, over each span. -/
def dottedEdges (n : Nat) (p : Production Symbol) : List (Edge Symbol) :=
  (List.range p.rhs.length).flatMap fun d =>
    (spans n).map fun s =>
      .dotted p.lhs (p.rhs.take (d + 1)) (p.rhs.drop (d + 1)) (Nat.le_add_right s.1 s.2)

/-- All edges that the productions can allow over the tokens. -/
def allowedEdges (productions : List (Production Symbol)) (tokens : List String) :
    List (Edge Symbol) :=
  tokens.zipIdx.map (fun t => .leaf t.1 t.2) ++
    (productions.filter Production.isEmpty).flatMap
      (fun p => (List.range (tokens.length + 1)).map (.ofProduction p)) ++
    (productions.filter fun p => !p.isEmpty).flatMap (dottedEdges tokens.length)

/-! ### Counting -/

theorem length_spans (n : Nat) : (spans n).length = (n + 1) * (n + 2) / 2 := by
  have hsum : ∀ n, (spans n).length * 2 = (n + 1) * (n + 2) := by
    intro n
    induction n with
    | zero => rfl
    | succ n ih =>
      have hstep : (spans (n + 1)).length = (spans n).length + (n + 2) := by
        rw [spans, List.range_succ, List.flatMap_append, List.length_append]
        simp [spans]
      rw [hstep, Nat.add_mul, ih, Nat.mul_comm (n + 1), ← Nat.mul_add]
  rw [← hsum n, Nat.mul_div_cancel _ (by decide)]

theorem length_dottedEdges (n : Nat) (p : Production Symbol) :
    (dottedEdges n p).length = p.rhs.length * ((n + 1) * (n + 2) / 2) := by
  rw [dottedEdges, List.length_flatMap]
  simp [length_spans]

theorem length_allowedEdges (productions : List (Production Symbol)) (tokens : List String) :
    (allowedEdges productions tokens).length = edgeBound productions tokens.length := by
  simp only [allowedEdges, edgeBound, List.length_append, List.length_map, List.length_zipIdx,
    List.length_flatMap, List.length_range, length_dottedEdges]

/-! ### Nothing is left out -/

variable {productions : List (Production Symbol)} {tokens : List String}

theorem mem_spans {n i j : Nat} (hij : i ≤ j) (hj : j ≤ n) : (i, j - i) ∈ spans n :=
  List.mem_flatMap.2 ⟨j, List.mem_range.2 (Nat.lt_succ_of_le hj),
    List.mem_map.2 ⟨i, List.mem_range.2 (Nat.lt_succ_of_le hij), rfl⟩⟩

theorem Licensed.mem_allowedEdges {e : Edge Symbol} (h : Licensed productions tokens e) :
    e ∈ allowedEdges productions tokens := by
  cases h with
  | @leaf i w hw =>
    refine List.mem_append_left _ (List.mem_append_left _ (List.mem_map.2 ⟨(w, i), ?_, rfl⟩))
    exact List.mem_zipIdx_iff_getElem?.2 hw
  | @empty p i hp hrhs hi =>
    refine List.mem_append_left _ (List.mem_append_right _ (List.mem_flatMap.2 ⟨p, ?_, ?_⟩))
    · exact List.mem_filter.2 ⟨hp, List.isEmpty_iff.2 hrhs⟩
    · exact List.mem_map_of_mem (List.mem_range.2 (Nat.lt_succ_of_le hi))
  | @dotted A α β i j hij hp hne hj _ =>
    have hsome : 0 < α.length := List.length_pos_iff.2 hne
    refine List.mem_append_right _ (List.mem_flatMap.2 ⟨⟨A, α ++ β⟩, ?_, ?_⟩)
    · refine List.mem_filter.2 ⟨hp, ?_⟩
      simp [Production.isEmpty, hne]
    -- the dot stands behind the last symbol of `α`
    · refine List.mem_flatMap.2 ⟨α.length - 1, List.mem_range.2 ?_,
        List.mem_map.2 ⟨(i, j - i), mem_spans hij hj, ?_⟩⟩
      · rw [List.length_append]
        omega
      · have htake : (α ++ β).take (α.length - 1 + 1) = α := by
          rw [Nat.sub_add_cancel hsome, List.take_left']
          rfl
        refine Edge.ext_parts rfl (Nat.add_sub_cancel' hij) rfl ?_ ?_
        · show (α ++ β).take _ ++ (α ++ β).drop _ = α ++ β
          exact List.take_append_drop _ _
        · show ((α ++ β).take _).length = α.length
          rw [htake]

/-- Over `n` tokens a chart never has more edges than the grammar allows. -/
theorem Chart.Follows.size_le_edgeBound {g : Grammar Symbol} {c : Chart Symbol}
    {changed : List EdgeId}
    (h : Follows g.productions bottomUpStrategy (new tokens) c changed) :
    c.size ≤ edgeBound g.productions tokens.length := by
  have hallowed : ∀ e ∈ c.edges, e ∈ allowedEdges g.productions tokens := by
    intro e he
    obtain ⟨es, hes⟩ := h.wellFormed.mem_edges_iff.1 he
    exact (h.justified hes).licensed.mem_allowedEdges
  rw [size_eq_length_edges, ← length_allowedEdges]
  exact (h.wellFormed.nodup.subperm hallowed).length_le

end ChartParsing
