/-
ChartParsing/Proofs/Tree/Extraction.lean

Reading trees off a chart, with results kept, is plain enumeration.

Nothing about the order in which edges are visited shows in the result: it is
the list of the trees of the edge on whose paths no edge occurs twice, list by
list and choice by choice.  This holds of every chart that insertions lead to,
also where edges are their own descendants.
-/
import ChartParsing.Proofs.Chart.Insertion
import ChartParsing.Proofs.Tree.Visit

namespace ChartParsing

variable {L : Type} [Label L]

/-- Reading the trees of an edge gives the trees that a plain enumeration gives,
unless a leaf past the tokens is reached; then reading fails at such a leaf. -/
theorem Chart.WellFormed.trees_spec {c : Chart L} (hwf : c.WellFormed) (complete : Bool)
    {id : EdgeId} (hid : id < c.size) :
    (c.trees id complete = .ok (c.treesAvoiding complete ∅ id) ∧
        ∀ x, c.Reaches complete id x → ¬ c.Stray x) ∨
      ∃ x, c.trees id complete = .error (.edgeNotInChart x) ∧ c.Reaches complete id x ∧
        c.Stray x := by
  rcases Reading.visit_spec hwf (c.size + 1) [] (by rw [List.length_nil]; omega) id hid
      .nothing .nothing with ⟨⟨found, v⟩, hrun, -, hfinds⟩ | ⟨x, hrun, hx⟩
  · have hblockers : Chart.blockers [] found.blockedAt = ∅ := by
      cases found.blockedAt with
      | none => rfl
      | some d => rw [Chart.blockers, List.drop_nil, List.toFinset_nil]
    rw [hblockers] at hfinds
    have hall : found.readings.filter (Reading.avoids ∅) = found.readings := by
      refine List.filter_eq_self.2 fun r _ => ?_
      exact Reading.avoids_eq_true_iff.2 fun x _ => Finset.notMem_empty x
    refine .inl ⟨?_, fun x hreaches hstray => ?_⟩
    · rw [Chart.trees, hrun]
      show Except.ok (found.readings.map Reading.tree) = _
      rw [← hall, hfinds.filter_eq, Chart.map_tree_readings]
    · exact hfinds.not_strays (Chart.strays_empty_iff.2 ⟨x, hreaches, hstray⟩)
  · refine .inr ⟨x, ?_, hx⟩
    rw [Chart.trees, hrun]

variable [DecidableEq L]

/-- In every chart that insertions lead to, the trees of an edge are those that
a plain enumeration gives, in its order.  Reading them fails exactly if a leaf
past the tokens is reached, and at such a leaf. -/
theorem Chart.Built.trees_eq_treesAvoiding {c : Chart L} (hc : c.Built) (complete : Bool)
    {id : EdgeId} (hid : id < c.size) :
    ((¬ ∃ x, c.Reaches complete id x ∧ c.Stray x) →
        c.trees id complete = .ok (c.treesAvoiding complete ∅ id)) ∧
      ((∃ x, c.Reaches complete id x ∧ c.Stray x) →
        ∃ x, c.Reaches complete id x ∧ c.Stray x ∧
          c.trees id complete = .error (.edgeNotInChart x)) := by
  rcases hc.wellFormed.trees_spec complete hid with ⟨htrees, hclear⟩ | ⟨x, htrees, hx⟩
  · exact ⟨fun _ => htrees, fun ⟨x, hreaches, hstray⟩ => absurd hstray (hclear x hreaches)⟩
  · exact ⟨fun h => absurd ⟨x, hx⟩ h, fun _ => ⟨x, hx.1, hx.2, htrees⟩⟩

/-- An edge may be among its own children, and the trees through it are cut. -/
theorem Chart.Built.trees_eq_treesAvoiding_self_reference :
    ∃ c : Chart Symbol, c.Built ∧ 1 < c.size ∧
      c.trees 1 true = .ok (c.treesAvoiding true ∅ 1) ∧
        c.treesAvoiding true ∅ 1 = [.node (.nonterminal "S") [.leaf "x"]] := by
  have hbuilt : ∃ (c c' : Chart Symbol) (id? id?' : Option EdgeId),
      (Chart.new ["x"]).insert (.leaf "x" 0) [[]] = .ok (c, id?) ∧
        c.insert ⟨0, 1, .nonterminal "S", [.nonterminal "S"], 1, by decide, by decide⟩ [[0], [1]] =
            .ok (c', id?') ∧
          1 < c'.size ∧ c'.trees 1 true = .ok [.node (.nonterminal "S") [.leaf "x"]] :=
    ⟨_, _, _, _, rfl, rfl, by decide, rfl⟩
  obtain ⟨c, c', _, _, hleaf, hloop, hsize, htrees⟩ := hbuilt
  have hc : c'.Built := .insert (.insert (.new _) hleaf) hloop
  obtain ⟨hok, herror⟩ := hc.trees_eq_treesAvoiding true hsize
  have hclear : ¬ ∃ x, c'.Reaches true 1 x ∧ c'.Stray x := by
    intro hstray
    obtain ⟨x, -, -, hfails⟩ := herror hstray
    rw [htrees] at hfails
    cases hfails
  have heq := hok hclear
  rw [htrees] at heq
  exact ⟨c', hc, hsize, hok hclear, (Except.ok.inj heq).symm⟩

end ChartParsing
