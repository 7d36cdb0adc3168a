/-
ChartParsing/Proofs/Rule/Everywhere.lean

What applying a rule to every edge does to a chart.

The edges that the rule adds on the way are gone through as well.  They are
put together from the edges of the chart, the leaves and the productions, so
there are only so many (`Chart.Follows.within`), and when the last has had its
turn all that follows from what was there before has been inferred
(`Rule.applyEverywhere_spec`).
-/
import ChartParsing.Proofs.Rule.Apply

namespace ChartParsing

variable {L : Type} [Label L] [DecidableEq L] [LawfulLabel L]

namespace Chart

omit [DecidableEq L] in
/-- What comes from a chart by inferences stays within its seeds. -/
theorem Follows.within {g : Grammar L} {rules : List Rule} {c c' : Chart L}
    {changed : List EdgeId} (hwf : c.WellFormed)
    (h : Follows g.productions rules c c' changed) :
    ∀ e ∈ c'.edges, e.Within (c.seeds g) := by
  intro e he
  obtain ⟨es, hes⟩ := h.wellFormed.mem_edges_iff.1 he
  refine h.sound (fun x => x.1.Within (c.seeds g)) (fun rule _ => closedUnder_within ?_ ?_) ?_ _ hes
  · intro i t ht
    refine Edge.within_of_mem (List.mem_append_left _ (List.mem_append_right _ ?_))
    exact List.mem_map.2 ⟨(t, i), List.mem_zipIdx_iff_getElem?.2 ht, rfl⟩
  · intro p hp
    exact Edge.within_of_mem (List.mem_append_right _ (List.mem_map_of_mem hp))
  · intro x hx
    have hmem := hwf.mem_edges_iff.2 ⟨x.2, hx⟩
    exact Edge.within_of_mem (List.mem_append_left _ (List.mem_append_left _ hmem))

theorem Follows.size_lt {g : Grammar L} {rules : List Rule} {c c' : Chart L}
    {changed : List EdgeId} (hwf : c.WellFormed)
    (h : Follows g.productions rules c c' changed) :
    c'.size < Nat.pow 2 (Edge.capacityBits (c.seeds g) + 1) :=
  lt_pow_succ_of_le (size_le_pow_capacityBits h.wellFormed (h.within hwf))

end Chart

namespace Rule

/-- A rule applied to every edge, to those included that it adds. -/
theorem applyToAll_spec {c : Chart L} (hwf : c.WellFormed) {g : Grammar L} (hg : g.Indexed)
    {rule : Rule} (harity : rule.arity = 1) :
    ∃ s, rule.applyToAll g c = .ok s ∧ s.chart.remaining s.cursor = [] ∧
      Applied g.productions rule none c s.chart s.changed.toList := by
  obtain ⟨s, hrun, hgrows, ⟨before, hfollows⟩, hremaining, hdone⟩ :=
    Sweep.run_spec (fun d id => rule.apply g (some id) d) [] (Edge.capacityBits (c.seeds g) + 1)
      (I := fun d => ∃ changed, Chart.Follows g.productions [rule] c d changed)
      (D := fun d id => rule.Completes g.productions (some id) c d)
      (by
        rintro d id ⟨before, hd⟩ hid
        obtain ⟨e, he, -⟩ := Chart.mem_scan.1 hid
        obtain ⟨d', more, hrun, happlied⟩ :=
          apply_spec hd.wellFormed hg rule (some id) harity fun j hj =>
            Option.some.inj hj ▸ Chart.lt_size he
        refine ⟨d', more, hrun, happlied.grows, ⟨_, (hd.trans happlied.toFollows).mono ?_⟩, ?_⟩
        · intro r hr
          exact (List.mem_append.1 hr).elim (fun h => h) fun h => h
        · exact .mono hd.grows happlied.complete (.refl d'))
      (fun d d' changed id hgrows hD => .mono (.refl c) hD hgrows)
      (by
        rintro d ⟨changed, hd⟩
        rw [Chart.length_scan]
        refine Nat.lt_of_le_of_lt (List.length_filter_le _ _) ?_
        rw [← Chart.size_eq_length_edges]
        exact hd.size_lt hwf)
      ⟨[], .refl hwf⟩ trivial
  refine ⟨s, hrun, hremaining, ⟨hfollows.wellFormed, hgrows, hfollows.sound⟩, ?_⟩
  intro premises x hinfers hpremises _
  obtain ⟨y, hy⟩ := hinfers.exists_mem_premises harity
  obtain ⟨id, hid⟩ := List.mem_iff_getElem?.1 (hwf.mem_edges_iff.2 ⟨y.2, hpremises y hy⟩)
  -- the premise was there before, so the sweep has come to its edge
  have hscan : id ∈ s.chart.scan [] :=
    Chart.mem_scan.2 ⟨y.1, hgrows.getElem? hid, fun _ h => nomatch h⟩
  refine hdone id hscan premises x hinfers hpremises fun j hj => ?_
  obtain rfl : id = j := Option.some.inj hj
  exact ⟨y, hy, hid⟩

/-- A rule applied wherever it can be has inferred all that follows from what there was. -/
theorem applyEverywhere_spec {c : Chart L} (hwf : c.WellFormed) {g : Grammar L} (hg : g.Indexed)
    (rule : Rule) :
    ∃ c' changed, rule.applyEverywhere g c = .ok (c', changed) ∧
      Applied g.productions rule none c c' changed := by
  by_cases harity : rule.arity = 0
  · obtain ⟨c', changed, hrun, happlied⟩ :=
      apply_spec hwf hg rule none harity fun _ h => nomatch h
    exact ⟨c', changed, by rw [applyEverywhere, if_pos harity, hrun], happlied⟩
  · have hone : rule.arity = 1 := rule.arity_eq_zero_or_one.resolve_left harity
    obtain ⟨s, hrun, -, happlied⟩ := applyToAll_spec hwf hg hone
    exact ⟨s.chart, s.changed.toList, by rw [applyEverywhere, if_neg harity, hrun, ok_bind],
      happlied⟩

end Rule

end ChartParsing
