/-
ChartParsing/Proofs/Relabel/Rule.lean

Rules on charts with other labels.

Cursors only know ids and values, so they deliver the same ids in the same
order; and what a rule offers is what it offered before, with the labels
exchanged.  So the rules change a chart at the same ids in the same order, and
the loops under cursors do as many rounds, for their bounds are the same too.
-/
import ChartParsing.Proofs.Relabel.Chart

namespace ChartParsing

variable {L L' : Type} [Label L] [Label L'] {f : L → L'} (hf : Relabelling f)

/-! ### Cursors -/

namespace Chart

variable (c : Chart L)

@[simp] theorem index?_relabel (attributes : List Attribute) :
    (c.relabel hf).index? attributes = c.index? attributes := rfl

@[simp] theorem reached_relabel (source : Source) :
    (c.relabel hf).reached source = c.reached source := by
  cases source with
  | all => exact congrArg List.range (size_relabel hf c)
  | bucket attributes values => rfl

@[simp] theorem remaining_relabel (cursor : Cursor) :
    (c.relabel hf).remaining cursor = c.remaining cursor := by
  rw [remaining, remaining, reached_relabel]

@[simp] theorem next?_relabel (cursor : Cursor) :
    (c.relabel hf).next? cursor = c.next? cursor := by
  rw [next?_eq_head?, next?_eq_head?, remaining_relabel]

@[simp] theorem scan_relabel (cs : List Constraint) : (c.relabel hf).scan cs = c.scan cs := by
  rw [scan, scan, edges_relabel, List.zipIdx_map, List.filterMap_map]
  refine List.filterMap_congr fun p _ => ?_
  show (if cs.all (fun k => k.holds (p.1.relabel f)) then some p.2 else none) = _
  simp only [hf.holds]

theorem ensureIndex_relabel (attributes : List Attribute) :
    (c.relabel hf).ensureIndex attributes = (c.ensureIndex attributes).relabel hf := by
  rw [ensureIndex, ensureIndex, index?_relabel]
  cases c.index? attributes with
  | some index => rfl
  | none =>
    refine ext_data rfl rfl rfl ?_
    show c.indexes ++ [Index.build attributes (c.relabel hf).edges] =
      c.indexes ++ [Index.build attributes c.edges]
    rw [edges_relabel, Index.build_relabel hf]

theorem select_relabel (cs : List Constraint) :
    (c.relabel hf).select cs = (c.select cs).map (relabelResult hf) := by
  rw [select, select]
  split
  · rfl
  · cases Constraint.arrange cs with
    | error x => rfl
    | ok cs => exact congrArg (fun d => Except.ok (d, _)) (c.ensureIndex_relabel hf _)

end Chart

/-! ### Sweeps -/

namespace Sweep

/-- The same sweep over the chart with other labels. -/
def relabel (s : Sweep L) : Sweep L' := ⟨s.chart.relabel hf, s.cursor, s.changed⟩

/-- Acts that correspond make sweeps that correspond. -/
theorem run_relabel {act : Act L} {act' : Act L'}
    (hact : ∀ (c : Chart L) id, act' (c.relabel hf) id =
      (act c id).map (Chart.relabelResult hf)) (bits : Nat) (c : Chart L) (cursor : Cursor) :
    run act' bits (c.relabel hf) cursor = (run act bits c cursor).map (relabel hf) := by
  refine rounds_map_comm (h := relabel hf) (fun s => ?_) (fun s => ?_) bits ⟨c, cursor, #[]⟩
  · show ((s.chart.relabel hf).next? s.cursor).isSome = (s.chart.next? s.cursor).isSome
    rw [Chart.next?_relabel]
  · obtain ⟨chart, cursor, changed⟩ := s
    show advance act' ⟨chart.relabel hf, cursor, changed⟩ = _
    rw [advance, advance, Chart.next?_relabel]
    cases chart.next? cursor with
    | none => rfl
    | some next => exact bind_map_comm (hact chart next.1) fun r => rfl

end Sweep

/-! ### What rules offer -/

namespace Chart

variable (c : Chart L)

theorem leafOffers_relabel :
    (c.relabel hf).leafOffers = c.leafOffers.map (relabelOffer f) := by
  rw [leafOffers, leafOffers, leafEdges_relabel, List.map_map, List.map_map]
  rfl

theorem emptyOffers_relabel {g : Grammar L} (hg : g.Indexed) :
    (c.relabel hf).emptyOffers (g.relabel f) = (c.emptyOffers g).map (relabelOffer f) := by
  have hempties : (g.relabel f).index.empties =
      g.index.empties.map (Production.relabel f) := by
    rw [hg]
    exact ProductionIndex.empties_relabel g.productions
  rw [emptyOffers, emptyOffers, hempties, List.flatMap_map, List.map_flatMap]
  refine List.flatMap_congr fun p _ => ?_
  rw [List.map_map]
  rfl

include hf in
theorem predictions_relabel {g : Grammar L} (hg : g.Indexed) (id : EdgeId) (e : Edge L) :
    predictions (g.relabel f) id (e.relabel f) =
      (predictions g id e).map (List.map (relabelOffer f)) := by
  have hfirst : (g.relabel f).index.withFirst (Label.key (f e.lhs)) =
      (g.index.withFirst (Label.key e.lhs)).map (Production.relabel f) := by
    rw [hf.key, hg]
    exact ProductionIndex.withFirst_relabel hf g.productions _
  have hadvances : ((g.relabel f).index.withFirst (Label.key (f e.lhs))).filterMap
      (fun p => Label.advance p.lhs p.rhs 0 (f e.lhs)) =
        ((g.index.withFirst (Label.key e.lhs)).filterMap fun p =>
          Label.advance p.lhs p.rhs 0 e.lhs).map (Advance.relabel f) := by
    rw [hfirst, List.filterMap_map, List.map_filterMap]
    exact List.filterMap_congr fun p _ => hf.advance p.lhs p.rhs 0 e.lhs
  show (((g.relabel f).index.withFirst (Label.key (f e.lhs))).filterMap
    fun p => Label.advance p.lhs p.rhs 0 (f e.lhs)).mapM _ = _
  rw [hadvances]
  refine mapM_map_comm (fun a => ?_) _
  exact bind_map_comm (Edge.make_relabel f e.start e.stop a.lhs a.rhs 1) fun new => rfl

include hf in
theorem partnerConstraints_relabel (e : Edge L) :
    partnerConstraints (e.relabel f) = partnerConstraints e := by
  rw [partnerConstraints, partnerConstraints, Edge.next?_relabel]
  cases e.next? with
  | none => exact congrArg (fun key => [_, _, Constraint.nextSymbol key]) (hf.key e.lhs)
  | some next => exact congrArg (fun key => [_, _, Constraint.lhs key]) (hf.key next)

theorem seeds_relabel (g : Grammar L) :
    (c.relabel hf).seeds (g.relabel f) = (c.seeds g).map (Edge.relabel f) := by
  rw [seeds, seeds, edges_relabel, leafEdges_relabel, Grammar.productions_relabel,
    List.map_append, List.map_append, List.map_map, List.map_map]
  rfl

variable [DecidableEq L] [DecidableEq L']

theorem combine_relabel (left right : EdgeId) :
    (c.relabel hf).combine left right = (c.combine left right).map (relabelResult hf) := by
  refine bind_map_comm (c.edge_relabel hf left) fun l => ?_
  refine bind_map_comm (c.edge_relabel hf right) fun r => ?_
  have hadvance : Label.advance (l.relabel f).lhs (l.relabel f).rhs (l.relabel f).dot
      (r.relabel f).lhs = (Label.advance l.lhs l.rhs l.dot r.lhs).map (Advance.relabel f) :=
    hf.advance l.lhs l.rhs l.dot r.lhs
  rw [hadvance]
  cases Label.advance l.lhs l.rhs l.dot r.lhs with
  | none => rfl
  | some a =>
    refine bind_map_comm (mapError_map_comm (l.moveDot_relabel f r.stop a) _) fun new => ?_
    exact bind_map_comm (c.insertAfter_relabel hf new left right) fun r => rfl

theorem combineWith_relabel (e : Edge L) (id partner : EdgeId) :
    combineWith (e.relabel f) id (c.relabel hf) partner =
      (combineWith e id c partner).map (relabelResult hf) := by
  rw [combineWith, combineWith, Edge.isComplete_relabel]
  split
  · exact c.combine_relabel hf partner id
  · exact c.combine_relabel hf id partner

theorem combineAll_relabel (id : EdgeId) :
    (c.relabel hf).combineAll id = (c.combineAll id).map (Sweep.relabel hf) := by
  refine bind_map_comm (c.edge_relabel hf id) fun e => ?_
  rw [partnerConstraints_relabel hf]
  refine bind_map_comm (c.select_relabel hf (partnerConstraints e)) fun r => ?_
  obtain ⟨c, cursor⟩ := r
  have hbits : Edge.capacityBits (e.relabel f :: ((c.relabel hf).remaining cursor).filterMap
        (c.relabel hf).edge?) =
      Edge.capacityBits (e :: (c.remaining cursor).filterMap c.edge?) := by
    have hpartners : ((c.remaining cursor).filterMap (c.relabel hf).edge?) =
        ((c.remaining cursor).filterMap c.edge?).map (Edge.relabel f) := by
      rw [List.map_filterMap]
      exact List.filterMap_congr fun id _ => c.edge?_relabel hf id
    rw [remaining_relabel, hpartners, ← List.map_cons, hf.capacityBits]
  show Sweep.run (combineWith (e.relabel f) id) (Edge.capacityBits (e.relabel f ::
    ((c.relabel hf).remaining cursor).filterMap (c.relabel hf).edge?) + 1) (c.relabel hf)
      cursor = _
  rw [hbits]
  exact Sweep.run_relabel hf (fun c partner => c.combineWith_relabel hf e id partner) _ c cursor

end Chart

/-! ### Applying rules -/

namespace Rule

variable [DecidableEq L] [DecidableEq L'] {g : Grammar L} (hg : g.Indexed)

include hg

theorem apply_relabel (rule : Rule) (id? : Option EdgeId) (c : Chart L) :
    rule.apply (g.relabel f) id? (c.relabel hf) =
      (rule.apply g id? c).map (Chart.relabelResult hf) := by
  cases rule with
  | leafInit =>
    cases id? with
    | some id => rfl
    | none =>
      show (c.relabel hf).insertAll (c.relabel hf).leafOffers = _
      rw [Chart.leafOffers_relabel]
      exact c.insertAll_relabel hf c.leafOffers
  | emptyPredict =>
    cases id? with
    | some id => rfl
    | none =>
      show (c.relabel hf).insertAll ((c.relabel hf).emptyOffers (g.relabel f)) = _
      rw [Chart.emptyOffers_relabel hf c hg]
      exact c.insertAll_relabel hf (c.emptyOffers g)
  | predictCombine =>
    cases id? with
    | none => rfl
    | some id =>
      refine bind_map_comm (c.edge_relabel hf id) fun e => ?_
      rw [Edge.isComplete_relabel]
      split
      · exact bind_map_comm (mapError_map_comm (Chart.predictions_relabel hf hg id e) _)
          fun offers => c.insertAll_relabel hf offers
      · rfl
  | fundamental =>
    cases id? with
    | none => rfl
    | some id => exact bind_map_comm (c.combineAll_relabel hf id) fun s => rfl

theorem applyToAll_relabel (rule : Rule) (c : Chart L) :
    rule.applyToAll (g.relabel f) (c.relabel hf) =
      (rule.applyToAll g c).map (Sweep.relabel hf) := by
  rw [applyToAll, applyToAll, Chart.seeds_relabel, hf.capacityBits]
  exact Sweep.run_relabel hf (fun c id => rule.apply_relabel hf hg (some id) c) _ c _

/-- A rule changes the chart with other labels at the same ids. -/
theorem applyEverywhere_relabel (rule : Rule) (c : Chart L) :
    rule.applyEverywhere (g.relabel f) (c.relabel hf) =
      (rule.applyEverywhere g c).map (Chart.relabelResult hf) := by
  rw [applyEverywhere, applyEverywhere]
  split
  · exact rule.apply_relabel hf hg none c
  · exact bind_map_comm (rule.applyToAll_relabel hf hg c) fun s => rfl

end Rule

end ChartParsing
