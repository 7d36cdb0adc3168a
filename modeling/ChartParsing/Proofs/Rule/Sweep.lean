/-
ChartParsing/Proofs/Rule/Sweep.lean

A sweep acts on every edge that its cursor reaches in the end.

While a sweep runs, what its cursor reaches only grows at the end, so the
edges it has acted on are a first part of what it reaches.  If there are fewer
of them than rounds, the sweep goes on until nothing is left
(`Sweep.run_spec`).  What one act achieves for its edge is then achieved for
all, provided that growing charts keep it.
-/
import ChartParsing.Proofs.Chart.Search
import ChartParsing.Proofs.Rounds
import ChartParsing.Rule.Sweep

namespace ChartParsing

variable {L : Type} [Label L]

namespace Chart

theorem next?_eq_some_iff {c : Chart L} {cursor cursor' : Cursor} {id : EdgeId} :
    c.next? cursor = some (id, cursor') ↔
      (c.reached cursor.source)[cursor.taken]? = some id ∧
        cursor' = ⟨cursor.source, cursor.taken + 1⟩ := by
  rw [next?, reachedAt?_eq_getElem?]
  split
  · rename_i hnone
    simp [hnone]
  · rename_i id' hsome
    simp [hsome, eq_comm]

end Chart

namespace Sweep

variable {act : Act L} {cs : List Constraint} {I : Chart L → Prop} {D : Chart L → EdgeId → Prop}

/-- What holds after each round of a sweep that began with `c`. -/
structure Underway (I : Chart L → Prop) (D : Chart L → EdgeId → Prop) (cs : List Constraint)
    (c : Chart L) (s : Sweep L) : Prop where
  grows : Chart.Grows c s.chart s.changed.toList
  inv : I s.chart
  source : s.cursor.source = Chart.sourceOf cs
  serves : s.chart.Serves (Chart.sourceOf cs)
  done : ∀ id ∈ (s.chart.scan cs).take s.cursor.taken, D s.chart id

/-- One round acts on the next edge. -/
theorem Underway.advance {c : Chart L}
    (hact : ∀ d id, I d → id ∈ d.scan cs →
      ∃ d' more, act d id = .ok (d', more) ∧ Chart.Grows d d' more ∧ I d' ∧ D d' id)
    (hmono : ∀ d d' changed id, Chart.Grows d d' changed → D d id → D d' id)
    {s : Sweep L} (hs : Underway I D cs c s) (hpending : s.pending = true) :
    ∃ s', advance act s = .ok s' ∧ Underway I D cs c s' ∧
      s'.cursor.taken = s.cursor.taken + 1 ∧ s.cursor.taken < (s.chart.scan cs).length := by
  obtain ⟨chart, ⟨source, taken⟩, changed⟩ := s
  obtain ⟨⟨id, cursor'⟩, hnext⟩ := Option.isSome_iff_exists.1 hpending
  obtain ⟨hid, rfl⟩ := Chart.next?_eq_some_iff.1 hnext
  obtain rfl : source = Chart.sourceOf cs := hs.source
  have hid' : (chart.scan cs)[taken]? = some id := by
    rw [← Chart.reached_sourceOf hs.serves]
    exact hid
  obtain ⟨d', more, hrun, hgrows, hinv, hdone⟩ :=
    hact chart id hs.inv (List.mem_of_getElem? hid')
  have hlt := (List.getElem?_eq_some_iff.1 hid').1
  refine ⟨⟨d', ⟨Chart.sourceOf cs, taken + 1⟩, changed ++ more⟩, ?_, ?_, rfl, hlt⟩
  · simp only [Sweep.advance, hnext, hrun]
    rfl
  · refine ⟨?_, hinv, rfl, hgrows.serves _ hs.serves, ?_⟩
    · have htrans := hs.grows.trans hgrows
      simpa using htrans
    · -- what was reached so far is a first part of what is reached now
      obtain ⟨later, hlater⟩ := hgrows.scan_prefix cs
      intro id' hid''
      rw [← hlater, List.take_append_of_le_length hlt, List.take_add_one, hid',
        List.mem_append] at hid''
      rcases hid'' with hold | hnew
      · exact hmono _ _ _ _ hgrows (hs.done id' hold)
      · rw [List.mem_singleton.1 hnew]
        exact hdone

/-- A sweep ends with nothing left to act on. -/
theorem run_spec (act : Act L) (cs : List Constraint) (bits : Nat) {c : Chart L}
    (hact : ∀ d id, I d → id ∈ d.scan cs →
      ∃ d' more, act d id = .ok (d', more) ∧ Chart.Grows d d' more ∧ I d' ∧ D d' id)
    (hmono : ∀ d d' changed id, Chart.Grows d d' changed → D d id → D d' id)
    (hbound : ∀ d, I d → (d.scan cs).length < Nat.pow 2 bits)
    (hc : I c) (hserves : c.Serves (Chart.sourceOf cs)) :
    ∃ s, run act bits c ⟨Chart.sourceOf cs, 0⟩ = .ok s ∧
      Chart.Grows c s.chart s.changed.toList ∧ I s.chart ∧
        s.chart.remaining s.cursor = [] ∧ ∀ id ∈ s.chart.scan cs, D s.chart id := by
  have hstart : Underway I D cs c ⟨c, ⟨Chart.sourceOf cs, 0⟩, #[]⟩ :=
    ⟨Chart.Grows.refl c, hc, rfl, hserves, by simp⟩
  -- each round takes one edge more of a scan that stays bounded
  obtain ⟨s, hrun, hs, hend⟩ :=
    rounds_ends pending (advance act) (P := Underway I D cs c)
      (fun s => Nat.pow 2 bits - 1 - s.cursor.taken)
      (fun s hs hpending => by
        obtain ⟨s', hadvance, hs', htaken, hlt⟩ := hs.advance hact hmono hpending
        have := hbound s.chart hs.inv
        exact ⟨s', hadvance, hs', by omega⟩)
      (n := bits) hstart (by
        have hpos : 0 < Nat.pow 2 bits := Nat.two_pow_pos bits
        omega)
  have hremaining : s.chart.remaining s.cursor = [] := by
    rw [pending, Option.isSome_eq_false_iff, Option.isNone_iff_eq_none] at hend
    exact (s.chart.next?_eq_none_iff s.cursor).1 hend
  refine ⟨s, hrun, hs.grows, hs.inv, hremaining, fun id hid => hs.done id ?_⟩
  rw [Chart.remaining, hs.source, Chart.reached_sourceOf hs.serves,
    List.drop_eq_nil_iff] at hremaining
  rwa [List.take_of_length_le hremaining]

end Sweep

end ChartParsing
