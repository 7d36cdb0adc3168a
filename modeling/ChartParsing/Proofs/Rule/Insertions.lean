/-
ChartParsing/Proofs/Rule/Insertions.lean

The insertions that rules are made of.

Inserting a list of offers adds what is offered and nothing else
(`insertAll_spec`).  Combining two edges adds the edge with its dot moved, by
each list of the left edge extended with the right one (`combine_spec`).  Both
succeed on a well-formed chart.
-/
import ChartParsing.Proofs.Chart.Insertion
import ChartParsing.Proofs.Inference

namespace ChartParsing

namespace Chart

variable {L : Type} [Label L] [DecidableEq L]

/-! ### One insertion after the other -/

theorem insertNext_spec {c : Chart L} (hwf : c.WellFormed) (noted : Array EdgeId)
    (o : Edge L × List Pointers) (hlt : ∀ p ∈ o.2, ∀ child ∈ p, child < c.size) :
    ∃ c' id?, insertNext (c, noted) o = .ok (c', noted ++ id?.toList.toArray) ∧
      Inserted c o.1 o.2 c' id? := by
  obtain ⟨⟨c', id?⟩, hc'⟩ := c.insert_succeeds o.1 hlt
  refine ⟨c', id?, ?_, insert_inserted hwf hc'⟩
  rw [insertNext, hc', ok_bind]
  cases id? with
  | none => simp
  | some id => simp

/-- What a fold of insertions takes in, and what it notes. -/
theorem foldlM_insertNext_spec (offers : List (Edge L × List Pointers)) {c : Chart L}
    (hwf : c.WellFormed) (noted : Array EdgeId)
    (hlt : ∀ o ∈ offers, ∀ p ∈ o.2, ∀ child ∈ p, child < c.size) :
    ∃ c' noted' changed, offers.foldlM insertNext (c, noted) = .ok (c', noted') ∧
      noted'.toList = noted.toList ++ changed ∧ c'.WellFormed ∧ Grows c c' changed ∧
      ∀ x, c'.Justifies x ↔
        c.Justifies x ∨
          ∃ o ∈ offers, x.1 = o.1 ∧ ∃ p ∈ o.2, p.map (c.edges[·]?) = x.2.map some := by
  induction offers generalizing c noted with
  | nil => exact ⟨c, noted, [], rfl, by simp, hwf, Grows.refl c, by simp⟩
  | cons o offers ih =>
    obtain ⟨hfirst, hlater⟩ := List.forall_mem_cons.1 hlt
    obtain ⟨d, id?, hnext, hins⟩ := insertNext_spec hwf noted o hfirst
    obtain ⟨c', noted', changed, hrun, hnoted, hwf', hgrows, hjust⟩ :=
      ih hins.wellFormed (noted ++ id?.toList.toArray) fun o' ho' p hp child hchild =>
        Nat.lt_of_lt_of_le (hlater o' ho' p hp child hchild) hins.grows.size_le
    refine ⟨c', noted', id?.toList ++ changed, ?_, ?_, hwf', hins.grows.trans hgrows, ?_⟩
    · rw [List.foldlM_cons, hnext]
      exact hrun
    · rw [hnoted]
      simp
    · intro x
      -- the lists name the same edges after each insertion as before
      have hsame : ∀ o' ∈ o :: offers, ∀ p ∈ o'.2, p.map (d.edges[·]?) = p.map (c.edges[·]?) :=
        fun o' ho' p hp => hins.grows.map_getElem? (hlt o' ho' p hp)
      rw [hjust, hins.justifies_iff hwf, or_assoc]
      refine or_congr Iff.rfl ?_
      constructor
      · rintro (⟨hx, p, hp, hmap⟩ | ⟨o', ho', hx, p, hp, hmap⟩)
        · rw [hsame o List.mem_cons_self p hp] at hmap
          exact ⟨o, List.mem_cons_self, hx, p, hp, hmap⟩
        · rw [hsame o' (List.mem_cons_of_mem _ ho') p hp] at hmap
          exact ⟨o', List.mem_cons_of_mem _ ho', hx, p, hp, hmap⟩
      · rintro ⟨o', ho', hx, p, hp, hmap⟩
        rw [← hsame o' ho' p hp] at hmap
        rcases List.mem_cons.1 ho' with rfl | ho'
        · exact .inl ⟨hx, p, hp, hmap⟩
        · exact .inr ⟨o', ho', hx, p, hp, hmap⟩

/-- Offers whose lists name edges of the chart are all taken in. -/
theorem insertAll_spec {c : Chart L} (hwf : c.WellFormed)
    (offers : List (Edge L × List Pointers))
    (hlt : ∀ o ∈ offers, ∀ p ∈ o.2, ∀ child ∈ p, child < c.size) :
    ∃ c' changed, c.insertAll offers = .ok (c', changed) ∧ c'.WellFormed ∧ Grows c c' changed ∧
      ∀ x, c'.Justifies x ↔
        c.Justifies x ∨
          ∃ o ∈ offers, x.1 = o.1 ∧ ∃ p ∈ o.2, p.map (c.edges[·]?) = x.2.map some := by
  obtain ⟨c', noted, changed, hrun, hnoted, hwf', hgrows, hjust⟩ :=
    foldlM_insertNext_spec offers hwf #[] hlt
  refine ⟨c', changed, ?_, hwf', hgrows, hjust⟩
  rw [insertAll, hrun, ok_bind]
  show Except.ok (c', noted.toList) = Except.ok (c', changed)
  rw [hnoted]
  rfl

/-! ### Combining two edges -/

omit [DecidableEq L] in
theorem map_append_getElem? (c : Chart L) {p : Pointers} {child : EdgeId} {r : Edge L}
    (hr : c.edges[child]? = some r) (es : List (Edge L)) :
    (p ++ [child]).map (c.edges[·]?) = es.map some ↔
      ∃ ls, p.map (c.edges[·]?) = ls.map some ∧ es = ls ++ [r] := by
  rw [List.map_append, List.map_singleton, hr]
  constructor
  · intro h
    obtain ⟨ls, rs, rfl, hls, hrs⟩ := List.map_eq_append_iff.1 h.symm
    refine ⟨ls, hls.symm, ?_⟩
    obtain ⟨r', rs', rfl, hr', hrs'⟩ := List.map_eq_cons_iff.1 hrs
    rw [List.map_eq_nil_iff] at hrs'
    rw [hrs', Option.some.inj hr']
  · rintro ⟨ls, hls, rfl⟩
    rw [hls, List.map_append, List.map_singleton]

/-- Inserting an edge by the lists of `left`, each extended with `right`. -/
theorem insertAfter_spec {c : Chart L} (hwf : c.WellFormed) {left right : EdgeId} {l r : Edge L}
    (hl : c.edges[left]? = some l) (hr : c.edges[right]? = some r) (e : Edge L) :
    ∃ c' id?, c.insertAfter e left right = .ok (c', id?) ∧ c'.WellFormed ∧
      Grows c c' id?.toList ∧
      ∀ x, c'.Justifies x ↔
        c.Justifies x ∨ (x.1 = e ∧ ∃ ls, c.Justifies (l, ls) ∧ x.2 = ls ++ [r]) := by
  have hlt : ∀ p ∈ (c.pointers left).map (fun p => p ++ [right]), ∀ child ∈ p,
      child < c.size := by
    intro p hp child hchild
    obtain ⟨q, hq, rfl⟩ := List.mem_map.1 hp
    rcases List.mem_append.1 hchild with hchild | hchild
    · exact hwf.child_lt left q hq child hchild
    · rw [List.mem_singleton.1 hchild]
      exact lt_size hr
  obtain ⟨⟨c', id?⟩, hc'⟩ := c.insert_succeeds e hlt
  have hins := insert_inserted hwf hc'
  refine ⟨c', id?, ?_, hins.wellFormed, hins.grows, fun x => ?_⟩
  · rw [insertAfter, cpls_eq_ok (lt_size hl)]
    exact hc'
  · rw [hins.justifies_iff hwf]
    refine or_congr Iff.rfl (and_congr Iff.rfl ?_)
    constructor
    · rintro ⟨p, hp, hmap⟩
      rw [hins.grows.map_getElem? (hlt p hp)] at hmap
      obtain ⟨q, hq, rfl⟩ := List.mem_map.1 hp
      obtain ⟨ls, hls, hx⟩ := (c.map_append_getElem? hr _).1 hmap
      exact ⟨ls, ⟨left, hl, q, hq, hls⟩, hx⟩
    · rintro ⟨ls, ⟨id, hid, q, hq, hls⟩, hx⟩
      -- the list is one of the left edge, wherever it was found
      obtain rfl := hwf.id_unique hid hl
      have hp : q ++ [right] ∈ (c.pointers id).map fun p => p ++ [right] :=
        List.mem_map_of_mem hq
      refine ⟨q ++ [right], hp, ?_⟩
      rw [hins.grows.map_getElem? (hlt _ hp)]
      exact (c.map_append_getElem? hr _).2 ⟨ls, hls, hx⟩

variable [LawfulLabel L]

/-- Combining adjacent edges adds the left one with its dot moved over the
right one, if the label fits. -/
theorem combine_spec {c : Chart L} (hwf : c.WellFormed) {left right : EdgeId} {l r : Edge L}
    (hl : c.edges[left]? = some l) (hr : c.edges[right]? = some r) (hadj : l.stop = r.start) :
    ∃ c' changed, c.combine left right = .ok (c', changed) ∧ c'.WellFormed ∧
      Grows c c' changed ∧
      ∀ x, c'.Justifies x ↔
        c.Justifies x ∨
          ∃ a, Label.advance l.lhs l.rhs l.dot r.lhs = some a ∧ l.moveDot r.stop a = .ok x.1 ∧
            ∃ ls, c.Justifies (l, ls) ∧ x.2 = ls ++ [r] := by
  rw [combine, edge_eq_ok hl, edge_eq_ok hr, ok_bind, ok_bind]
  cases ha : Label.advance l.lhs l.rhs l.dot r.lhs with
  | none => exact ⟨c, [], rfl, hwf, Grows.refl c, by simp⟩
  | some a =>
    -- adjacent edges span what lies from the first start to the last end
    have hspan : l.start ≤ r.stop := by
      have := l.start_le_stop
      have := r.start_le_stop
      omega
    obtain ⟨e, he⟩ := Edge.exists_make_advance hspan ha
    have hmove : l.moveDot r.stop a = .ok e := he
    obtain ⟨c', id?, hc', hwf', hgrows, hjust⟩ := insertAfter_spec hwf hl hr e
    refine ⟨c', id?.toList, ?_, hwf', hgrows, fun x => ?_⟩
    · dsimp only
      rw [hmove, Except.mapError, ok_bind, hc']
      rfl
    · rw [hjust]
      refine or_congr Iff.rfl ?_
      constructor
      · rintro ⟨hx, hls⟩
        exact ⟨a, rfl, by rw [hmove, hx], hls⟩
      · rintro ⟨a', ha', hmove', hls⟩
        obtain rfl := Option.some.inj ha'
        exact ⟨Except.ok.inj (hmove'.symm.trans hmove), hls⟩

end Chart

end ChartParsing
