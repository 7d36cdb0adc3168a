/-
ChartParsing/Proofs/Rule/Apply.lean

What one application of a rule does to a chart.

An application keeps the chart well formed and lets it grow; what it adds
follows by the rule from what was there, and whatever the rule infers from
what was there, with the given edge among the premises, is there afterwards
(`Rule.Applied`, `Rule.apply_spec`).

The fundamental rule is the only one that runs under a cursor.  Its edge is
combined with every partner that the cursor reaches, those included that the
combining adds; these are put together from the edge and its first partners,
so there are only so many.
-/
import ChartParsing.Proofs.Grammar.Lookup
import ChartParsing.Proofs.Rule.Insertions
import ChartParsing.Proofs.Rule.Sweep

namespace ChartParsing

variable {L : Type} [Label L]

/-! ### Partners -/

namespace Edge

omit [Label L] in
theorem next?_eq_none_iff {e : Edge L} : e.next? = none ↔ e.isComplete = true := by
  have := e.dot_le_length
  rw [next?, List.getElem?_eq_none_iff, isComplete, beq_iff_eq]
  omega

omit [Label L] in
theorem isComplete_eq_false_iff {e : Edge L} :
    e.isComplete = false ↔ e.dot < e.rhs.length := by
  have := e.dot_le_length
  rw [isComplete, beq_eq_false_iff_ne]
  omega

/-- The edge meets the constraints on partners of `e`. -/
def Partner (e x : Edge L) : Prop := ∀ k ∈ Chart.partnerConstraints e, k.holds x = true

/-- The partners of an incomplete edge are complete and follow it. -/
theorem partner_iff_of_next {e x : Edge L} {next : L} (h : e.next? = some next) :
    e.Partner x ↔
      x.start = e.stop ∧ x.isComplete = true ∧ Label.key x.lhs = Label.key next := by
  rw [Partner, Chart.partnerConstraints, h]
  simp [Constraint.holds, Constraint.start, Constraint.isComplete, Constraint.lhs, valueOf]

/-- The partners of a complete edge wait for it and end where it starts. -/
theorem partner_iff_of_complete {e x : Edge L} (h : e.isComplete = true) :
    e.Partner x ↔ x.stop = e.start ∧ x.isComplete = false ∧
      ∃ next, x.next? = some next ∧ Label.key next = Label.key e.lhs := by
  have hnext : (x.valueOf .nextSymbol == .key (Label.key e.lhs)) = true ↔
      ∃ next, x.next? = some next ∧ Label.key next = Label.key e.lhs := by
    rw [valueOf]
    cases x.next? <;> simp
  rw [Partner, Chart.partnerConstraints, next?_eq_none_iff.2 h]
  simp only [List.forall_mem_cons, Constraint.holds, Constraint.stop, Constraint.isComplete,
    Constraint.nextSymbol, hnext, List.not_mem_nil, false_imp_iff, implies_true, and_true]
  simp [valueOf]

theorem repeated?_partnerConstraints (e : Edge L) :
    Constraint.repeated? (Chart.partnerConstraints e) = none := by
  rw [Chart.partnerConstraints]
  split <;> rfl

variable [LawfulLabel L]

/-- The premises of the fundamental rule are partners of each other. -/
theorem partners_of_advance {l r : Edge L} {a : Advance L} (hr : r.isComplete = true)
    (hadj : l.stop = r.start) (ha : Label.advance l.lhs l.rhs l.dot r.lhs = some a) :
    l.Partner r ∧ r.Partner l := by
  -- what fits shares a key, and by keys partners are found
  obtain ⟨next, hnext, hkey⟩ := LawfulLabel.advance_next ha
  have hl : l.isComplete = false := isComplete_eq_false_iff.2 (LawfulLabel.dot_lt_of_advance ha)
  exact ⟨(partner_iff_of_next hnext).2 ⟨hadj.symm, hr, hkey.symm⟩,
    (partner_iff_of_complete hr).2 ⟨hadj, hl, next, hnext, hkey⟩⟩

end Edge

/-! ### One application -/

/-- `c'` has come from `c` by inferences of the rules. -/
structure Chart.Follows (productions : List (Production L)) (rules : List Rule)
    (c c' : Chart L) (changed : List EdgeId) : Prop where
  wellFormed : c'.WellFormed
  grows : Grows c c' changed
  sound : ∀ S, (∀ rule ∈ rules, ClosedUnder productions c.tokens rule S) →
    (∀ x, c.Justifies x → S x) → ∀ x, c'.Justifies x → S x

theorem Chart.Follows.refl {productions : List (Production L)} {rules : List Rule} {c : Chart L}
    (hwf : c.WellFormed) : Follows productions rules c c [] :=
  ⟨hwf, Grows.refl c, fun _ _ hc => hc⟩

theorem Chart.Follows.trans {productions : List (Production L)} {rules rules' : List Rule}
    {c d d' : Chart L} {changed changed' : List EdgeId}
    (h : Follows productions rules c d changed) (h' : Follows productions rules' d d' changed') :
    Follows productions (rules ++ rules') c d' (changed ++ changed') where
  wellFormed := h'.wellFormed
  grows := h.grows.trans h'.grows
  sound := by
    intro S hS hc
    refine h'.sound S (fun rule hrule => ?_) (h.sound S (fun rule hrule => ?_) hc)
    · rw [h.grows.tokens]
      exact hS rule (List.mem_append_right _ hrule)
    · exact hS rule (List.mem_append_left _ hrule)

theorem Chart.Follows.mono {productions : List (Production L)} {rules rules' : List Rule}
    {c c' : Chart L} {changed : List EdgeId} (hrules : ∀ rule ∈ rules, rule ∈ rules')
    (h : Follows productions rules c c' changed) : Follows productions rules' c c' changed :=
  ⟨h.wellFormed, h.grows, fun S hS => h.sound S fun rule hrule => hS rule (hrules rule hrule)⟩

/-- What the rule infers from `c`, with the edge `id?` among the premises, is in `c'`. -/
def Rule.Completes (productions : List (Production L)) (rule : Rule) (id? : Option EdgeId)
    (c c' : Chart L) : Prop :=
  ∀ premises x, Infers productions c.tokens rule premises x → (∀ y ∈ premises, c.Justifies y) →
    (∀ id ∈ id?, ∃ y ∈ premises, c.edges[id]? = some y.1) → c'.Justifies x

theorem Rule.Completes.mono {productions : List (Production L)} {rule : Rule}
    {id? : Option EdgeId} {c c' d d' : Chart L} {before after : List EdgeId}
    (hbefore : Chart.Grows c d before) (h : rule.Completes productions id? d d')
    (hafter : Chart.Grows d' c' after) : rule.Completes productions id? c c' := by
  intro premises x hinfers hpremises hgiven
  rw [← hbefore.tokens] at hinfers
  refine hafter.justifies (h premises x hinfers ?_ fun id hid => ?_)
  · exact fun y hy => hbefore.justifies (hpremises y hy)
  · obtain ⟨y, hy, hyid⟩ := hgiven id hid
    exact ⟨y, hy, hbefore.getElem? hyid⟩

/-- The outcome of applying `rule` to the edge `id?`, or wherever it can be. -/
structure Rule.Applied (productions : List (Production L)) (rule : Rule) (id? : Option EdgeId)
    (c c' : Chart L) (changed : List EdgeId) : Prop
    extends Chart.Follows productions [rule] c c' changed where
  complete : rule.Completes productions id? c c'

namespace Chart

/-! ### What rules offer -/

/-- An edge that the rule offers to the chart as it is, and the lists that are to justify it. -/
inductive Offers (g : Grammar L) (c : Chart L) : Rule → Edge L × List Pointers → Prop
  | leaf {o} : o ∈ c.leafOffers → Offers g c .leafInit o
  | empty {o} : o ∈ c.emptyOffers g → Offers g c .emptyPredict o
  | predict {id b offers o} : c.edges[id]? = some b → b.isComplete = true →
      predictions g id b = .ok offers → o ∈ offers → Offers g c .predictCombine o
  | combine {left right l r a e} : c.edges[left]? = some l → c.edges[right]? = some r →
      l.stop = r.start → r.isComplete = true →
      Label.advance l.lhs l.rhs l.dot r.lhs = some a → l.moveDot r.stop a = .ok e →
      Offers g c .fundamental (e, (c.pointers left).map fun p => p ++ [right])

theorem map_getElem?_eq_nil_iff {c : Chart L} {es : List (Edge L)} :
    ([] : Pointers).map (c.edges[·]?) = es.map some ↔ es = [] := by
  rw [List.map_nil, eq_comm, List.map_eq_nil_iff]

theorem map_getElem?_eq_singleton_iff {c : Chart L} {id : EdgeId} {b : Edge L}
    (hb : c.edges[id]? = some b) {es : List (Edge L)} :
    [id].map (c.edges[·]?) = es.map some ↔ es = [b] := by
  have h := c.map_append_getElem? (p := []) hb es
  rw [List.nil_append] at h
  rw [h]
  constructor
  · rintro ⟨ls, hls, rfl⟩
    rw [map_getElem?_eq_nil_iff.1 hls, List.nil_append]
  · rintro rfl
    exact ⟨[], rfl, rfl⟩

theorem mem_leafOffers {c : Chart L} {o : Edge L × List Pointers} :
    o ∈ c.leafOffers ↔ ∃ i t, c.tokens[i]? = some t ∧ o = (Edge.leaf t i, [[]]) := by
  simp only [leafOffers, leafEdges, List.map_map, List.mem_map, Prod.exists,
    List.mem_zipIdx_iff_getElem?, Function.comp]
  constructor
  · rintro ⟨t, i, ht, rfl⟩
    exact ⟨i, t, ht, rfl⟩
  · rintro ⟨i, t, ht, rfl⟩
    exact ⟨t, i, ht, rfl⟩

theorem mem_emptyOffers {c : Chart L} {g : Grammar L} (hg : g.Indexed)
    {o : Edge L × List Pointers} :
    o ∈ c.emptyOffers g ↔
      ∃ p ∈ g.productions, p.rhs = [] ∧ ∃ i ≤ c.tokens.length,
        o = (Edge.ofProduction p i, [[]]) := by
  have hempties : g.index.empties = g.productions.filter Production.isEmpty := by
    rw [hg, ProductionIndex.empties_ofList]
  simp only [emptyOffers, hempties, List.mem_flatMap, List.mem_filter, List.mem_map,
    List.mem_range, Production.isEmpty, List.isEmpty_iff, Nat.lt_succ_iff]
  constructor
  · rintro ⟨p, ⟨hp, hrhs⟩, i, hi, rfl⟩
    exact ⟨p, hp, hrhs, i, hi, rfl⟩
  · rintro ⟨p, hp, hrhs, i, hi, rfl⟩
    exact ⟨p, ⟨hp, hrhs⟩, i, hi, rfl⟩

section Lawful

variable [LawfulLabel L]

theorem predictions_spec {g : Grammar L} (hg : g.Indexed) (id : EdgeId) (b : Edge L) :
    ∃ offers, predictions g id b = .ok offers ∧
      ∀ o, o ∈ offers ↔ ∃ p ∈ g.productions, ∃ a, Label.advance p.lhs p.rhs 0 b.lhs = some a ∧
        ∃ e, Edge.make b.start b.stop a.lhs a.rhs 1 = .ok e ∧ o = (e, [[id]]) := by
  obtain ⟨offers, hoffers, hmem⟩ := exists_mapM_eq_ok
    (fun a : Advance L => do
      let new ← Edge.make b.start b.stop a.lhs a.rhs 1
      .ok (new, [[id]]))
    ((g.index.withFirst (Label.key b.lhs)).filterMap fun p : Production L =>
      Label.advance p.lhs p.rhs 0 b.lhs)
    (by
      intro a ha
      obtain ⟨p, -, hp⟩ := List.mem_filterMap.1 ha
      obtain ⟨e, he⟩ := Edge.exists_make_advance b.start_le_stop hp
      exact ⟨(e, [[id]]), by rw [he, ok_bind]⟩)
  refine ⟨offers, hoffers, fun o => ?_⟩
  rw [hmem]
  constructor
  · rintro ⟨a, ha, ho⟩
    obtain ⟨p, hp, hadvance⟩ := List.mem_filterMap.1 ha
    rw [hg] at hp
    obtain ⟨e, he⟩ := Edge.exists_make_advance b.start_le_stop hadvance
    rw [he, ok_bind] at ho
    exact ⟨p, (ProductionIndex.mem_withFirst_ofList.1 hp).1, a, hadvance, e, he,
      (Except.ok.inj ho).symm⟩
  · rintro ⟨p, hp, a, ha, e, he, rfl⟩
    refine ⟨a, List.mem_filterMap.2 ⟨p, ?_, ha⟩, by rw [he, ok_bind]⟩
    obtain ⟨next, hnext, hkey⟩ := LawfulLabel.advance_next ha
    rw [hg]
    exact ProductionIndex.mem_withFirst_ofList.2 ⟨hp, next, hnext, hkey⟩

/-- The lists of an offer name edges of the chart. -/
theorem Offers.child_lt {g : Grammar L} (hg : g.Indexed) {c : Chart L} (hwf : c.WellFormed)
    {rule : Rule} {o : Edge L × List Pointers} (h : c.Offers g rule o) :
    ∀ p ∈ o.2, ∀ child ∈ p, child < c.size := by
  intro p hp child hchild
  cases h with
  | leaf ho =>
    obtain ⟨i, t, -, rfl⟩ := mem_leafOffers.1 ho
    rw [List.mem_singleton.1 hp] at hchild
    cases hchild
  | empty ho =>
    obtain ⟨_, -, -, i, -, rfl⟩ := (mem_emptyOffers hg).1 ho
    rw [List.mem_singleton.1 hp] at hchild
    cases hchild
  | @predict id b offers _ hb _ hoffers ho =>
    obtain ⟨offers', hoffers', hmem⟩ := predictions_spec hg id b
    obtain rfl := Except.ok.inj (hoffers'.symm.trans hoffers)
    obtain ⟨_, -, _, -, e, -, rfl⟩ := (hmem o).1 ho
    rw [List.mem_singleton.1 hp, List.mem_singleton] at hchild
    rw [hchild]
    exact lt_size hb
  | @combine left right l r a e _ hr _ _ _ _ =>
    obtain ⟨q, hq, rfl⟩ := List.mem_map.1 hp
    rcases List.mem_append.1 hchild with hchild | hchild
    · exact hwf.child_lt left q hq child hchild
    · rw [List.mem_singleton.1 hchild]
      exact lt_size hr

/-- Each list of an offer is inferred by the rule, from what the chart justifies. -/
theorem Offers.infers {g : Grammar L} (hg : g.Indexed) {c : Chart L} (hwf : c.WellFormed)
    {rule : Rule} {o : Edge L × List Pointers} (h : c.Offers g rule o) {p : Pointers}
    (hp : p ∈ o.2) {es : List (Edge L)} (hmap : p.map (c.edges[·]?) = es.map some) :
    ∃ premises, Infers g.productions c.tokens rule premises (o.1, es) ∧
      ∀ y ∈ premises, c.Justifies y := by
  cases h with
  | leaf ho =>
    obtain ⟨i, t, ht, rfl⟩ := mem_leafOffers.1 ho
    rw [List.mem_singleton.1 hp, map_getElem?_eq_nil_iff] at hmap
    rw [hmap]
    exact ⟨[], .leaf ht, fun _ h => nomatch h⟩
  | empty ho =>
    obtain ⟨q, hq, hrhs, i, hi, rfl⟩ := (mem_emptyOffers hg).1 ho
    rw [List.mem_singleton.1 hp, map_getElem?_eq_nil_iff] at hmap
    rw [hmap]
    exact ⟨[], .empty hq hrhs hi, fun _ h => nomatch h⟩
  | @predict id b offers _ hb hcomplete hoffers ho =>
    obtain ⟨offers', hoffers', hmem⟩ := predictions_spec hg id b
    obtain rfl := Except.ok.inj (hoffers'.symm.trans hoffers)
    obtain ⟨q, hq, a, ha, e, he, rfl⟩ := (hmem o).1 ho
    rw [List.mem_singleton.1 hp, map_getElem?_eq_singleton_iff hb] at hmap
    rw [hmap]
    obtain ⟨bs, hbs⟩ := hwf.mem_edges_iff.1 (List.mem_of_getElem? hb)
    refine ⟨[(b, bs)], .predict hcomplete hq ha he, fun y hy => ?_⟩
    rw [List.mem_singleton.1 hy]
    exact hbs
  | @combine left right l r a e hl hr hadj hcomplete ha hmove =>
    obtain ⟨q, hq, rfl⟩ := List.mem_map.1 hp
    obtain ⟨ls, hls, rfl⟩ := (c.map_append_getElem? hr _).1 hmap
    obtain ⟨rs, hrs⟩ := hwf.mem_edges_iff.1 (List.mem_of_getElem? hr)
    refine ⟨[(l, ls), (r, rs)], .fundamental hcomplete hadj ha hmove, fun y hy => ?_⟩
    rcases List.mem_cons.1 hy with rfl | hy
    · exact ⟨left, hl, q, hq, hls⟩
    · rw [List.mem_singleton.1 hy]
      exact hrs

end Lawful

variable [DecidableEq L] [LawfulLabel L]

/-- Inserting what a rule offers applies the rule, if each inferred list is offered. -/
theorem insertAll_applied {g : Grammar L} (hg : g.Indexed) {c : Chart L} (hwf : c.WellFormed)
    {rule : Rule} {id? : Option EdgeId} {offers : List (Edge L × List Pointers)}
    (hoffers : ∀ o ∈ offers, c.Offers g rule o)
    (hcomplete : ∀ premises x, Infers g.productions c.tokens rule premises x →
      (∀ id ∈ id?, ∃ y ∈ premises, c.edges[id]? = some y.1) →
        ∃ o ∈ offers, x.1 = o.1 ∧ ∃ p ∈ o.2, p.map (c.edges[·]?) = x.2.map some) :
    ∃ c' changed, c.insertAll offers = .ok (c', changed) ∧
      Rule.Applied g.productions rule id? c c' changed := by
  obtain ⟨c', changed, hrun, hwf', hgrows, hjust⟩ :=
    insertAll_spec hwf offers fun o ho => (hoffers o ho).child_lt hg hwf
  refine ⟨c', changed, hrun, ⟨hwf', hgrows, ?_⟩, ?_⟩
  · rintro S hS hc ⟨e, es⟩ hx
    rcases (hjust (e, es)).1 hx with hx | ⟨o, ho, hxo, p, hp, hmap⟩
    · exact hc _ hx
    · obtain rfl : e = o.1 := hxo
      obtain ⟨premises, hinfers, hpremises⟩ := (hoffers o ho).infers hg hwf hp hmap
      exact hS _ List.mem_cons_self premises _ hinfers fun y hy => hc y (hpremises y hy)
  · intro premises x hinfers _ hgiven
    exact (hjust x).2 (.inr (hcomplete premises x hinfers hgiven))

/-! ### Leaves and empty productions -/

theorem leafInit_applied {g : Grammar L} (hg : g.Indexed) {c : Chart L} (hwf : c.WellFormed) :
    ∃ c' changed, c.insertAll c.leafOffers = .ok (c', changed) ∧
      Rule.Applied g.productions .leafInit none c c' changed := by
  refine insertAll_applied hg hwf (fun o ho => .leaf ho) fun premises x hinfers _ => ?_
  cases hinfers with
  | leaf ht =>
    exact ⟨_, mem_leafOffers.2 ⟨_, _, ht, rfl⟩, rfl, [], List.mem_singleton.2 rfl, rfl⟩

theorem emptyPredict_applied {g : Grammar L} (hg : g.Indexed) {c : Chart L}
    (hwf : c.WellFormed) :
    ∃ c' changed, c.insertAll (c.emptyOffers g) = .ok (c', changed) ∧
      Rule.Applied g.productions .emptyPredict none c c' changed := by
  refine insertAll_applied hg hwf (fun o ho => .empty ho) fun premises x hinfers _ => ?_
  cases hinfers with
  | empty hp hrhs hi =>
    exact ⟨_, (mem_emptyOffers hg).2 ⟨_, hp, hrhs, _, hi, rfl⟩, rfl, [],
      List.mem_singleton.2 rfl, rfl⟩

/-! ### Predicting -/

theorem predictCombine_applied {g : Grammar L} (hg : g.Indexed) {c : Chart L}
    (hwf : c.WellFormed) {id : EdgeId} (hid : id < c.size) :
    ∃ c' changed, Rule.predictCombine.apply g (some id) c = .ok (c', changed) ∧
      Rule.Applied g.productions .predictCombine (some id) c c' changed := by
  obtain ⟨b, hb⟩ := lt_size_iff.1 hid
  cases hcomplete : b.isComplete with
  | false =>
    refine ⟨c, [], ?_, .refl hwf, ?_⟩
    · rw [Rule.apply, edge_eq_ok hb, ok_bind, hcomplete]
      rfl
    · intro premises x hinfers _ hgiven
      cases hinfers with
      -- an incomplete edge is no premise
      | @predict b' _ _ _ _ hcomplete' _ _ _ =>
        obtain ⟨y, hy, hid'⟩ := hgiven id rfl
        rw [List.mem_singleton.1 hy, hb] at hid'
        obtain rfl : b = b' := Option.some.inj hid'
        rw [hcomplete] at hcomplete'
        cases hcomplete'
  | true =>
    obtain ⟨offers, hoffers, hmem⟩ := predictions_spec hg id b
    rw [Rule.apply, edge_eq_ok hb, ok_bind, if_pos hcomplete, hoffers, Except.mapError, ok_bind]
    refine insertAll_applied hg hwf (fun o ho => .predict hb hcomplete hoffers ho)
      fun premises x hinfers hgiven => ?_
    cases hinfers with
    | @predict b' bs p a e _ hp ha he =>
      obtain ⟨y, hy, hid'⟩ := hgiven id rfl
      rw [List.mem_singleton.1 hy, hb] at hid'
      obtain rfl : b = b' := Option.some.inj hid'
      exact ⟨_, (hmem _).2 ⟨p, hp, a, ha, e, he, rfl⟩, rfl, [id], List.mem_singleton.2 rfl,
        (map_getElem?_eq_singleton_iff hb).2 rfl⟩

/-! ### Combining -/

/-- Two edges as the premises of the fundamental rule, in one order or the other. -/
def Pairs (e x l r : Edge L) : Prop := (l = e ∧ r = x) ∨ (l = x ∧ r = e)

/-- Combining an edge with a partner. -/
theorem combineWith_spec {d : Chart L} (hwf : d.WellFormed) {id partner : EdgeId}
    {e x : Edge L} (he : d.edges[id]? = some e) (hx : d.edges[partner]? = some x)
    (hpartner : e.Partner x) :
    ∃ l r, Pairs e x l r ∧ l.stop = r.start ∧ r.isComplete = true ∧
      (∀ l' r', Pairs e x l' r' → r'.isComplete = true → l'.isComplete = false →
        l' = l ∧ r' = r) ∧
      ∃ d' changed, combineWith e id d partner = .ok (d', changed) ∧ d'.WellFormed ∧
        Grows d d' changed ∧
        ∀ y, d'.Justifies y ↔
          d.Justifies y ∨
            ∃ a, Label.advance l.lhs l.rhs l.dot r.lhs = some a ∧ l.moveDot r.stop a = .ok y.1 ∧
              ∃ ls, d.Justifies (l, ls) ∧ y.2 = ls ++ [r] := by
  cases hcomplete : e.isComplete with
  | true =>
    obtain ⟨hadj, -, -⟩ := (Edge.partner_iff_of_complete hcomplete).1 hpartner
    obtain ⟨d', changed, hrun, hrest⟩ := combine_spec hwf hx he hadj
    refine ⟨x, e, .inr ⟨rfl, rfl⟩, hadj, hcomplete, ?_, d', changed, ?_, hrest⟩
    · rintro l' r' (⟨rfl, rfl⟩ | ⟨rfl, rfl⟩) hr' hl'
      · rw [hcomplete] at hl'
        cases hl'
      · exact ⟨rfl, rfl⟩
    · rw [combineWith, if_pos hcomplete, hrun]
  | false =>
    cases hnext : e.next? with
    | none =>
      rw [Edge.next?_eq_none_iff, hcomplete] at hnext
      cases hnext
    | some next =>
      obtain ⟨hadj, hxc, -⟩ := (Edge.partner_iff_of_next hnext).1 hpartner
      obtain ⟨d', changed, hrun, hrest⟩ := combine_spec hwf he hx hadj.symm
      refine ⟨e, x, .inl ⟨rfl, rfl⟩, hadj.symm, hxc, ?_, d', changed, ?_, hrest⟩
      · rintro l' r' (⟨rfl, rfl⟩ | ⟨rfl, rfl⟩) hr' hl'
        · exact ⟨rfl, rfl⟩
        · rw [hcomplete] at hr'
          cases hr'
      · rw [combineWith, hcomplete]
        exact hrun

/-- What holds while the edge `e` of the chart `c` is combined with its partners. -/
structure Combining (productions : List (Production L)) (seeds : List (Edge L)) (e : Edge L)
    (c d : Chart L) : Prop where
  follows : ∃ changed, Follows productions [.fundamental] c d changed
  within : ∀ x ∈ d.edges, e.Partner x → x.Within seeds

/-- What has been achieved for a partner: all that follows from it and `e`, by
the lists that there were in `c`. -/
def Combined (productions : List (Production L)) (e : Edge L) (c d : Chart L)
    (partner : EdgeId) : Prop :=
  ∃ x, d.edges[partner]? = some x ∧
    ∀ l ls r rs y, Infers productions c.tokens .fundamental [(l, ls), (r, rs)] y →
      c.Justifies (l, ls) → Pairs e x l r → d.Justifies y

theorem Combining.step {productions : List (Production L)} {seeds : List (Edge L)} {e : Edge L}
    {c d : Chart L} {id partner : EdgeId} (he : c.edges[id]? = some e) (hseeds : e.Within seeds)
    (h : Combining productions seeds e c d) (hmem : partner ∈ d.scan (partnerConstraints e)) :
    ∃ d' changed, combineWith e id d partner = .ok (d', changed) ∧ Grows d d' changed ∧
      Combining productions seeds e c d' ∧ Combined productions e c d' partner := by
  obtain ⟨x, hx, hpartner⟩ := mem_scan.1 hmem
  obtain ⟨before, hfollows⟩ := h.follows
  have hbefore := hfollows.grows
  obtain ⟨l, r, hpairs, hadj, hr, hunique, d', changed, hrun, hwf', hgrows, hjust⟩ :=
    combineWith_spec hfollows.wellFormed (hbefore.getElem? he) hx hpartner
  have hxw : x.Within seeds := h.within x (List.mem_of_getElem? hx) hpartner
  refine ⟨d', changed, hrun, hgrows, ⟨⟨_, hwf', hbefore.trans hgrows, ?_⟩, ?_⟩, ?_⟩
  · intro S hS hc y hy
    rcases (hjust y).1 hy with hy | ⟨a, ha, hmove, ls, hls, hy2⟩
    · exact hfollows.sound S hS hc y hy
    -- what is new follows from premises that were there
    · have hrmem : r ∈ d.edges := by
        rcases hpairs with ⟨rfl, rfl⟩ | ⟨rfl, rfl⟩
        · exact List.mem_of_getElem? hx
        · exact List.mem_of_getElem? (hbefore.getElem? he)
      obtain ⟨rs, hrs⟩ := hfollows.wellFormed.mem_edges_iff.1 hrmem
      obtain ⟨y1, y2⟩ := y
      obtain rfl : y2 = ls ++ [r] := hy2
      refine hS _ List.mem_cons_self [(l, ls), (r, rs)] _ (.fundamental hr hadj ha hmove)
        fun z hz => ?_
      rcases List.mem_cons.1 hz with rfl | hz
      · exact hfollows.sound S hS hc _ hls
      · rw [List.mem_singleton.1 hz]
        exact hfollows.sound S hS hc _ hrs
  -- a new partner is put together from the edge and an older one
  · intro y hy hypartner
    obtain ⟨es, hes⟩ := hwf'.mem_edges_iff.1 hy
    rcases (hjust _).1 hes with hold | ⟨a, ha, hmove, -⟩
    · exact h.within y (hfollows.wellFormed.mem_edges_iff.2 ⟨es, hold⟩) hypartner
    · rcases hpairs with ⟨rfl, rfl⟩ | ⟨rfl, rfl⟩
      · exact hseeds.advance hxw ha hmove
      · exact hxw.advance hseeds ha hmove
  · refine ⟨x, hgrows.getElem? hx, fun l' ls r' rs y hinfers hls hpairs' => ?_⟩
    cases hinfers with
    | fundamental hr' _ ha hmove =>
      have hl' : l'.isComplete = false :=
        Edge.isComplete_eq_false_iff.2 (LawfulLabel.dot_lt_of_advance ha)
      obtain ⟨rfl, rfl⟩ := hunique l' r' hpairs' hr' hl'
      exact (hjust _).2 (.inr ⟨_, ha, hmove, ls, hbefore.justifies hls, rfl⟩)

omit [DecidableEq L] [LawfulLabel L] in
theorem Combined.mono {productions : List (Production L)} {e : Edge L} {c d d' : Chart L}
    {changed : List EdgeId} {partner : EdgeId} (hgrows : Grows d d' changed)
    (h : Combined productions e c d partner) : Combined productions e c d' partner := by
  obtain ⟨x, hx, hall⟩ := h
  exact ⟨x, hgrows.getElem? hx, fun l ls r rs y hinfers hls hpairs =>
    hgrows.justifies (hall l ls r rs y hinfers hls hpairs)⟩

theorem Combining.length_scan_lt {productions : List (Production L)} {seeds : List (Edge L)}
    {e : Edge L} {c d : Chart L} (h : Combining productions seeds e c d) :
    (d.scan (partnerConstraints e)).length < Nat.pow 2 (Edge.capacityBits seeds + 1) := by
  obtain ⟨changed, hfollows⟩ := h.follows
  refine lt_pow_succ_of_le ?_
  rw [length_scan]
  refine Edge.length_le_pow_capacityBits (hfollows.wellFormed.nodup.filter _) fun x hx => ?_
  obtain ⟨hxmem, hall⟩ := List.mem_filter.1 hx
  exact h.within x hxmem (List.all_eq_true.1 hall)

/-- Combining an edge with all its partners, those included that come on the way. -/
theorem combineAll_spec {c : Chart L} (hwf : c.WellFormed) (productions : List (Production L))
    {id : EdgeId} {e : Edge L} (he : c.edges[id]? = some e) :
    ∃ s, c.combineAll id = .ok s ∧ s.chart.remaining s.cursor = [] ∧
      Rule.Applied productions .fundamental (some id) c s.chart s.changed.toList := by
  obtain ⟨c₁, hselect, hgrows₁, hwf₁, hserves⟩ :=
    select_eq (c := c) (Edge.repeated?_partnerConstraints e)
  have hwf₁ := hwf₁ hwf
  have hjust₁ : ∀ x, c₁.Justifies x ↔ c.Justifies x := fun x => hgrows₁.justifies_iff_of_nil
  have hreached : c₁.remaining ⟨sourceOf (partnerConstraints e), 0⟩ =
      c₁.scan (partnerConstraints e) := by
    rw [remaining, reached_sourceOf hserves, List.drop_zero]
  -- the edge and its first partners are where all partners come from
  have hstart : Combining productions
      (e :: (c₁.scan (partnerConstraints e)).filterMap c₁.edge?) e c c₁ := by
    refine ⟨⟨[], hwf₁, hgrows₁, fun S _ hc x hx => hc x ((hjust₁ x).1 hx)⟩, ?_⟩
    intro x hx hpartner
    obtain ⟨j, hj⟩ := List.mem_iff_getElem?.1 hx
    refine Edge.within_of_mem (List.mem_cons_of_mem _ (List.mem_filterMap.2 ⟨j, ?_, ?_⟩))
    · exact mem_scan.2 ⟨x, hj, hpartner⟩
    · rw [edge?_eq_getElem?, hj]
  obtain ⟨s, hrun, hgrows, hinv, hremaining, hdone⟩ :=
    Sweep.run_spec (combineWith e id) (partnerConstraints e) _
      (I := Combining productions (e :: (c₁.scan (partnerConstraints e)).filterMap c₁.edge?) e c)
      (D := Combined productions e c)
      (fun d partner hd hmem => hd.step he (Edge.within_of_mem List.mem_cons_self) hmem)
      (fun d d' changed partner hg hD => hD.mono hg)
      (fun d hd => hd.length_scan_lt) hstart hserves
  obtain ⟨changed, hfollows⟩ := hinv.follows
  refine ⟨s, ?_, hremaining, ⟨hfollows.wellFormed, ?_, hfollows.sound⟩, ?_⟩
  · rw [combineAll, edge_eq_ok he, ok_bind, hselect, ok_bind]
    simp only [hreached]
    exact hrun
  · have htrans := hgrows₁.trans hgrows
    rwa [List.nil_append] at htrans
  · intro premises y hinfers hpremises hgiven
    have hinfers' := hinfers
    cases hinfers with
    | @fundamental l ls r rs a e' hr hadj ha hmove =>
      have hls := hpremises _ List.mem_cons_self
      have hrs := hpremises _ (List.mem_cons_of_mem _ List.mem_cons_self)
      obtain ⟨hlr, hrl⟩ := Edge.partners_of_advance hr hadj ha
      obtain ⟨z, hz, hid⟩ := hgiven id rfl
      rw [he] at hid
      -- the given edge is one premise, the other one its partner
      obtain ⟨x, hxjust, hpartner, hpairs⟩ :
          ∃ x, (∃ xs, c.Justifies (x, xs)) ∧ e.Partner x ∧ Pairs e x l r := by
        rcases List.mem_cons.1 hz with rfl | hz
        · obtain rfl : e = l := Option.some.inj hid
          exact ⟨r, ⟨rs, hrs⟩, hlr, .inl ⟨rfl, rfl⟩⟩
        · rw [List.mem_singleton.1 hz] at hid
          obtain rfl : e = r := Option.some.inj hid
          exact ⟨l, ⟨ls, hls⟩, hrl, .inr ⟨rfl, rfl⟩⟩
      have hxmem : x ∈ s.chart.edges :=
        hgrows.mem_edges (hgrows₁.mem_edges (hwf.mem_edges_iff.2 hxjust))
      obtain ⟨j, hj⟩ := List.mem_iff_getElem?.1 hxmem
      obtain ⟨x', hx', hall⟩ := hdone j (mem_scan.2 ⟨x, hj, hpartner⟩)
      obtain rfl : x = x' := Option.some.inj (hj.symm.trans hx')
      exact hall l ls r rs _ hinfers' hls hpairs

end Chart

namespace Rule

variable [DecidableEq L] [LawfulLabel L]

/-- Every rule can be applied to as many edges as it takes. -/
theorem apply_spec {c : Chart L} (hwf : c.WellFormed) {g : Grammar L} (hg : g.Indexed)
    (rule : Rule) (id? : Option EdgeId) (harity : rule.arity = id?.toList.length)
    (hid : ∀ id ∈ id?, id < c.size) :
    ∃ c' changed, rule.apply g id? c = .ok (c', changed) ∧
      Applied g.productions rule id? c c' changed := by
  cases rule with
  | leafInit =>
    cases id? with
    | some id => cases harity
    | none => exact Chart.leafInit_applied hg hwf
  | emptyPredict =>
    cases id? with
    | some id => cases harity
    | none => exact Chart.emptyPredict_applied hg hwf
  | predictCombine =>
    cases id? with
    | none => cases harity
    | some id => exact Chart.predictCombine_applied hg hwf (hid id rfl)
  | fundamental =>
    cases id? with
    | none => cases harity
    | some id =>
      obtain ⟨e, he⟩ := Chart.lt_size_iff.1 (hid id rfl)
      obtain ⟨s, hrun, -, happlied⟩ := Chart.combineAll_spec hwf g.productions he
      exact ⟨s.chart, s.changed.toList, by rw [apply, hrun, ok_bind], happlied⟩

end Rule

end ChartParsing
