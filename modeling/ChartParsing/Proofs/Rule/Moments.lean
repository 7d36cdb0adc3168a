/-
ChartParsing/Proofs/Rule/Moments.lean

The charts that a parse goes through.

Rules change a chart by inserting one edge after the other, and a chart can be
looked at between any two insertions.  `Chart.Moment` has all charts that can
be seen there: the empty one, and what comes from another one by building an
index, or by inserting what a rule offers to it.

What inferences keep holds at every moment (`Moment.follows`), and rules lead
from moments to moments: the lists of offers that are inserted one by one are
still offers when their turn comes, and under a cursor each step combines
partners as they are just then (`Moment.perform`).
-/
import ChartParsing.Proofs.Rule.Run

namespace ChartParsing

variable {L : Type} [Label L]

/-- A sweep keeps what each of its acts keeps. -/
theorem Sweep.invariant {act : Act L} (cs : List Constraint) {P : Chart L → Prop} {bits : Nat}
    {c : Chart L} {s : Sweep L}
    (hact : ∀ d id d' more, P d → id ∈ d.scan cs → act d id = .ok (d', more) → P d')
    (hserves : ∀ d, P d → d.Serves (Chart.sourceOf cs)) (hc : P c)
    (h : run act bits c ⟨Chart.sourceOf cs, 0⟩ = .ok s) : P s.chart := by
  obtain ⟨n, hn⟩ := repeats_of_rounds h
  -- the cursor keeps its source, so it delivers what the chart scans
  have hinv : P s.chart ∧ s.cursor.source = Chart.sourceOf cs := by
    refine hn.invariant (P := fun s => P s.chart ∧ s.cursor.source = Chart.sourceOf cs) ?_
      ⟨hc, rfl⟩
    rintro ⟨d, ⟨source, taken⟩, changed⟩ t ⟨hd, hsource⟩ hpending hadvance
    obtain rfl : source = Chart.sourceOf cs := hsource
    obtain ⟨⟨id, cursor'⟩, hnext⟩ := Option.isSome_iff_exists.1 hpending
    obtain ⟨hid, rfl⟩ := Chart.next?_eq_some_iff.1 hnext
    rw [Chart.reached_sourceOf (hserves d hd)] at hid
    rw [advance, hnext] at hadvance
    obtain ⟨⟨d', more⟩, hrun, ht⟩ := exists_of_bind_eq_ok hadvance
    obtain rfl := Except.ok.inj ht
    exact ⟨hact d id d' more hd (List.mem_of_getElem? hid) hrun, rfl⟩
  exact hinv.1

namespace Chart

variable [DecidableEq L]

/-- The charts that can be seen between insertions while rules are applied. -/
inductive Moment (g : Grammar L) (tokens : List String) : Chart L → Prop
  | new : Moment g tokens (.new tokens)
  | index {c attributes} : Moment g tokens c → Moment g tokens (c.ensureIndex attributes)
  | insert {c c' rule o id?} : Moment g tokens c → c.Offers g rule o →
      c.insert o.1 o.2 = .ok (c', id?) → Moment g tokens c'

variable [LawfulLabel L] {g : Grammar L} {tokens : List String} {c c' : Chart L}

/-! ### What holds at every moment -/

/-- Inserting an offer of a rule is making inferences by it. -/
theorem Offers.insert_follows (hg : g.Indexed) (hwf : c.WellFormed) {rule : Rule}
    {o : Edge L × List Pointers} {id? : Option EdgeId} (ho : c.Offers g rule o)
    (h : c.insert o.1 o.2 = .ok (c', id?)) :
    Follows g.productions bottomUpStrategy c c' id?.toList := by
  have hins := insert_inserted hwf h
  refine ⟨hins.wellFormed, hins.grows, ?_⟩
  rintro S hS hc ⟨e, es⟩ hx
  rcases (hins.justifies_iff hwf).1 hx with hx | ⟨hxo, p, hp, hmap⟩
  · exact hc _ hx
  · obtain rfl : e = o.1 := hxo
    -- the lists name edges that were there before
    rw [hins.grows.map_getElem? (ho.child_lt hg hwf p hp)] at hmap
    obtain ⟨premises, hinfers, hpremises⟩ := ho.infers hg hwf hp hmap
    exact hS rule rule.mem_bottomUpStrategy premises _ hinfers fun y hy => hc y (hpremises y hy)

omit [DecidableEq L] [LawfulLabel L] in
/-- An index more makes no difference to what a chart justifies. -/
theorem follows_ensureIndex (hwf : c.WellFormed) (productions : List (Production L))
    (rules : List Rule) (attributes : List Attribute) :
    Follows productions rules c (c.ensureIndex attributes) [] :=
  ⟨hwf.ensureIndex attributes, c.grows_ensureIndex attributes, fun _ _ hc x hx =>
    hc x ((c.grows_ensureIndex attributes).justifies_iff_of_nil.1 hx)⟩

namespace Moment

/-- Every moment has come about by inferences. -/
theorem follows (hg : g.Indexed) (h : Moment g tokens c) :
    ∃ changed, Follows g.productions bottomUpStrategy (Chart.new tokens) c changed := by
  induction h with
  | new => exact ⟨[], .refl (wellFormed_new tokens)⟩
  | @index c attributes _ ih =>
    obtain ⟨changed, hfollows⟩ := ih
    have hindex := follows_ensureIndex hfollows.wellFormed g.productions bottomUpStrategy attributes
    exact ⟨_, (hfollows.trans hindex).mono fun r _ => r.mem_bottomUpStrategy⟩
  | insert _ ho hinsert ih =>
    obtain ⟨changed, hfollows⟩ := ih
    have hstep := ho.insert_follows hg hfollows.wellFormed hinsert
    exact ⟨_, (hfollows.trans hstep).mono fun r _ => r.mem_bottomUpStrategy⟩

theorem wellFormed (hg : g.Indexed) (h : Moment g tokens c) : c.WellFormed := by
  obtain ⟨changed, hfollows⟩ := h.follows hg
  exact hfollows.wellFormed

/-! ### From moments to moments -/

/-- Inserting offers that stay offers, one after the other. -/
theorem insertAll (hg : g.Indexed) {rule : Rule} {offers : List (Edge L × List Pointers)}
    {changed : List EdgeId} (hc : Moment g tokens c)
    (hoffers : ∀ o ∈ offers, ∀ d more, Grows c d more → d.Offers g rule o)
    (h : c.insertAll offers = .ok (c', changed)) : Moment g tokens c' := by
  have hfold : ∀ {c : Chart L} {noted noted' : Array EdgeId}, Moment g tokens c →
      (∀ o ∈ offers, ∀ d more, Grows c d more → d.Offers g rule o) →
      offers.foldlM insertNext (c, noted) = .ok (c', noted') → Moment g tokens c' := by
    clear hc hoffers h
    induction offers with
    | nil =>
      intro c noted noted' hc _ h
      obtain ⟨rfl, -⟩ := Prod.mk.inj (Except.ok.inj h)
      exact hc
    | cons o offers ih =>
      intro c noted noted' hc hoffers h
      rw [List.foldlM_cons] at h
      obtain ⟨⟨d, noted₁⟩, hnext, hrest⟩ := exists_of_bind_eq_ok h
      obtain ⟨⟨d', id?⟩, hinsert, hnoted⟩ := exists_of_bind_eq_ok hnext
      obtain rfl : d' = d := by
        cases id? with
        | none => exact (Prod.mk.inj (Except.ok.inj hnoted)).1
        | some id => exact (Prod.mk.inj (Except.ok.inj hnoted)).1
      have ho := hoffers o List.mem_cons_self c [] (Grows.refl c)
      have hgrows := (insert_inserted (hc.wellFormed hg) hinsert).grows
      refine ih (hc.insert ho hinsert) (fun o' ho' d more hd => ?_) hrest
      exact hoffers o' (List.mem_cons_of_mem _ ho') d _ (hgrows.trans hd)
  obtain ⟨⟨d, noted⟩, hrun, hd⟩ := exists_of_bind_eq_ok h
  obtain ⟨rfl, -⟩ := Prod.mk.inj (Except.ok.inj hd)
  exact hfold hc hoffers hrun

/-- Combining adjacent edges is a step of its own, and lets the chart grow. -/
theorem combine (hg : g.Indexed) (hc : Moment g tokens c) {left right : EdgeId} {l r : Edge L}
    (hl : c.edges[left]? = some l) (hr : c.edges[right]? = some r) (hadj : l.stop = r.start)
    (hcomplete : r.isComplete = true) {more : List EdgeId}
    (h : c.combine left right = .ok (c', more)) :
    Moment g tokens c' ∧ ∃ changed, Grows c c' changed := by
  rw [Chart.combine, edge_eq_ok hl, edge_eq_ok hr, ok_bind, ok_bind] at h
  cases ha : Label.advance l.lhs l.rhs l.dot r.lhs with
  | none =>
    rw [ha] at h
    obtain ⟨rfl, -⟩ := Prod.mk.inj (Except.ok.inj h)
    exact ⟨hc, [], Grows.refl c⟩
  | some a =>
    rw [ha] at h
    obtain ⟨e, he, hrest⟩ := exists_of_bind_eq_ok h
    obtain ⟨⟨d, id?⟩, hinsert, hd⟩ := exists_of_bind_eq_ok hrest
    obtain ⟨rfl, -⟩ := Prod.mk.inj (Except.ok.inj hd)
    have hmove : l.moveDot r.stop a = .ok e := by
      cases hmake : l.moveDot r.stop a with
      | error fault =>
        rw [hmake] at he
        cases he
      | ok e' =>
        rw [hmake] at he
        obtain rfl : e' = e := Except.ok.inj he
        rfl
    rw [insertAfter, cpls_eq_ok (lt_size hl)] at hinsert
    exact ⟨hc.insert (.combine hl hr hadj hcomplete ha hmove) hinsert, id?.toList,
      (insert_inserted (hc.wellFormed hg) hinsert).grows⟩

/-- Combining an edge with a partner. -/
theorem combineWith (hg : g.Indexed) (hc : Moment g tokens c) {id partner : EdgeId}
    {e x : Edge L} (he : c.edges[id]? = some e) (hx : c.edges[partner]? = some x)
    (hpartner : e.Partner x) {more : List EdgeId}
    (h : Chart.combineWith e id c partner = .ok (c', more)) :
    Moment g tokens c' ∧ ∃ changed, Grows c c' changed := by
  rw [Chart.combineWith] at h
  split at h
  · rename_i hcomplete
    obtain ⟨hadj, -, -⟩ := (Edge.partner_iff_of_complete hcomplete).1 hpartner
    exact hc.combine hg hx he hadj hcomplete h
  · rename_i hincomplete
    obtain ⟨next, hnext⟩ := Option.ne_none_iff_exists'.1 (mt Edge.next?_eq_none_iff.1 hincomplete)
    obtain ⟨hadj, hcomplete, -⟩ := (Edge.partner_iff_of_next hnext).1 hpartner
    exact hc.combine hg he hx hadj.symm hcomplete h

theorem combineAll (hg : g.Indexed) (hc : Moment g tokens c) {id : EdgeId} {s : Sweep L}
    (h : c.combineAll id = .ok s) : Moment g tokens s.chart := by
  obtain ⟨e, he, h⟩ := exists_of_bind_eq_ok h
  obtain ⟨⟨c₁, cursor⟩, hselect, hrun⟩ := exists_of_bind_eq_ok h
  have he := getElem?_of_edge_eq_ok he
  obtain ⟨c₂, hselect', hgrows, -, hserves⟩ :=
    select_eq (c := c) (Edge.repeated?_partnerConstraints e)
  obtain ⟨rfl, rfl⟩ := Prod.mk.inj (Except.ok.inj (hselect'.symm.trans hselect))
  have hselected : Moment g tokens c₂ := by
    rw [select] at hselect
    split at hselect
    · obtain ⟨rfl, -⟩ := Prod.mk.inj (Except.ok.inj hselect)
      exact hc
    · obtain ⟨cs, -, hselect⟩ := exists_of_bind_eq_ok hselect
      obtain ⟨rfl, -⟩ := Prod.mk.inj (Except.ok.inj hselect)
      exact hc.index
  -- the edge stays where it is, and the index that the cursor reads
  have hinv := Sweep.invariant (partnerConstraints e)
    (P := fun d => Moment g tokens d ∧ d.edges[id]? = some e ∧
      d.Serves (sourceOf (partnerConstraints e)))
    (fun d partner d' more hd hpartner hstep => by
      obtain ⟨hd, hid, hs⟩ := hd
      obtain ⟨x, hx, hx'⟩ := mem_scan.1 hpartner
      obtain ⟨hd', changed, hgrows⟩ := hd.combineWith hg hid hx hx' hstep
      exact ⟨hd', hgrows.getElem? hid, hgrows.serves _ hs⟩)
    (fun d hd => hd.2.2) ⟨hselected, hgrows.getElem? he, hserves⟩ hrun
  exact hinv.1

/-- A rule that is applied to an edge, or to nothing. -/
theorem apply (hg : g.Indexed) (hc : Moment g tokens c) {rule : Rule} {id? : Option EdgeId}
    {changed : List EdgeId} (h : rule.apply g id? c = .ok (c', changed)) :
    Moment g tokens c' := by
  cases rule with
  | leafInit =>
    cases id? with
    | some id => cases h
    | none =>
      refine hc.insertAll hg (fun o ho d more hd => .leaf ?_) h
      rw [leafOffers, leafEdges, hd.tokens]
      exact ho
  | emptyPredict =>
    cases id? with
    | some id => cases h
    | none =>
      refine hc.insertAll hg (fun o ho d more hd => .empty ?_) h
      rw [emptyOffers, hd.tokens]
      exact ho
  | predictCombine =>
    cases id? with
    | none => cases h
    | some id =>
      obtain ⟨b, hb, h⟩ := exists_of_bind_eq_ok h
      have hb := getElem?_of_edge_eq_ok hb
      split at h
      · rename_i hcomplete
        obtain ⟨offers, hoffers, h⟩ := exists_of_bind_eq_ok h
        obtain ⟨offers', hoffers', -⟩ := predictions_spec hg id b
        rw [hoffers'] at hoffers
        obtain rfl : offers' = offers := Except.ok.inj hoffers
        exact hc.insertAll hg
          (fun o ho d more hd => .predict (hd.getElem? hb) hcomplete hoffers' ho) h
      · obtain ⟨rfl, -⟩ := Prod.mk.inj (Except.ok.inj h)
        exact hc
  | fundamental =>
    cases id? with
    | none => cases h
    | some id =>
      obtain ⟨s, hs, h⟩ := exists_of_bind_eq_ok h
      obtain ⟨rfl, -⟩ := Prod.mk.inj (Except.ok.inj h)
      exact hc.combineAll hg hs

theorem applyToAll (hg : g.Indexed) (hc : Moment g tokens c) {rule : Rule} {s : Sweep L}
    (h : rule.applyToAll g c = .ok s) : Moment g tokens s.chart :=
  Sweep.invariant [] (P := Moment g tokens)
    (fun _ _ _ _ hd _ hstep => hd.apply hg hstep) (fun _ _ => trivial) hc h

theorem applyEverywhere (hg : g.Indexed) (hc : Moment g tokens c) {rule : Rule}
    {changed : List EdgeId} (h : rule.applyEverywhere g c = .ok (c', changed)) :
    Moment g tokens c' := by
  rw [Rule.applyEverywhere] at h
  split at h
  · exact hc.apply hg h
  · obtain ⟨s, hs, h⟩ := exists_of_bind_eq_ok h
    obtain ⟨rfl, -⟩ := Prod.mk.inj (Except.ok.inj h)
    exact hc.applyToAll hg hs

/-- Whatever rule is applied, and to whatever: between its insertions, and
after them, there are moments. -/
theorem perform (hg : g.Indexed) (hc : Moment g tokens c) {a : Application}
    {changed : List EdgeId} (h : a.perform g c = .ok (c', changed)) : Moment g tokens c' := by
  cases a with
  | once rule id? => exact hc.apply hg h
  | everywhere rule => exact hc.applyEverywhere hg h

end Moment

end Chart

end ChartParsing
