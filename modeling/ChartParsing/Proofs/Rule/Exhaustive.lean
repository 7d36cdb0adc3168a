/-
ChartParsing/Proofs/Rule/Exhaustive.lean

Looking up by keys loses nothing.

Rules find productions and partners by the keys of labels, and only then ask
whether labels fit.  Labels that fit share a key, and moving a dot changes no
key (`Label.KeepsKeys`), for plain symbols as for those that carry features.
So nothing is missed that a search without keys would come upon:

* predicting from an edge makes the insertions that trying every production
  makes that is not empty (`predictions_eq_predictionsAmong`);
* combining an edge with its partners makes the insertions that trying every
  edge makes, in the order of the ids (`combineAll_eq_tryAll`);
* the roots that are read are all edges over the input that are accepted.

`Chart.FindsAll` has these three, and holds of every chart
(`Session.run_findsAll`).
-/
import ChartParsing.Proofs.Parser.Termination
import ChartParsing.Proofs.Parser.Parses
import ChartParsing.Proofs.Parser.Steps
import ChartParsing.Proofs.Rule.Proposals
import ChartParsing.Proofs.Rule.Report

namespace ChartParsing

/-! ### Keys -/

/-- Labels that fit share a key, and advancing keeps every key where it is. -/
structure Label.KeepsKeys (L : Type) [Label L] : Prop where
  found : ∀ {lhs rhs dot} {found : L} {a}, advance lhs rhs dot found = some a →
    ∃ next, rhs[dot]? = some next ∧ key next = key found
  length : ∀ {lhs rhs dot} {found : L} {a}, advance lhs rhs dot found = some a →
    a.rhs.length = rhs.length
  slots : ∀ {lhs rhs dot} {found : L} {a}, advance lhs rhs dot found = some a →
    ∀ (i : Nat) (l l' : L), rhs[i]? = some l → a.rhs[i]? = some l' → key l' = key l
  lhs : ∀ {lhs rhs dot} {found : L} {a}, advance lhs rhs dot found = some a →
    key a.lhs = key lhs
  root : ∀ {root found : L}, acceptsRoot root found = true → key root = key found

variable {L : Type} [Label L]

theorem LawfulLabel.keepsKeys [LawfulLabel L] : Label.KeepsKeys L where
  found := advance_next
  length := advance_length
  slots := by
    intro lhs rhs dot found a h i l l' hl hl'
    have hkeys := congrArg (fun keys => keys[i]?) (advance_keys h)
    simp only [List.getElem?_map, hl, hl', Option.map_some] at hkeys
    exact Option.some.inj hkeys
  lhs := advance_key_lhs
  root := fun h => (key_of_acceptsRoot h).symm

namespace Chart

/-! ### Predicting without keys -/

/-- What the productions allow, tried one by one, when their first symbol is
matched by the complete edge `e`. -/
def predictionsAmong (candidates : List (Production L)) (id : EdgeId) (e : Edge L) :
    Except EdgeFault (List (Edge L × List Pointers)) :=
  (candidates.filterMap fun p => Label.advance p.lhs p.rhs 0 e.lhs).mapM fun a => do
    let new ← Edge.make e.start e.stop a.lhs a.rhs 1
    .ok (new, [[id]])

/-- Predicts from an edge by trying every production that is not empty. -/
def predictTryingAll [DecidableEq L] (g : Grammar L) (id : EdgeId) (c : Chart L) :
    Except ChartError (Chart L × List EdgeId) := do
  let e ← c.edge id
  if e.isComplete then
    let candidates := g.productions.filter fun p => !p.isEmpty
    let offers ← (predictionsAmong candidates id e).mapError .impossibleEdge
    c.insertAll offers
  else .ok (c, [])

/-- A production that is not filed under the key of `e` does not fit it. -/
theorem predictions_eq_predictionsAmong [LawfulLabel L] {g : Grammar L} (hg : g.Indexed)
    (id : EdgeId) (e : Edge L) :
    predictions g id e = predictionsAmong (g.productions.filter fun p => !p.isEmpty) id e := by
  rw [predictions, predictionsAmong, hg, ProductionIndex.withFirst_ofList, List.filterMap_filter,
    List.filterMap_filter]
  refine congrArg (List.mapM _) (List.filterMap_congr fun p _ => ?_)
  cases hadvance : Label.advance p.lhs p.rhs 0 e.lhs with
  | none => simp
  | some a =>
    obtain ⟨next, hnext, hkey⟩ := LawfulLabel.advance_next hadvance
    have hne : p.isEmpty = false := by
      rw [Production.isEmpty, List.isEmpty_eq_false_iff]
      exact List.ne_nil_of_mem (List.mem_of_getElem? hnext)
    rw [← List.head?_eq_getElem?] at hnext
    simp [hnext, hkey, hne]

theorem apply_predictCombine_eq [DecidableEq L] [LawfulLabel L] {g : Grammar L} (hg : g.Indexed)
    (id : EdgeId) (c : Chart L) :
    Rule.predictCombine.apply g (some id) c = predictTryingAll g id c := by
  simp only [Rule.apply, predictTryingAll, predictions_eq_predictionsAmong hg]

/-! ### Combining without keys -/

/-- The insertion that moves the dot of the edge `left` over the edge `right`, if the label fits. -/
def proposal (c : Chart L) (left right : EdgeId) :
    Except ChartError (Option (Edge L × List Pointers)) := do
  let l ← c.edge left
  let r ← c.edge right
  match Label.advance l.lhs l.rhs l.dot r.lhs with
  | none => .ok none
  | some a => do
    let new ← (l.moveDot r.stop a).mapError .impossibleEdge
    let known ← c.cpls left
    .ok (some (new, known.map fun p => p ++ [right]))

/-- What is proposed for a partner of the edge. -/
def proposeWith (e : Edge L) (id : EdgeId) : Proposal L := fun c partner =>
  if e.isComplete then c.proposal partner id else c.proposal id partner

/-- What is proposed for any edge: it has to be adjacent, and complete if `e`
is not, and otherwise nothing is asked but whether the label fits. -/
def proposeAny (e : Edge L) (id : EdgeId) : Proposal L := fun c other => do
  let x ← c.edge other
  if e.isComplete then
    if x.isIncomplete ∧ x.stop = e.start then c.proposal other id else .ok none
  else if x.isComplete ∧ x.start = e.stop then c.proposal id other
  else .ok none

/-- Combining is making the insertion that is proposed. -/
theorem combine_eq_makeProposed [DecidableEq L] (c : Chart L) (left right : EdgeId) :
    c.combine left right = (c.proposal left right >>= c.makeProposed) := by
  rw [combine, proposal]
  cases c.edge left with
  | error x => rfl
  | ok l =>
    cases c.edge right with
    | error x => rfl
    | ok r =>
      simp only [ok_bind]
      cases Label.advance l.lhs l.rhs l.dot r.lhs with
      | none => rfl
      | some a =>
        dsimp only
        cases l.moveDot r.stop a with
        | error fault => rfl
        | ok new =>
          rw [Except.mapError, ok_bind, ok_bind, insertAfter]
          cases c.cpls left <;> rfl

theorem combineWith_eq_acting [DecidableEq L] (e : Edge L) (id : EdgeId) :
    combineWith e id = acting (proposeWith e id) := by
  funext c partner
  rw [combineWith, acting, proposeWith]
  split
  · exact c.combine_eq_makeProposed partner id
  · exact c.combine_eq_makeProposed id partner

namespace SameContents

variable {c c' : Chart L}

theorem proposal (h : SameContents c c') (left right : EdgeId) :
    c'.proposal left right = c.proposal left right := by
  simp only [Chart.proposal, h.edge, h.cpls]

theorem proposeAny (h : SameContents c c') (e : Edge L) (id other : EdgeId) :
    Chart.proposeAny e id c' other = Chart.proposeAny e id c other := by
  simp only [Chart.proposeAny, h.edge, h.proposal]

end SameContents

variable {e x : Edge L} {id other : EdgeId} {c : Chart L}

/-- For a partner, the same is proposed. -/
theorem proposeAny_of_partner (hx : c.edges[other]? = some x) (h : e.Partner x) :
    proposeAny e id c other = proposeWith e id c other := by
  rw [proposeAny, edge_eq_ok hx, ok_bind, proposeWith]
  cases hcomplete : e.isComplete with
  | true =>
    obtain ⟨hadj, hincomplete, -⟩ := (Edge.partner_iff_of_complete hcomplete).1 h
    simp [Edge.isIncomplete, hincomplete, hadj]
  | false =>
    have hnone : e.next? ≠ none := by simp [Edge.next?_eq_none_iff, hcomplete]
    obtain ⟨next, hnext⟩ := Option.ne_none_iff_exists'.1 hnone
    obtain ⟨hadj, hx, -⟩ := (Edge.partner_iff_of_next hnext).1 h
    simp [hx, hadj]

/-- For any other edge, nothing is. -/
theorem proposeAny_of_not_partner [LawfulLabel L] (he : c.edges[id]? = some e)
    (hx : c.edges[other]? = some x) (h : ¬ e.Partner x) :
    proposeAny e id c other = .ok none := by
  rw [proposeAny, edge_eq_ok hx, ok_bind]
  cases hcomplete : e.isComplete with
  | true =>
    simp only [if_true]
    split
    · rename_i hadj
      rw [proposal, edge_eq_ok hx, ok_bind, edge_eq_ok he, ok_bind]
      cases hadvance : Label.advance x.lhs x.rhs x.dot e.lhs with
      | none => rfl
      | some a => exact absurd (Edge.partners_of_advance hcomplete hadj.2 hadvance).2 h
    · rfl
  | false =>
    simp only [Bool.false_eq_true, if_false]
    split
    · rename_i hadj
      rw [proposal, edge_eq_ok he, ok_bind, edge_eq_ok hx, ok_bind]
      cases hadvance : Label.advance e.lhs e.rhs e.dot x.lhs with
      | none => rfl
      | some a => exact absurd (Edge.partners_of_advance hadj.1 hadj.2.symm hadvance).1 h
    · rfl

variable [DecidableEq L]

/-- The insertions `offers`, which combining an edge with its partners makes on
the way to `s`, are those that come of trying every edge of the chart in turn. -/
structure CombinesAll (c : Chart L) (id : EdgeId) (e : Edge L)
    (offers : List (Edge L × List Pointers)) (s : Sweep L) : Prop where
  combineAll : c.combineAll id = .ok s
  /-- Under the cursor on the partners, the rule makes what is proposed, and nothing else. -/
  acting : combineWith e id = acting (proposeWith e id)
  partners : ∃ c₁ cursor, c.select (partnerConstraints e) = .ok (c₁, cursor) ∧
    c₁.WorksThrough (proposeWith e id) cursor offers s.chart s.changed.toList
  /-- Trying every edge comes to this, and to nothing else. -/
  everyEdge : ∃ d, SameContents s.chart d ∧ ∀ offers' d' changed,
    c.WorksThrough (proposeAny e id) ⟨.all, 0⟩ offers' d' changed ↔
      offers' = offers ∧ d' = d ∧ changed = s.changed.toList

/-- An edge that is no partner would not have fitted. -/
theorem exists_combinesAll [LawfulLabel L] {g : Grammar L} (hg : g.Indexed) (hwf : c.WellFormed)
    (he : c.edges[id]? = some e) : ∃ offers s, c.CombinesAll id e offers s := by
  obtain ⟨c₁, cursor, n, s, hselect, hexits, hall⟩ := (hwf.sweepsEnd hg).partners id e he
  rw [combineWith_eq_acting] at hexits
  obtain ⟨offers, changed, hworks, hchanged⟩ := worksThrough_of_exits hexits
  obtain rfl : s.changed.toList = changed := hchanged
  obtain ⟨c₂, hselect', hgrows, hwf₁, hserves⟩ :=
    select_eq (c := c) (Edge.repeated?_partnerConstraints e)
  obtain ⟨rfl, rfl⟩ := Prod.mk.inj (Except.ok.inj (hselect'.symm.trans hselect))
  -- the edge stays where it is, so its partners are told apart alike all the way
  have hedge : ∀ {d d' : Chart L} {o : Edge L × List Pointers} {id?}, d.WellFormed ∧
      d.edges[id]? = some e → d.insert o.1 o.2 = .ok (d', id?) →
      (d'.WellFormed ∧ d'.edges[id]? = some e) ∧ Grows d d' id?.toList := by
    rintro d d' o id? ⟨hwf, he⟩ hinsert
    have hins := insert_inserted hwf hinsert
    exact ⟨⟨hins.wellFormed, hins.grows.getElem? he⟩, hins.grows⟩
  obtain ⟨d, hevery, hsame⟩ : ∃ d, c.WorksThrough (proposeAny e id) ⟨.all, 0⟩ offers d
      s.changed.toList ∧ SameContents s.chart d :=
    hworks.over_all (I := fun d => d.WellFormed ∧ d.edges[id]? = some e)
      (fun d d' o id? => hedge)
      (fun d d' other _ hsame hmem => by
        obtain ⟨x, hx, hpartner⟩ := mem_scan.1 hmem
        rw [hsame.proposeAny, proposeAny_of_partner hx hpartner])
      (fun d d' other hd hsame hlt hnot => by
        obtain ⟨x, hx⟩ := lt_size_iff.1 hlt
        rw [hsame.proposeAny]
        exact proposeAny_of_not_partner hd.2 hx fun h => hnot (mem_scan.2 ⟨x, hx, h⟩))
      rfl ⟨hwf₁ hwf, hgrows.getElem? he⟩ hserves (.of_grows_nil hgrows)
      ⟨Nat.zero_le _, fun m id _ => by omega⟩
  refine ⟨offers, s, hall, combineWith_eq_acting e id, ⟨_, _, hselect', hworks⟩, d, hsame, ?_⟩
  intro offers' d' changed
  constructor
  · exact hevery.unique
  · rintro ⟨rfl, rfl, rfl⟩
    exact hevery

/-- On this chart the lookups of the rules, and that of the parses, lose nothing. -/
structure FindsAll (g : Grammar L) (c : Chart L) : Prop where
  predicting : ∀ id e, c.edges[id]? = some e →
    predictions g id e = predictionsAmong (g.productions.filter fun p => !p.isEmpty) id e ∧
      Rule.predictCombine.apply g (some id) c = predictTryingAll g id c
  combining : ∀ id e, c.edges[id]? = some e → ∃ offers s,
    Rule.fundamental.apply g (some id) c = .ok (s.chart, s.changed.toList) ∧
      c.CombinesAll id e offers s
  reading : ∀ root, ∃ ps, c.parses root = .ok ps ∧ ps.chart = c ∧ ps.ready = [] ∧
    ps.roots.Pairwise (· < ·) ∧ ∀ id, id ∈ ps.roots ↔
      ∃ e, c.edges[id]? = some e ∧ e.start = 0 ∧ e.stop = c.tokens.length ∧
        Label.acceptsRoot root e.lhs = true

theorem WellFormed.findsAll [LawfulLabel L] {g : Grammar L} (hg : g.Indexed)
    (hwf : c.WellFormed) : c.FindsAll g where
  predicting := fun id e _ =>
    ⟨predictions_eq_predictionsAmong hg id e, apply_predictCombine_eq hg id c⟩
  combining := by
    intro id e he
    obtain ⟨offers, s, hs⟩ := exists_combinesAll hg hwf he
    exact ⟨offers, s, by rw [Rule.apply, hs.combineAll, ok_bind], hs⟩
  reading := fun root =>
    ⟨_, c.parses_eq root, rfl, rfl, (c.pairwise_scan _).filter _, fun _ => mem_roots⟩

end Chart

namespace Session

/-- With either kind of labels, labels that fit share a key and keys stay where
they are; and so, whatever a chart has been asked before, lookups by keys lose
nothing on it. -/
theorem run_findsAll :
    (Label.KeepsKeys Symbol ∧
      ∀ tokens (requests : List (Request Symbol)) (g : Grammar Symbol), g.Indexed →
        (run tokens requests).chart.FindsAll g) ∧
    (Label.KeepsKeys FeatureSymbol ∧
      ∀ tokens (requests : List (Request FeatureSymbol)) (g : Grammar FeatureSymbol), g.Indexed →
        (run tokens requests).chart.FindsAll g) :=
  ⟨⟨LawfulLabel.keepsKeys, fun tokens requests _ hg =>
      (sound_run tokens requests).wellFormed.findsAll hg⟩,
    ⟨LawfulLabel.keepsKeys, fun tokens requests _ hg =>
      (sound_run tokens requests).wellFormed.findsAll hg⟩⟩

/-- The edge over nothing that is combined with what it has just led to, and a
leaf that predicts by a production with features. -/
theorem run_findsAll_over_nothing :
    let s := Symbol.nonterminal "S"
    let g := Grammar.ofList s []
    let plain := run [] (overNothing s)
    let e := Edge.ofProduction ⟨s, []⟩ 0
    let g' := Grammar.ofList (FeatureSymbol.category (.bare "S")) Chart.agreeing
    let featured := run ["dogs"] [.apply g' rfl (.everywhere .leafInit)]
    g.Indexed ∧ g'.Indexed ∧
      (plain.chart.edges[1]? = some e ∧ ∃ offers d, d.size = 4 ∧
        plain.chart.WorksThrough (Chart.proposeAny e 1) ⟨.all, 0⟩ offers d [2, 3]) ∧
        featured.chart.edges[0]? = some (.leaf "dogs" 0) ∧
          Chart.predictions g' 0 (.leaf "dogs" 0) =
            Chart.predictionsAmong (Chart.agreeing.filter fun p => !p.isEmpty) 0 (.leaf "dogs" 0) := by
  intro s g plain e g' featured
  have hedge : plain.chart.edges[1]? = some e := by decide +kernel
  have hleaf : featured.chart.edges[0]? = some (.leaf "dogs" 0) := by decide +kernel
  have hplain : plain.chart.FindsAll g := run_findsAll.1.2 [] (overNothing s) g rfl
  have hfeatured : featured.chart.FindsAll g' := run_findsAll.2.2 ["dogs"] _ g' rfl
  obtain ⟨offers, t, happly, hcombines⟩ := hplain.combining 1 e hedge
  obtain ⟨d, hsame, hevery⟩ := hcombines.everyEdge
  have hresult : (Rule.fundamental.apply g (some 1) plain.chart).map (fun r => (r.1.size, r.2)) =
      .ok (4, [2, 3]) := by decide +kernel
  rw [happly] at hresult
  obtain ⟨hsize, hchanged⟩ := Prod.mk.inj (Except.ok.inj hresult)
  refine ⟨rfl, rfl, ⟨hedge, offers, d, hsame.size.trans hsize, ?_⟩, hleaf,
    (hfeatured.predicting 0 _ hleaf).1⟩
  exact (hevery offers d [2, 3]).2 ⟨rfl, rfl, hchanged.symm⟩

end Session

end ChartParsing
