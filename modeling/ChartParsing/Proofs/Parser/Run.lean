/-
ChartParsing/Proofs/Parser/Run.lean

Every parse is a run of rule applications.

Whatever the strategy and the loop, a parse does nothing but apply rules, to an
edge or wherever they can be.  So the chart that it returns is what some list
of applications makes of the empty one (`Parser.isRun_chartParseWith`), and
what holds after every run holds after every parse.

Along a run there are only moments, and at every moment the trees of an edge
can be read: the lists are steps of a derivation (`Moment.stepped`), and no
leaf stands past the tokens (`Moment.trees_eq`).
-/
import ChartParsing.Proofs.Parser.Parses
import ChartParsing.Proofs.Parser.Steps
import ChartParsing.Proofs.Rule.Moments

namespace ChartParsing

variable {L σ ε : Type} [Label L] [DecidableEq L] {g : Grammar L} {tokens : List String}

namespace Chart

/-! ### Runs -/

/-- The chart is what some applications, one after the other, make of the empty one. -/
def IsRun (g : Grammar L) (tokens : List String) (c : Chart L) : Prop :=
  ∃ applications, c = (new tokens).run g applications

variable {c c' : Chart L}

theorem isRun_new (g : Grammar L) (tokens : List String) : IsRun g tokens (new tokens) := ⟨[], rfl⟩

/-- A run can go on with any application. -/
theorem IsRun.perform (h : IsRun g tokens c) {a : Application} {changed : List EdgeId}
    (ha : a.perform g c = .ok (c', changed)) : IsRun g tokens c' := by
  obtain ⟨applications, rfl⟩ := h
  refine ⟨applications ++ [a], ?_⟩
  rw [run, List.foldl_append, List.foldl_cons, List.foldl_nil]
  show c' = ((new tokens).run g applications).after
    (a.perform g ((new tokens).run g applications))
  rw [ha]
  rfl

variable [LawfulLabel L]

/-- From a moment on, a run leads to moments. -/
theorem Moment.run (hg : g.Indexed) (applications : List Application) (hc : Moment g tokens c) :
    Moment g tokens (c.run g applications) := by
  induction applications generalizing c with
  | nil => exact hc
  | cons a applications ih =>
    show Moment g tokens ((c.after (a.perform g c)).run g applications)
    cases ha : a.perform g c with
    | error x => exact ih hc
    | ok r => exact ih (hc.perform hg ha)

theorem IsRun.moment (hg : g.Indexed) (h : IsRun g tokens c) : Moment g tokens c := by
  obtain ⟨applications, rfl⟩ := h
  exact Moment.new.run hg applications

/-! ### Reading the charts of a run -/

namespace Moment

theorem tokens_eq (hg : g.Indexed) (hc : Moment g tokens c) : c.tokens = tokens := by
  obtain ⟨changed, hfollows⟩ := hc.follows hg
  exact hfollows.grows.tokens

/-- What inferences keep holds of all that a moment justifies. -/
theorem of_closedUnder (hg : g.Indexed) (hc : Moment g tokens c) {S : Justification L → Prop}
    (hS : ∀ rule, ClosedUnder g.productions tokens rule S) {x : Justification L}
    (hx : c.Justifies x) : S x := by
  obtain ⟨changed, hfollows⟩ := hc.follows hg
  exact (hfollows.justified hx).of_closedUnder fun rule _ => hS rule

/-- Every list is a step of a derivation, from edges of the chart. -/
theorem stepped (hg : g.Indexed) (hc : Moment g tokens c) {id : EdgeId} {e : Edge L}
    {p : Pointers} (he : c.edges[id]? = some e) (hp : p ∈ c.pointers id) :
    ∃ es, p.map (c.edges[·]?) = es.map some ∧
      Stepped g.productions tokens (· ∈ c.edges) (e, es) := by
  obtain ⟨changed, hfollows⟩ := hc.follows hg
  exact hfollows.stepped he hp

theorem exists_eq_leaf (hg : g.Indexed) (hc : Moment g tokens c) {e : Edge L} (he : e ∈ c.edges)
    (hleaf : e.isLeaf = true) : ∃ i t, tokens[i]? = some t ∧ e = Edge.leaf t i := by
  obtain ⟨es, hes⟩ := (hc.wellFormed hg).mem_edges_iff.1 he
  exact hc.of_closedUnder hg (fun _ => closedUnder_leaf) hes hleaf

theorem not_stray (hg : g.Indexed) (hc : Moment g tokens c) (id : EdgeId) : ¬ c.Stray id := by
  refine not_stray_of_leaves (fun e he hleaf => ?_) id
  rw [hc.tokens_eq hg]
  exact hc.exists_eq_leaf hg he hleaf

/-- The trees of an edge can be read at every moment. -/
theorem trees_eq (hg : g.Indexed) (hc : Moment g tokens c) {id : EdgeId} (hid : id < c.size)
    (complete : Bool) : c.trees id complete = .ok (c.treesAvoiding complete ∅ id) :=
  (hc.wellFormed hg).trees_eq (hc.not_stray hg) hid complete

end Moment

end Chart

/-! ### Parses -/

namespace Progress

variable {p p' : Progress L σ}

omit [DecidableEq L] in
/-- What each application keeps, a series of them keeps. -/
theorem through_invariant {P : Chart L → Prop}
    {step : Progress L σ → Rule → Except ChartError (Progress L σ × List EdgeId)}
    (hstep : ∀ rule q q' changed, P q.chart → step q rule = .ok (q', changed) → P q'.chart)
    {rules : List Rule} {changed : List EdgeId} (hp : P p.chart)
    (h : through step rules p = .ok (p', changed)) : P p'.chart := by
  induction rules generalizing p changed with
  | nil =>
    obtain ⟨rfl, -⟩ := Prod.mk.inj (Except.ok.inj h)
    exact hp
  | cons rule rules ih =>
    obtain ⟨⟨q, first⟩, hfirst, h⟩ := exists_of_bind_eq_ok h
    obtain ⟨⟨q', later⟩, hlater, h⟩ := exists_of_bind_eq_ok h
    obtain ⟨rfl, -⟩ := Prod.mk.inj (Except.ok.inj h)
    exact ih (hstep rule p q first hp hfirst) hlater

theorem isRun_apply {observer : Observer L σ ε} {id? : Option EdgeId} (rule : Rule)
    (q q' : Progress L σ) (changed : List EdgeId) (hq : Chart.IsRun g tokens q.chart)
    (h : q.apply g observer rule id? = .ok (q', changed)) : Chart.IsRun g tokens q'.chart := by
  obtain ⟨⟨c, more⟩, hrun, h⟩ := exists_of_bind_eq_ok h
  obtain ⟨rfl, -⟩ := Prod.mk.inj (Except.ok.inj h)
  exact hq.perform (a := .once rule id?) hrun

theorem isRun_applyEverywhere {observer : Observer L σ ε} (rule : Rule) (q q' : Progress L σ)
    (changed : List EdgeId) (hq : Chart.IsRun g tokens q.chart)
    (h : q.applyEverywhere g observer rule = .ok (q', changed)) :
    Chart.IsRun g tokens q'.chart := by
  obtain ⟨⟨c, more⟩, hrun, h⟩ := exists_of_bind_eq_ok h
  obtain ⟨rfl, -⟩ := Prod.mk.inj (Except.ok.inj h)
  exact hq.perform (a := .everywhere rule) hrun

theorem isRun_runAgenda {observer : Observer L σ ε} {config : Config} {left : List EdgeId}
    (hp : Chart.IsRun g tokens p.chart) (h : p.runAgenda g observer config = .ok (p', left)) :
    Chart.IsRun g tokens p'.chart := by
  obtain ⟨⟨q, changed⟩, hinitial, h⟩ := exists_of_bind_eq_ok h
  obtain ⟨last, hrounds, h⟩ := exists_of_bind_eq_ok h
  obtain ⟨rfl, -⟩ := Prod.mk.inj (Except.ok.inj h)
  have hq : Chart.IsRun g tokens q.chart := through_invariant isRun_apply hp hinitial
  obtain ⟨n, hn⟩ := repeats_of_rounds hrounds
  refine hn.invariant (P := fun agenda => Chart.IsRun g tokens agenda.progress.chart) ?_ hq
  rintro ⟨d, waiting⟩ agenda hd - hturn
  rw [Agenda.turn] at hturn
  split at hturn
  · obtain rfl := Except.ok.inj hturn
    exact hd
  · obtain ⟨⟨d', more⟩, hrun, hturn⟩ := exists_of_bind_eq_ok hturn
    obtain rfl := Except.ok.inj hturn
    exact through_invariant isRun_apply hd hrun

theorem isRun_runPasses {observer : Observer L σ ε} {config : Config} {left : List EdgeId}
    (hp : Chart.IsRun g tokens p.chart) (h : p.runPasses g observer config = .ok (p', left)) :
    Chart.IsRun g tokens p'.chart := by
  obtain ⟨⟨q, changed⟩, hfirst, hrounds⟩ := exists_of_bind_eq_ok h
  have hq : Chart.IsRun g tokens q.chart := through_invariant isRun_applyEverywhere hp hfirst
  obtain ⟨n, hn⟩ := repeats_of_rounds hrounds
  refine hn.invariant (P := fun s => Chart.IsRun g tokens s.1.chart) ?_ hq
  exact fun s t hs _ hpass => through_invariant isRun_applyEverywhere hs hpass

end Progress

/-- The chart that a parse returns is that of a run. -/
theorem Parser.isRun_chartParseWith {p : Parser L} {observer : Observer L σ ε} {seen : σ}
    {o : Outcome L σ} (h : p.chartParseWith observer seen tokens = .ok o) :
    Chart.IsRun p.grammar tokens o.chart := by
  obtain ⟨-, -, h⟩ := exists_of_bind_eq_ok h
  obtain ⟨⟨done, left⟩, hrun, h⟩ := exists_of_bind_eq_ok h
  obtain rfl := Except.ok.inj h
  have hnew : Chart.IsRun p.grammar tokens (Progress.start (L := L) tokens seen).chart :=
    Chart.isRun_new p.grammar tokens
  rw [Progress.run] at hrun
  split at hrun
  · exact Progress.isRun_runAgenda hnew hrun
  · exact Progress.isRun_runPasses hnew hrun

end ChartParsing
