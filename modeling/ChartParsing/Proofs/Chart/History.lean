/-
ChartParsing/Proofs/Chart/History.lean

What can be relied on in a chart, whatever has been done to it.

A chart holds the same facts in several forms: edges by id, ids by edge, the
child pointer lists of each edge and their number.  `Chart.Intact` says that
these go together, in terms of what a chart answers.  `Chart.Extends` says
that a later chart answers what an earlier one did: an id keeps its edge, and
an edge keeps its lists in their order and at most has more behind them.

Both hold along every history of a chart (`Session.intact_extends_run`): its
requests may be refused, may offer nothing, or offer the same once more.  An
application of a rule in particular is refused only for what it was given,
before it has changed anything (`Application.Refused`).
-/
import ChartParsing.Proofs.Chart.Capacity
import ChartParsing.Proofs.Chart.Session

namespace ChartParsing

variable {L : Type} [Label L]

namespace Chart

/-- What a chart answers goes together. -/
structure Intact [DecidableEq L] (c : Chart L) : Prop where
  edge_iff : ∀ id, (∃ e, c.edge id = .ok e) ↔ id < c.size
  distinct : ∀ id id' e, c.edge id = .ok e → c.edge id' = .ok e → id = id'
  idOf?_iff : ∀ e id, c.idOf? e = some id ↔ c.edge id = .ok e
  contains_iff : ∀ e, c.contains e = true ↔ ∃ id < c.size, c.edge id = .ok e
  cpls_eq : ∀ id < c.size, c.cpls id = .ok (c.pointers id)
  justified : ∀ id < c.size, c.pointers id ≠ []
  nodup : ∀ id, (c.pointers id).Nodup
  child_lt : ∀ id, ∀ p ∈ c.pointers id, ∀ child ∈ p, child < c.size
  count : c.countPointers = ((List.range c.size).map fun id => (c.pointers id).length).sum

/-- What `c` answers, `c'` answers as well. -/
structure Extends (c c' : Chart L) : Prop where
  tokens : c'.tokens = c.tokens
  edge : ∀ id e, c.edge id = .ok e → c'.edge id = .ok e
  cpls : ∀ id ps, c.cpls id = .ok ps → ∃ ps', c'.cpls id = .ok ps' ∧ ps <+: ps'

theorem edge_eq_ok_iff {c : Chart L} {id : EdgeId} {e : Edge L} :
    c.edge id = .ok e ↔ c.edges[id]? = some e :=
  ⟨getElem?_of_edge_eq_ok, edge_eq_ok⟩

theorem Grows.extends {c c' : Chart L} {changed : List EdgeId} (h : Grows c c' changed) :
    c.Extends c' where
  tokens := h.tokens
  edge := by
    intro id e he
    rw [edge_eq_ok_iff] at he ⊢
    exact h.getElem? he
  cpls := by
    intro id ps hps
    have hid : id < c.size := by
      by_contra hge
      rw [Chart.cpls, Array.getElem?_eq_none (Nat.not_lt.1 hge)] at hps
      cases hps
    rw [cpls_eq_ok hid] at hps
    obtain rfl := Except.ok.inj hps
    exact ⟨_, cpls_eq_ok (Nat.lt_of_lt_of_le hid h.size_le), h.pointers id⟩

variable [DecidableEq L]

theorem WellFormed.intact {c : Chart L} (h : c.WellFormed) : c.Intact where
  edge_iff := by
    intro id
    simp only [edge_eq_ok_iff]
    exact lt_size_iff.symm
  distinct := by
    intro id id' e he he'
    rw [edge_eq_ok_iff] at he he'
    exact h.id_unique he he'
  idOf?_iff := by
    intro e id
    rw [edge_eq_ok_iff]
    exact h.idOf?_eq_some_iff
  contains_iff := by
    intro e
    simp only [contains, Option.isSome_iff_exists, h.idOf?_eq_some_iff, edge_eq_ok_iff]
    exact exists_congr fun id => ⟨fun he => ⟨lt_size he, he⟩, And.right⟩
  cpls_eq := fun _ hid => cpls_eq_ok hid
  justified := h.justified
  nodup := c.nodup_pointers
  child_lt := h.child_lt
  count := c.countPointers_eq_sum_range

end Chart

namespace Session

variable [DecidableEq L] [LawfulLabel L]

/-- More requests only extend the chart. -/
theorem exists_grows_run (tokens : List String) (earlier later : List (Request L)) :
    ∃ changed, Chart.Grows (run tokens earlier).chart (run tokens (earlier ++ later)).chart
      changed := by
  -- by induction from the last request, so that each one finds a sound session
  induction later using List.reverseRecOn with
  | nil =>
    rw [List.append_nil]
    exact ⟨[], .refl _⟩
  | append_singleton later request ih =>
    obtain ⟨before, hbefore⟩ := ih
    have hsound : (run tokens (earlier ++ later)).Sound := sound_run tokens (earlier ++ later)
    obtain ⟨-, changed, hgrows⟩ := perform_grows hsound.wellFormed request
    have hlast : run tokens (earlier ++ (later ++ [request])) =
        (run tokens (earlier ++ later)).perform request := by
      rw [← List.append_assoc]
      exact List.foldl_concat ..
    rw [hlast]
    exact ⟨_, hbefore.trans hgrows⟩

/-- Whatever is asked of a chart, its answers go together; what is asked later
leaves all earlier answers standing; and an application of a rule fails only
for the edges that it was given. -/
theorem intact_extends_run (tokens : List String) (earlier later : List (Request L)) :
    (run tokens earlier).chart.Intact ∧
      (run tokens earlier).chart.Extends (run tokens (earlier ++ later)).chart ∧
        ∀ g : Grammar L, g.Indexed → ∀ (a : Application) x,
          a.perform g (run tokens earlier).chart = .error x ↔
            a.Refused (run tokens earlier).chart x := by
  have hwf : (run tokens earlier).chart.WellFormed := (sound_run tokens earlier).wellFormed
  obtain ⟨changed, hgrows⟩ := exists_grows_run tokens earlier later
  exact ⟨hwf.intact, hgrows.extends, fun g hg a x => a.perform_eq_error_iff hwf hg⟩

/-- An edge that is offered with nothing, with a list that dangles, and then
twice with itself among its children. -/
def selfNaming (s a : L) : List (Request L) :=
  [.insert (.ofProduction ⟨s, [a]⟩ 0) [], .insert (.ofProduction ⟨s, [a]⟩ 0) [[], [1]],
    .insert (.ofProduction ⟨s, [a]⟩ 0) [[0], [], [0]]]

/-- Leaves, a refused search, a refused application and one that moves a dot. -/
def dotMoving (s : L) : List (Request L) :=
  let g := Grammar.ofList s []
  [.apply g rfl (.everywhere .leafInit), .select [.start 0, .start 1],
    .apply g rfl (.once .leafInit (some 0)), .apply g rfl (.once .fundamental (some 0)),
    .insertAfter (.leaf "a" 0) 1 9]

/-- Both kinds of labels, with five lists on three edges in the end, and an
application to an edge that there is not. -/
theorem intact_extends_run_self_naming :
    let s := Symbol.nonterminal "S"
    let plain := run ["a"] (selfNaming s (.terminal "a"))
    let later := run ["a"] (selfNaming s (.terminal "a") ++ dotMoving s)
    let featured : Session FeatureSymbol :=
      run ["a"] (selfNaming (.category (.bare "S")) (.terminal "a"))
    plain.chart.Intact ∧ plain.chart.Extends later.chart ∧
      plain.chart.cpls 0 = .ok [[0], []] ∧ later.chart.cpls 2 = .ok [[0, 1], [1]] ∧
        later.chart.countPointers = 5 ∧
          (Application.once .fundamental (some 1)).Refused plain.chart (.edgeNotInChart 1) ∧
            featured.chart.Intact := by
  intro s plain later featured
  obtain ⟨hintact, hextends, hrefused⟩ :=
    intact_extends_run ["a"] (selfNaming s (.terminal "a")) (dotMoving s)
  obtain ⟨hfeatured, -, -⟩ :=
    intact_extends_run ["a"] (selfNaming (FeatureSymbol.category (.bare "S")) (.terminal "a")) []
  have happlied : (Application.once .fundamental (some 1)).perform (.ofList s []) plain.chart =
      .error (.edgeNotInChart 1) := rfl
  exact ⟨hintact, hextends, by decide +kernel, by decide +kernel, by decide +kernel,
    (hrefused (.ofList s []) rfl _ _).1 happlied, hfeatured⟩

end Session

end ChartParsing
