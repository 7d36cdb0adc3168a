/-
ChartParsing/Proofs/Rule/Report.lean

What an application of a rule reports.

The loops of a parse never compare charts.  They go by the ids that an
application returns: the agenda queues them, and a pass that returns none is
the last.  `Chart.Reports` says that this is enough.  The ids returned are
those of the edges that are new or have gained a list, whichever insertion of
the application that came from, and none is returned exactly if the edges and
their lists are what they were.

On any chart, however it came about, an application is refused before it has
done anything, or reports in this sense (`Session.apply_refused_or_reports`).
-/
import ChartParsing.Proofs.Chart.Session

namespace ChartParsing

variable {L : Type} [Label L]

namespace Chart

/-- The edge is new in `c'`, or has more lists there than in `c`. -/
def Changes (c c' : Chart L) (id : EdgeId) : Prop :=
  (c.size ≤ id ∧ id < c'.size) ∨ (id < c.size ∧ (c.pointers id).length < (c'.pointers id).length)

/-- `c'` has come from `c` by changes at just the ids that are reported. -/
structure Reports (c c' : Chart L) (changed : List EdgeId) : Prop where
  edges : c.edges <+: c'.edges
  pointers : ∀ id, c.pointers id <+: c'.pointers id
  mem_iff : ∀ id, id ∈ changed ↔ c.Changes c' id
  eq_nil_iff : changed = [] ↔ c'.edges = c.edges ∧ ∀ id, c'.pointers id = c.pointers id

namespace Grows

variable {c c' : Chart L} {changed : List EdgeId}

theorem mem_iff_changes (h : Grows c c' changed) (id : EdgeId) :
    id ∈ changed ↔ c.Changes c' id := by
  constructor
  · intro hid
    rcases Nat.lt_or_ge id c.size with hlt | hge
    · exact .inr ⟨hlt, h.gained id hid⟩
    · exact .inl ⟨hge, h.lt_size_of_mem hid⟩
  · intro hchanges
    by_contra hid
    rcases hchanges with ⟨hge, hlt⟩ | ⟨-, hgained⟩
    · -- an edge that is not reported was there before
      obtain ⟨e, he⟩ := lt_size_iff.1 hlt
      rw [h.getElem?_eq hid] at he
      exact Nat.not_lt.2 hge (lt_size he)
    · rw [h.pointers_eq hid] at hgained
      exact Nat.lt_irrefl _ hgained

theorem changed_eq_nil_iff (h : Grows c c' changed) :
    changed = [] ↔ c'.edges = c.edges ∧ ∀ id, c'.pointers id = c.pointers id := by
  constructor
  · rintro rfl
    exact ⟨List.ext_getElem? fun id => h.getElem?_eq List.not_mem_nil,
      fun id => h.pointers_eq List.not_mem_nil⟩
  · rintro ⟨-, hpointers⟩
    refine List.eq_nil_iff_forall_not_mem.2 fun id hid => ?_
    have hgained := h.gained id hid
    rw [hpointers id] at hgained
    exact Nat.lt_irrefl _ hgained

/-- A growing chart differs at the ids that are noted, and nowhere else. -/
theorem reports (h : Grows c c' changed) : c.Reports c' changed where
  edges := h.edges
  pointers := h.pointers
  mem_iff := h.mem_iff_changes
  eq_nil_iff := h.changed_eq_nil_iff

end Grows

end Chart

namespace Session

variable [DecidableEq L] [LawfulLabel L]

/-- Whatever a chart has been asked before, an application of a rule to an edge,
to nothing or wherever it can be is refused for what it was given, and leaves
everything as it was, or it reports the edges that it has changed. -/
theorem apply_refused_or_reports (tokens : List String) (requests : List (Request L))
    {g : Grammar L} (hg : g.Indexed) (a : Application) :
    (∃ x, a.Refused (run tokens requests).chart x ∧
        a.perform g (run tokens requests).chart = .error x ∧
          (run tokens requests).perform (.apply g hg a) = run tokens requests) ∨
      (∀ x, ¬ a.Refused (run tokens requests).chart x) ∧
        ∃ c' changed, a.perform g (run tokens requests).chart = .ok (c', changed) ∧
          (run tokens requests).chart.Reports c' changed := by
  have hwf : (run tokens requests).chart.WellFormed := (sound_run tokens requests).wellFormed
  generalize run tokens requests = s at hwf
  cases hperform : a.perform g s.chart with
  | error x =>
    refine .inl ⟨x, (a.perform_eq_error_iff hwf hg).1 hperform, rfl, ?_⟩
    rw [perform, hperform]
    rfl
  | ok r =>
    obtain ⟨c', changed⟩ := r
    refine .inr ⟨fun x hx => ?_, c', changed, rfl, ?_⟩
    · cases ((a.perform_eq_error_iff hwf hg).2 hx).symm.trans hperform
    · exact (a.perform_follows hwf hg hperform).grows.reports

/-- An edge over nothing that waits for two of another one over nothing. -/
def overNothing (s : L) : List (Request L) :=
  [.insert (.ofProduction ⟨s, [s, s]⟩ 0) [[]], .insert (.ofProduction ⟨s, []⟩ 0) [[]]]

/-- The complete edge also fills the place that the first combination leaves
open; with features, in a sweep over all edges, the two new edges change time
and again; and then an edge is asked for that there is not. -/
theorem apply_refused_or_reports_over_nothing :
    let g := Grammar.ofList (Symbol.nonterminal "S") []
    let plain := run [] (overNothing (Symbol.nonterminal "S"))
    let g' := Grammar.ofList (FeatureSymbol.category (.bare "S")) []
    let featured := run [] (overNothing (FeatureSymbol.category (.bare "S")))
    g.Indexed ∧ g'.Indexed ∧
      (∃ c', (Application.once .fundamental (some 1)).perform g plain.chart = .ok (c', [2, 3]) ∧
        plain.chart.Reports c' [2, 3]) ∧
      (∃ c', (Application.everywhere .fundamental).perform g' featured.chart =
          .ok (c', [2, 3, 3, 2, 3]) ∧ featured.chart.Reports c' [2, 3, 3, 2, 3]) ∧
        (Application.once .fundamental (some 2)).Refused featured.chart (.edgeNotInChart 2) := by
  intro g plain g' featured
  have hplain : ((Application.once .fundamental (some 1)).perform g plain.chart).map Prod.snd =
      .ok [2, 3] := by decide +kernel
  have hfeatured : ((Application.everywhere .fundamental).perform g' featured.chart).map Prod.snd =
      .ok [2, 3, 3, 2, 3] := by decide +kernel
  refine ⟨rfl, rfl, ?_, ?_, ?_⟩
  · rcases apply_refused_or_reports [] (overNothing (Symbol.nonterminal "S")) (g := g) rfl
      (.once .fundamental (some 1)) with ⟨x, -, hx, -⟩ | ⟨-, c', changed, hok, hreports⟩
    · cases hx ▸ hplain
    · rw [hok] at hplain
      obtain rfl : changed = _ := Except.ok.inj hplain
      exact ⟨c', hok, hreports⟩
  · rcases apply_refused_or_reports [] (overNothing (FeatureSymbol.category (.bare "S")))
      (g := g') rfl (.everywhere .fundamental) with ⟨x, -, hx, -⟩ | ⟨-, c', changed, hok, hreports⟩
    · cases hx ▸ hfeatured
    · rw [hok] at hfeatured
      obtain rfl : changed = _ := Except.ok.inj hfeatured
      exact ⟨c', hok, hreports⟩
  · rcases apply_refused_or_reports [] (overNothing (FeatureSymbol.category (.bare "S")))
      (g := g') rfl (.once .fundamental (some 2)) with ⟨x, hx, -⟩ | ⟨hnot, -⟩
    · cases hx with
      | arity harity => exact absurd rfl harity
      | missing harity hid => exact .missing harity hid
    · exact absurd (.missing rfl (by decide +kernel)) (hnot (.edgeNotInChart 2))

end Session

end ChartParsing
