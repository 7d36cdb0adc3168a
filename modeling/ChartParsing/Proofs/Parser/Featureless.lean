/-
ChartParsing/Proofs/Parser/Featureless.lean

A grammar with features that has none is a plain grammar.

The two kinds of grammars differ in everything that is done with a label: how
it is read from a text, whether it fits at a dot and what it leaves there, and
whether it is accepted at a root.  Where there are no features none of this
shows.  Loading comes to corresponding grammars (`Grammar.Corresponds`), and
parsing with them to the same failure, or to the same chart: edges under the
same ids, lists in the same order, costs, and parses (`Outcome.Corresponds`).
-/
import ChartParsing.Proofs.Parser.Safety
import ChartParsing.Proofs.Relabel.Parser
import ChartParsing.Proofs.Source.Featureless

namespace ChartParsing

variable {L L' : Type} [Label L] [Label L'] {f : L → L'}

/-! ### The same result -/

/-- The same chart label for label, with the same costs and the same parses. -/
structure Outcome.Corresponds (f : L → L') (o : Outcome L Unit) (o' : Outcome L' Unit) : Prop where
  edges : o'.chart.edges = o.chart.edges.map (Edge.relabel f)
  cpls : ∀ id, o'.chart.cpls id = o.chart.cpls id
  stats : o'.stats = o.stats
  parses : ∀ root, ∃ ps ps', o.chart.parses root = .ok ps ∧ o'.chart.parses (f root) = .ok ps' ∧
    ps'.toList = ps.toList.map (Except.map (Tree.relabel f))

/-- The same token is not covered, or the charts correspond. -/
def Parser.SameResult [DecidableEq L] [DecidableEq L'] (f : L → L') (p : Parser L)
    (p' : Parser L') (tokens : List String) : Prop :=
  (∃ t i, p.chartParse tokens = .error (.uncoveredToken t i) ∧
      p'.chartParse tokens = .error (.uncoveredToken t i)) ∨
    ∃ o o', p.chartParse tokens = .ok o ∧ p'.chartParse tokens = .ok o' ∧ o.Corresponds f o'

theorem Outcome.corresponds_relabel [LawfulLabel L] [LawfulLabel L'] (hf : Relabelling f)
    {productions : List (Production L)} {productions' : List (Production L')}
    {tokens : List String} {rules : List Rule} {o : Outcome L Unit}
    (h : o.chart.Filled productions tokens rules)
    (h' : (o.relabel hf).chart.Filled productions' tokens rules) :
    o.Corresponds f (o.relabel hf) where
  edges := Chart.edges_relabel hf o.chart
  cpls := Chart.cpls_relabel hf o.chart
  stats := rfl
  parses := by
    intro root
    exact ⟨_, _, o.chart.parses_eq root, Chart.parses_eq _ (f root),
      o.chart.toList_parses_relabel hf h h' root⟩

/-- Exchanging labels makes no difference to a parse. -/
theorem Parser.sameResult_relabel [DecidableEq L] [DecidableEq L'] [LawfulLabel L]
    [LawfulLabel L'] (hf : Relabelling f) {p : Parser L} (hg : p.grammar.Indexed)
    (tokens : List String) : p.SameResult f (p.relabel f) tokens := by
  have hrun := p.chartParse_relabel hf hg tokens
  cases hcheck : p.grammar.checkCoverage tokens with
  | error x =>
    obtain ⟨t, i, rfl, -⟩ := Grammar.checkCoverage_eq_error_iff.1 hcheck
    have hfails : p.chartParse tokens = .error (.uncoveredToken t i) :=
      (refuses_of_checkCoverage hcheck).chartParse .idle ()
    rw [hfails] at hrun
    exact .inl ⟨t, i, hfails, hrun⟩
  | ok =>
    obtain ⟨o, ho, hfilled, -⟩ := p.chartParseWith_spec hg hcheck .idle ()
    have hcheck' : (p.relabel f).grammar.checkCoverage tokens = .ok () :=
      (p.grammar.checkCoverage_relabel hf hg tokens).trans hcheck
    obtain ⟨o', ho', hfilled', -⟩ := (p.relabel f).chartParseWith_spec
      (Grammar.indexed_ofList _ _) hcheck' .idle ()
    have hrelabel : (p.relabel f).chartParse tokens = .ok (o.relabel hf) := by
      rw [hrun, chartParse, ho]
      rfl
    obtain rfl : o' = o.relabel hf := Except.ok.inj (ho'.symm.trans hrelabel)
    exact .inr ⟨o, _, ho, hrelabel, Outcome.corresponds_relabel hf hfilled hfilled'⟩

/-! ### Grammars without features -/

/-- The grammars have the same start and the same productions in the same
order, with categories without features for nonterminals. -/
structure Grammar.Corresponds (g : Grammar Symbol) (g' : Grammar FeatureSymbol) : Prop where
  start : g'.start = .bare g.start
  productions : g'.productions = g.productions.map (Production.relabel .bare)

theorem Grammar.Corresponds.eq_relabel {g : Grammar Symbol} {g' : Grammar FeatureSymbol}
    (h : g.Corresponds g') (hg' : g'.Indexed) : g' = g.relabel .bare := by
  obtain ⟨start, index⟩ := g'
  obtain rfl : index = .ofList (g.productions.map (Production.relabel .bare)) :=
    h.productions ▸ hg'
  obtain rfl : start = .bare g.start := h.start
  rfl

/-- A text is a plain grammar exactly if it is one with features that has none,
and the two correspond; and with corresponding grammars every parse comes to
the same. -/
theorem Grammar.featureless_corresponds_plain :
    (∀ text, ((∃ g : Grammar Symbol, ofText text = .ok g) ↔
        ∃ g' : Grammar FeatureSymbol, ofText text = .ok g' ∧ g'.Featureless) ∧
      ∀ (g : Grammar Symbol) g', ofText text = .ok g → ofText text = .ok g' → g.Corresponds g') ∧
      ∀ (g : Grammar Symbol) g', g.Obtained → g'.Obtained → g.Corresponds g' →
        ∀ config tokens, Parser.SameResult .bare ⟨g, config⟩ ⟨g', config⟩ tokens := by
  refine ⟨fun text => ⟨⟨?_, ?_⟩, ?_⟩, ?_⟩
  · rintro ⟨g, hg⟩
    exact ⟨_, (restricts_ofText text _).2 ⟨g, hg, rfl⟩⟩
  · rintro ⟨g', hg'⟩
    obtain ⟨g, hg, -⟩ := (restricts_ofText text g').1 hg'
    exact ⟨g, hg⟩
  · intro g g' hg hg'
    obtain ⟨hrelabel, -⟩ := (restricts_ofText text _).2 ⟨g, hg, rfl⟩
    obtain rfl : g' = g.relabel .bare := Except.ok.inj (hg'.symm.trans hrelabel)
    exact ⟨rfl, g.productions_relabel⟩
  · intro g g' hg hg' hcorresponds config tokens
    obtain rfl := hcorresponds.eq_relabel hg'.indexed
    exact Parser.sameResult_relabel (p := ⟨g, config⟩) FeatureSymbol.relabelling_bare hg.indexed
      tokens

/-- A text with a directive and with an empty alternative, read both ways. -/
theorem Grammar.featureless_corresponds_plain_read :
    ∃ (g : Grammar Symbol) (g' : Grammar FeatureSymbol),
      ofText "S -> S S | 'a' |\n%start S\n" = .ok g ∧
        ofText "S -> S S | 'a' |\n%start S\n" = .ok g' ∧
          Parser.SameResult .bare ⟨g, ⟨bottomUpStrategy, .agenda, 50⟩⟩
            ⟨g', ⟨bottomUpStrategy, .agenda, 50⟩⟩ ["a", "a"] := by
  obtain ⟨hload, hparse⟩ := featureless_corresponds_plain
  obtain ⟨hboth, hsame⟩ := hload "S -> S S | 'a' |\n%start S\n"
  have hread : (ofText (L := Symbol) "S -> S S | 'a' |\n%start S\n").toBool = true := by
    decide +kernel
  cases hg : ofText (L := Symbol) "S -> S S | 'a' |\n%start S\n" with
  | error x =>
    rw [hg] at hread
    cases hread
  | ok g =>
    obtain ⟨g', hg', -⟩ := hboth.1 ⟨g, hg⟩
    exact ⟨g, g', rfl, hg', hparse g g' (.read hg) (.read hg') (hsame g g' hg hg') _ _⟩

end ChartParsing
