/-
ChartParsing/Proofs/Parser/Safety.lean

What can go wrong in a parse.

One thing only: a token that no production matches.  The first such token is
named before a chart is begun.  Where there is none, nothing fails: not the
application of any rule, at whatever moment of the parse
(`Parser.Succeeds.applies`), nor a loop, nor a search for roots, nor reading
trees off any edge of the filled chart, with or without the incomplete ones
(`Chart.Readable`).  So rules never make an edge that cannot be, never name a
child that is not there, and never search by constraints that are refused.
-/
import ChartParsing.Proofs.Parser.Parses
import ChartParsing.Proofs.Parser.Termination
import ChartParsing.Source.Load

namespace ChartParsing

variable {L : Type} [Label L]

/-! ### Where grammars come from -/

/-- Grammars as they can be had: made from productions, or loaded. -/
inductive Grammar.Obtained [Resolve L] : Grammar L → Prop
  | made (start : L) (productions : List (Production L)) : Obtained (.ofList start productions)
  | read {g : Grammar L} {text : String} : ofText text = .ok g → Obtained g
  | loaded {g : Grammar L} {contents : Option ByteArray} : ofFile contents = .ok g → Obtained g

theorem Source.indexed_of_checkStart {start : L} {productions : List (Production L)}
    {g : Grammar L} (h : checkStart start productions = .ok g) : g.Indexed := by
  rw [checkStart] at h
  split at h
  · cases h
  · split at h
    · cases h
    · split at h
      · obtain rfl := Except.ok.inj h
        exact Grammar.indexed_ofList start productions
      · cases h

theorem Grammar.indexed_of_ofText [Resolve L] {g : Grammar L} {text : String}
    (h : ofText text = .ok g) : g.Indexed := by
  obtain ⟨statements, -, h⟩ := exists_of_bind_eq_ok h
  obtain ⟨lines, -, h⟩ := exists_of_bind_eq_ok h
  obtain ⟨start, -, h⟩ := exists_of_bind_eq_ok h
  exact Source.indexed_of_checkStart h

/-- However a grammar was had, its lookups are those among its productions. -/
theorem Grammar.Obtained.indexed [Resolve L] {g : Grammar L} (h : g.Obtained) : g.Indexed := by
  cases h with
  | made start productions => exact indexed_ofList start productions
  | read h => exact indexed_of_ofText h
  | @loaded _ contents h =>
    rw [ofFile.eq_def] at h
    split at h
    · cases h
    · split at h
      · cases h
      · exact indexed_of_ofText h

/-! ### Tokens that no production matches -/

/-- Some right-hand side has the token as a terminal. -/
def Covered (productions : List (Production L)) (token : String) : Prop :=
  ∃ p ∈ productions, ∃ l ∈ p.rhs, Label.token? l = some token

/-- At this position is the first token that is not covered. -/
structure FirstUncovered (productions : List (Production L)) (tokens : List String)
    (token : String) (position : Nat) : Prop where
  token_eq : tokens[position]? = some token
  not_covered : ¬ Covered productions token
  covered_before : ∀ (i : Nat) (t : String), i < position → tokens[i]? = some t →
    Covered productions t

/-- There is only one first. -/
theorem FirstUncovered.unique {productions : List (Production L)} {tokens : List String}
    {t t' : String} {i i' : Nat} (h : FirstUncovered productions tokens t i)
    (h' : FirstUncovered productions tokens t' i') : t = t' ∧ i = i' := by
  rcases Nat.lt_trichotomy i i' with hlt | rfl | hgt
  · exact absurd (h'.covered_before i t hlt h.token_eq) h.not_covered
  · exact ⟨Option.some.inj (h.token_eq.symm.trans h'.token_eq), rfl⟩
  · exact absurd (h.covered_before i' t' hgt h'.token_eq) h'.not_covered

namespace Grammar

variable {g : Grammar L} {tokens : List String}

theorem Indexed.covers_iff (hg : g.Indexed) (t : String) :
    g.index.covers t = true ↔ Covered g.productions t := by
  rw [hg]
  exact ProductionIndex.covers_ofList_iff

theorem Indexed.checkCoverage_eq_error_iff (hg : g.Indexed) {x : ChartError} :
    g.checkCoverage tokens = .error x ↔
      ∃ t i, x = .uncoveredToken t i ∧ FirstUncovered g.productions tokens t i := by
  rw [Grammar.checkCoverage_eq_error_iff]
  refine exists_congr fun t => exists_congr fun i => and_congr_right' ?_
  simp only [hg.covers_iff, ← Bool.not_eq_true]
  exact ⟨fun ⟨ht, hnot, hbefore⟩ => ⟨ht, hnot, hbefore⟩,
    fun ⟨ht, hnot, hbefore⟩ => ⟨ht, hnot, hbefore⟩⟩

end Grammar

/-! ### What never fails -/

/-- Whatever is read off the chart, trees of edges or parses of roots, is there. -/
structure Chart.Readable (c : Chart L) : Prop where
  trees : ∀ id < c.size, ∀ complete, ∃ ts, c.trees id complete = .ok ts
  parses : ∀ root, ∃ ps, c.parses root = .ok ps ∧ (∀ x ∈ ps.toList, ∃ t, x = .ok t) ∧
    ∀ limit, ∀ x ∈ ps.take limit, ∃ t, x = .ok t

theorem Chart.Filled.readable [LawfulLabel L] {productions : List (Production L)}
    {tokens : List String} {rules : List Rule} {c : Chart L}
    (h : c.Filled productions tokens rules) : c.Readable where
  trees := fun _ hid complete => ⟨_, h.trees_eq hid complete⟩
  parses := by
    intro root
    have hall : ∀ x ∈ Parses.toList ⟨c, c.roots root, []⟩, ∃ t, x = .ok t := by
      intro x hx
      rw [h.toList_parses] at hx
      obtain ⟨t, -, rfl⟩ := List.mem_map.1 hx
      exact ⟨t, rfl⟩
    refine ⟨_, c.parses_eq root, hall, fun limit x hx => ?_⟩
    rw [Parses.take_eq_take_toList] at hx
    exact hall x (List.mem_of_mem_take hx)

namespace Parser

variable [DecidableEq L]

/-- The tokens are parsed, and nothing fails on the way or afterwards.  Since a
loop would hand on the failure of any rule that it applies, `chartParse` says
so of the rules that are applied, and `applies` of all that could be. -/
structure Succeeds (p : Parser L) (tokens : List String) : Prop where
  /-- At whatever moment, a rule that is applied to what it takes leads to another moment. -/
  applies : ∀ c, Chart.Moment p.grammar tokens c → ∀ a : Application,
    (∃ c' changed, a.perform p.grammar c = .ok (c', changed) ∧
        Chart.Moment p.grammar tokens c') ∨
      ∃ x, a.Refused c x ∧ a.perform p.grammar c = .error x
  loops : Progress.LoopsEnd p.grammar p.config tokens
  chartParse : ∀ {σ ε : Type} (observer : Observer L σ ε) (seen : σ),
    ∃ o, p.chartParseWith observer seen tokens = .ok o ∧ o.chart.Readable
  parse : ∃ trees, p.parse tokens = .ok trees

/-- The tokens are refused because of one of them, by whoever watches. -/
structure Refuses (p : Parser L) (tokens : List String) (token : String) (position : Nat) :
    Prop where
  chartParse : ∀ {σ ε : Type} (observer : Observer L σ ε) (seen : σ),
    p.chartParseWith observer seen tokens = .error (.uncoveredToken token position)
  parse : p.parse tokens = .error (.uncoveredToken token position)

theorem refuses_of_checkCoverage {p : Parser L} {tokens : List String} {t : String} {i : Nat}
    (h : p.grammar.checkCoverage tokens = .error (.uncoveredToken t i)) :
    p.Refuses tokens t i := by
  have hchart : ∀ {σ ε : Type} (observer : Observer L σ ε) (seen : σ),
      p.chartParseWith observer seen tokens = .error (.uncoveredToken t i) := by
    intro σ ε observer seen
    rw [chartParseWith, h]
    rfl
  refine ⟨hchart, ?_⟩
  rw [Parser.parse, Parser.chartParse, hchart]
  rfl

variable [LawfulLabel L]

theorem succeeds_of_checkCoverage {p : Parser L} (hg : p.grammar.Indexed) {tokens : List String}
    (h : p.grammar.checkCoverage tokens = .ok ()) : p.Succeeds tokens where
  applies := by
    intro c hc a
    cases hperform : a.perform p.grammar c with
    | ok r => exact .inl ⟨r.1, r.2, rfl, hc.perform hg hperform⟩
    | error x => exact .inr ⟨x, (a.perform_eq_error_iff (hc.wellFormed hg) hg).1 hperform, rfl⟩
  loops := Progress.loopsEnd hg p.config tokens
  chartParse := by
    intro σ ε observer seen
    obtain ⟨o, hrun, hfilled, -⟩ := p.chartParseWith_spec hg h observer seen
    exact ⟨o, hrun, hfilled.readable⟩
  parse := by
    obtain ⟨o, -, -, hparse⟩ := parse_spec hg h
    exact ⟨_, hparse⟩

/-- Either the first token that is not covered is named, or all tokens are
covered and nothing fails at all. -/
theorem refuses_or_succeeds [Resolve L] (p : Parser L) (hp : p.grammar.Obtained)
    (tokens : List String) :
    (∃ t i, FirstUncovered p.grammar.productions tokens t i ∧ p.Refuses tokens t i) ∨
      (∀ t ∈ tokens, Covered p.grammar.productions t) ∧ p.Succeeds tokens := by
  have hg : p.grammar.Indexed := hp.indexed
  cases hcheck : p.grammar.checkCoverage tokens with
  | error x =>
    obtain ⟨t, i, rfl, hfirst⟩ := hg.checkCoverage_eq_error_iff.1 hcheck
    exact .inl ⟨t, i, hfirst, refuses_of_checkCoverage hcheck⟩
  | ok =>
    have hall := Grammar.checkCoverage_eq_ok_iff.1 hcheck
    exact .inr ⟨fun t ht => (hg.covers_iff t).1 (hall t ht), succeeds_of_checkCoverage hg hcheck⟩

/-- A subject and a verb that agree in number. -/
def agreeingText : String :=
  "S -> NP[num=?n] V[num=?n]\nNP[num=sg] -> 'she' |\nV -> 'runs'"

/-- A plain grammar that does not know the second token, and one with features
that was read from a text. -/
theorem refuses_or_succeeds_made_and_read :
    (⟨.ofList (.nonterminal "S") doubling, ⟨bottomUpStrategy, .fullPass, 50⟩⟩ :
        Parser Symbol).Refuses ["a", "b", "c"] "b" 1 ∧
      ∃ g : Grammar FeatureSymbol, Grammar.ofText agreeingText = .ok g ∧
        (⟨g, ⟨bottomUpStrategy, .agenda, 50⟩⟩ : Parser FeatureSymbol).Succeeds
          ["she", "runs"] := by
  constructor
  · have hb : ¬ Covered doubling "b" := by
      unfold Covered
      decide
    have hfirst : FirstUncovered doubling ["a", "b", "c"] "b" 1 := by
      refine ⟨rfl, hb, fun i t hi ht => ?_⟩
      obtain rfl : i = 0 := by omega
      obtain rfl := Option.some.inj ht
      unfold Covered
      decide
    rcases refuses_or_succeeds ⟨.ofList (.nonterminal "S") doubling, _⟩ (.made _ doubling)
      ["a", "b", "c"] with ⟨t, i, hfirst', hrefuses⟩ | ⟨hcovered, -⟩
    · obtain ⟨rfl, rfl⟩ := hfirst.unique hfirst'
      exact hrefuses
    · exact absurd (hcovered "b" (by decide)) hb
  · have hread : ((Grammar.ofText (L := FeatureSymbol) agreeingText).toOption.map fun g =>
        ["she", "runs"].all g.index.covers) = some true := by decide +kernel
    cases hg : Grammar.ofText (L := FeatureSymbol) agreeingText with
    | error x =>
      rw [hg] at hread
      cases hread
    | ok g =>
      rw [hg] at hread
      have hall : ["she", "runs"].all g.index.covers = true := Option.some.inj hread
      refine ⟨g, rfl, ?_⟩
      rcases refuses_or_succeeds ⟨g, ⟨bottomUpStrategy, .agenda, 50⟩⟩ (.read hg) ["she", "runs"]
        with ⟨t, i, hfirst, -⟩ | ⟨-, hsucceeds⟩
      · have ht := List.all_eq_true.1 hall t (List.mem_of_getElem? hfirst.token_eq)
        exact absurd (((Grammar.Obtained.read hg).indexed.covers_iff t).1 ht) hfirst.not_covered
      · exact hsucceeds

end Parser

end ChartParsing
