/-
ChartParsing/Proofs/Parser/Steps.lean

The lists of a chart are the derivation steps of its grammar.

However rules are applied, a list that turns up names tiles that some
production advances over: lists are extended one child at a time, but each is
a whole step of a derivation (`Chart.Follows.stepped`).  And when a chart has
been filled, no such list is missing, however late its tiles have been found
(`Chart.Filled.exists_of_tiles`).
-/
import ChartParsing.Proofs.Chart.Agreement
import ChartParsing.Proofs.Label.Feature
import ChartParsing.Proofs.Parser.Fixpoint
import ChartParsing.Proofs.Rule.Run
import ChartParsing.Proofs.Tiling

namespace ChartParsing

namespace Chart

variable {L : Type} [Label L] [LawfulLabel L] {productions : List (Production L)}
  {tokens : List String} {c : Chart L}

/-- Every list of a chart that rules have made is a step of a derivation, from
edges of the chart. -/
theorem Follows.stepped {g : Grammar L} {changed : List EdgeId}
    (h : Follows g.productions bottomUpStrategy (new tokens) c changed) {id : EdgeId} {e : Edge L}
    {p : Pointers} (he : c.edges[id]? = some e) (hp : p ∈ c.pointers id) :
    ∃ es, p.map (c.edges[·]?) = es.map some ∧
      Stepped g.productions tokens (· ∈ c.edges) (e, es) := by
  obtain ⟨es, hes⟩ := h.wellFormed.children hp
  have hjustifies : c.Justifies (e, es) := ⟨id, he, p, hp, hes⟩
  refine ⟨es, hes, (h.justified hjustifies).stepped.imp_of_mem fun b hb _ => ?_⟩
  -- what a list names is in the chart
  have hsome : some b ∈ p.map (c.edges[·]?) := hes ▸ List.mem_map_of_mem hb
  obtain ⟨child, -, hchild⟩ := List.mem_map.1 hsome
  exact List.mem_of_getElem? hchild

/-- A filled chart has every edge that its edges lead to as tiles, by that very list of ids. -/
theorem Filled.exists_of_tiles (h : c.Filled productions tokens bottomUpStrategy)
    {q : Production L} (hq : q ∈ productions) {p : Pointers} {es : List (Edge L)} {i j : Nat}
    {a : Advance L} (hes : p.map (c.edges[·]?) = es.map some) (hne : es ≠ [])
    (htiles : Tiles (· ∈ c.edges) es i j)
    (ha : Label.advanceAll 0 ⟨q.lhs, q.rhs⟩ (es.map Edge.lhs) = some a) :
    ∃ id e, Edge.make i j a.lhs a.rhs es.length = .ok e ∧ c.edges[id]? = some e ∧
      p ∈ c.pointers id := by
  have hknown : ∀ b ∈ c.edges, Known productions tokens b := by
    intro b hb
    obtain ⟨bs, hbs⟩ := h.wellFormed.mem_edges_iff.1 hb
    exact ⟨bs, (h.justifies_iff _).1 hbs⟩
  obtain ⟨e, he, hjustified⟩ :=
    (htiles.imp_of_mem fun b _ hb => hknown b hb).justified hq hne ha
  obtain ⟨id, hid, p', hp', hes'⟩ := (h.justifies_iff _).2 hjustified
  -- the list that names these edges is the one that was given
  obtain rfl := h.wellFormed.eq_of_map_eq hes hes'
  exact ⟨id, e, he, hid, hp'⟩

variable [DecidableEq L]

/-- Whatever is done to an empty chart, each list of an edge is a step of a
derivation: none for a leaf or an empty production, and otherwise as many
complete edges of the chart as the dot has passed symbols, which tile the span
and over whose labels some production advances to the edge.  A chart that has
been filled has all of these steps. -/
theorem pointers_are_derivation_steps (start : L) (productions : List (Production L))
    (tokens : List String) :
    (∀ applications id e p,
      let c := (new tokens).run (.ofList start productions) applications
      c.edges[id]? = some e → p ∈ c.pointers id →
        ∃ es, p.map (c.edges[·]?) = es.map some ∧
          Stepped productions tokens (· ∈ c.edges) (e, es)) ∧
      ∀ mode width, (Grammar.ofList start productions).checkCoverage tokens = .ok () →
        ∃ o, Parser.chartParse ⟨.ofList start productions, ⟨bottomUpStrategy, mode, width⟩⟩
            tokens = .ok o ∧
          ∀ q ∈ productions, ∀ p es i j a, p.map (o.chart.edges[·]?) = es.map some → es ≠ [] →
            Tiles (· ∈ o.chart.edges) es i j →
            Label.advanceAll 0 ⟨q.lhs, q.rhs⟩ (es.map Edge.lhs) = some a →
              ∃ id e, Edge.make i j a.lhs a.rhs es.length = .ok e ∧
                o.chart.edges[id]? = some e ∧ p ∈ o.chart.pointers id := by
  constructor
  · intro applications id e p c he hp
    obtain ⟨changed, hfollows⟩ :=
      run_follows (Grammar.indexed_ofList start productions) applications (wellFormed_new tokens)
    obtain ⟨es, hes, hstepped⟩ := hfollows.stepped he hp
    rw [Grammar.productions_ofList] at hstepped
    exact ⟨es, hes, hstepped⟩
  · intro mode width hcovered
    obtain ⟨o, hrun, hfilled, -⟩ :=
      Parser.chartParseWith_spec
        (p := ⟨.ofList start productions, ⟨bottomUpStrategy, mode, width⟩⟩)
        (Grammar.indexed_ofList start productions) hcovered .idle ()
    rw [Grammar.productions_ofList] at hfilled
    exact ⟨o, hrun, fun q hq p es i j a => hfilled.exists_of_tiles hq⟩

/-- A sentence whose noun and verb agree in number, which the verb does not show. -/
def agreeing : List (Production FeatureSymbol) :=
  [⟨.category (.bare "S"), [.category ((Category.bare "N").insert "num" (.var "n")),
      .category ((Category.bare "V").insert "num" (.var "n"))]⟩,
    ⟨.category ((Category.bare "N").insert "num" (.atom "pl")), [.terminal "dogs"]⟩,
    ⟨.category ((Category.bare "V").insert "num" (.var "m")), [.terminal "slept"]⟩]

/-- `S →` and `S → S S`, where an edge is a child of its own. -/
def looping : List (Production Symbol) :=
  [⟨.nonterminal "S", []⟩, ⟨.nonterminal "S", [.nonterminal "S", .nonterminal "S"]⟩]

/-- The edge `[0:0] S → S S •`. -/
def looped : Edge Symbol :=
  ⟨0, 0, .nonterminal "S", [.nonterminal "S", .nonterminal "S"], 2, le_rfl, le_rfl⟩

theorem pointers_are_derivation_steps_agreeing_and_looping :
    let g := Grammar.ofList (.category (.bare "S")) agreeing
    let c := (new ["dogs", "slept"]).run g
      [.everywhere .leafInit, .everywhere .predictCombine, .once .fundamental (some 3)]
    (∃ e es, c.edges[5]? = some e ∧ [2, 3].map (c.edges[·]?) = es.map some ∧
        Stepped agreeing ["dogs", "slept"] (· ∈ c.edges) (e, es)) ∧
      ∃ o, Parser.chartParse ⟨.ofList (.nonterminal "S") looping,
          ⟨bottomUpStrategy, .agenda, 50⟩⟩ [] = .ok o ∧
        ∃ id, o.chart.edges[id]? = some looped ∧ [2, 2] ∈ o.chart.pointers id := by
  intro g c
  constructor
  · obtain ⟨e, he⟩ := lt_size_iff.1 (show 5 < c.size by decide +kernel)
    have hp : [2, 3] ∈ c.pointers 5 := by decide +kernel
    obtain ⟨es, hes, hstepped⟩ := (pointers_are_derivation_steps _ agreeing _).1 _ 5 e _ he hp
    exact ⟨e, es, he, hes, hstepped⟩
  · obtain ⟨o, hrun, hsteps⟩ := (pointers_are_derivation_steps (.nonterminal "S") looping []).2
      .agenda 50 rfl
    have hedges : (Parser.chartParse ⟨.ofList (.nonterminal "S") looping,
        ⟨bottomUpStrategy, .agenda, 50⟩⟩ []).toOption.map (·.chart.edges[2]?) =
          some (some looped) := by decide +kernel
    rw [hrun] at hedges
    have hlooped : o.chart.edges[2]? = some looped := Option.some.inj hedges
    have hmem : looped ∈ o.chart.edges := List.mem_of_getElem? hlooped
    obtain ⟨id, e, he, hid, hp⟩ := hsteps ⟨.nonterminal "S", looped.rhs⟩
      (List.mem_cons_of_mem _ List.mem_cons_self) [2, 2] [looped, looped] 0 0 _
      (by simp only [List.map_cons, List.map_nil, hlooped]) (List.cons_ne_nil _ _)
      (.cons hmem rfl (.singleton hmem rfl)) rfl
    obtain rfl : looped = e := Except.ok.inj he
    exact ⟨o, hrun, id, hid, hp⟩

end Chart

end ChartParsing
