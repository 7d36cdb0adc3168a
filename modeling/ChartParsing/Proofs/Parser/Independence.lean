/-
ChartParsing/Proofs/Parser/Independence.lean

The fixpoint does not depend on how it is reached.

A filled chart is settled by the tokens, the set of productions and the set of
rules.  So neither the loop nor the order of rules and productions, nor how
often one is listed, shows in it, save for the ids and the order of what it
holds; and the parses are the same up to their order.
-/
import ChartParsing.Proofs.Chart.Agreement
import ChartParsing.Proofs.Label.Feature
import ChartParsing.Proofs.Parser.Parses

namespace ChartParsing

variable {L : Type} [Label L]

/-- Charts filled with the same productions and rules agree. -/
theorem Chart.Filled.agrees {productions productions' : List (Production L)}
    {tokens : List String} {rules rules' : List Rule} {c c' : Chart L}
    (h : c.Filled productions tokens rules) (h' : c'.Filled productions' tokens rules')
    (hproductions : ∀ p, p ∈ productions ↔ p ∈ productions')
    (hrules : ∀ r, r ∈ rules ↔ r ∈ rules') : c.Agrees c' where
  wellFormed := h.wellFormed
  wellFormed' := h'.wellFormed
  tokens_eq := h'.tokens_eq.trans h.tokens_eq.symm
  justifies_iff := by
    intro x
    rw [h.justifies_iff, h'.justifies_iff]
    constructor
    · exact Justified.mono (fun p => (hproductions p).1) fun r => (hrules r).1
    · exact Justified.mono (fun p => (hproductions p).2) fun r => (hrules r).2

theorem Grammar.checkCoverage_ofList_mono {start : L}
    {productions productions' : List (Production L)} {tokens : List String}
    (hproductions : ∀ p ∈ productions, p ∈ productions')
    (h : (ofList start productions).checkCoverage tokens = .ok ()) :
    (ofList start productions').checkCoverage tokens = .ok () := by
  rw [checkCoverage_eq_ok_iff] at h ⊢
  intro t ht
  obtain ⟨p, hp, l, hl, htoken⟩ := ProductionIndex.covers_ofList_iff.1 (h t ht)
  exact ProductionIndex.covers_ofList_iff.2 ⟨p, hproductions p hp, l, hl, htoken⟩

variable [LawfulLabel L]

theorem Chart.Agrees.roots_perm {c c' : Chart L} (h : c.Agrees c') (start : L) :
    ((c.roots start).map (c.edges[·]?)).Perm ((c'.roots start).map (c'.edges[·]?)) := by
  have hnodup : ∀ d : Chart L, d.WellFormed → ((d.roots start).map (d.edges[·]?)).Nodup := by
    intro d hd
    refine (d.nodup_roots start).map_on fun i hi j _ heq => ?_
    obtain ⟨e, he, -⟩ := mem_roots.1 hi
    exact hd.id_unique he (heq ▸ he)
  have hmem : ∀ (d : Chart L) (e? : Option (Edge L)),
      e? ∈ (d.roots start).map (d.edges[·]?) ↔ ∃ e ∈ d.edges, e? = some e ∧ e.start = 0 ∧
        e.stop = d.tokens.length ∧ Label.acceptsRoot start e.lhs = true := by
    intro d e?
    rw [List.mem_map]
    constructor
    · rintro ⟨id, hid, rfl⟩
      obtain ⟨e, he, hroot⟩ := mem_roots.1 hid
      exact ⟨e, List.mem_of_getElem? he, he, hroot⟩
    · rintro ⟨e, he, rfl, hroot⟩
      obtain ⟨id, hid⟩ := List.mem_iff_getElem?.1 he
      exact ⟨id, mem_roots.2 ⟨e, hid, hroot⟩, hid⟩
  refine (List.perm_ext_iff_of_nodup (hnodup c h.wellFormed) (hnodup c' h.wellFormed')).2
    fun e? => ?_
  rw [hmem, hmem, h.tokens_eq]
  exact exists_congr fun e => and_congr_left' h.mem_edges_iff

namespace Parser

variable [DecidableEq L]

/-- Both parsers parse the tokens, to charts that hold the same edges and lists
under whichever ids, and to the same parses in whichever order. -/
def SameOutcome (p p' : Parser L) (tokens : List String) : Prop :=
  ∃ o o', p.chartParse tokens = .ok o ∧ p'.chartParse tokens = .ok o' ∧
    (∀ e, e ∈ o.chart.edges ↔ e ∈ o'.chart.edges) ∧
    (∀ e es, o.chart.Justifies (e, es) ↔ o'.chart.Justifies (e, es)) ∧
    o.chart.size = o'.chart.size ∧ o.chart.countPointers = o'.chart.countPointers ∧
    ∃ parses parses', p.parse tokens = .ok parses ∧ p'.parse tokens = .ok parses' ∧
      parses.Perm parses'

/-- Which rules and productions there are settles the chart and the parses;
loops, orders and repetitions make no difference. -/
theorem sameOutcome_of_same_members (start : L) (productions productions' : List (Production L))
    (tokens : List String) (config config' : Config)
    (hproductions : ∀ p, p ∈ productions ↔ p ∈ productions')
    (hrules : ∀ r, r ∈ config.strategy ↔ r ∈ config'.strategy)
    (hcovered : (Grammar.ofList start productions).checkCoverage tokens = .ok ()) :
    SameOutcome ⟨.ofList start productions, config⟩ ⟨.ofList start productions', config'⟩
      tokens := by
  have hcovered' := Grammar.checkCoverage_ofList_mono (fun p => (hproductions p).1) hcovered
  obtain ⟨o, hrun, hfilled, hparse⟩ :=
    parse_spec (p := ⟨.ofList start productions, config⟩)
      (Grammar.indexed_ofList start productions) hcovered
  obtain ⟨o', hrun', hfilled', hparse'⟩ :=
    parse_spec (p := ⟨.ofList start productions', config'⟩)
      (Grammar.indexed_ofList start productions') hcovered'
  have hmembers : ∀ p, p ∈ (Grammar.ofList start productions).productions ↔
      p ∈ (Grammar.ofList start productions').productions := by
    simpa only [Grammar.productions_ofList] using hproductions
  have hagrees : o.chart.Agrees o'.chart := hfilled.agrees hfilled' hmembers hrules
  refine ⟨o, o', hrun, hrun', fun e => hagrees.mem_edges_iff,
    fun e es => hagrees.justifies_iff (e, es), hagrees.size_eq, hagrees.countPointers_eq,
    _, _, hparse, hparse', ?_⟩
  -- root by root, under whichever ids
  refine perm_flatMap_of_perm_map (hagrees.roots_perm start) fun id hid id' _ heq => ?_
  obtain ⟨e, he, -⟩ := Chart.mem_roots.1 hid
  refine hagrees.treesAvoiding_perm true ∅ id ∅ id' e he (heq ▸ he) fun j j' _ _ _ => ?_
  exact iff_of_false (Finset.notMem_empty j) (Finset.notMem_empty j')

/-- A plain grammar with its productions reversed, and one with features with
its productions repeated, under other strategies and loops. -/
theorem sameOutcome_of_same_members_plain_and_features :
    SameOutcome (L := Symbol)
        ⟨.ofList (.nonterminal "S") [⟨.nonterminal "S", [.terminal "a"]⟩,
          ⟨.nonterminal "S", [.nonterminal "S", .nonterminal "S"]⟩],
          ⟨bottomUpStrategy, .agenda, 50⟩⟩
        ⟨.ofList (.nonterminal "S") [⟨.nonterminal "S", [.nonterminal "S", .nonterminal "S"]⟩,
          ⟨.nonterminal "S", [.terminal "a"]⟩], ⟨bottomUpStrategy.reverse, .fullPass, 50⟩⟩
        ["a", "a"] ∧
      SameOutcome (L := FeatureSymbol)
        ⟨.ofList (.category (.bare "S"))
          [⟨.category ((Category.bare "S").insert "num" (.atom "sg")), [.terminal "she"]⟩],
          ⟨bottomUpStrategy, .fullPass, 50⟩⟩
        ⟨.ofList (.category (.bare "S"))
          (List.replicate 2 ⟨.category ((Category.bare "S").insert "num" (.atom "sg")),
            [.terminal "she"]⟩), ⟨bottomUpStrategy ++ bottomUpStrategy, .agenda, 50⟩⟩
        ["she"] := by
  constructor
  · refine sameOutcome_of_same_members _ _ _ _ _ _ (fun p => ?_) (fun r => ?_) rfl
    · simp only [List.mem_cons, List.not_mem_nil, or_false]
      exact or_comm
    · exact List.mem_reverse.symm
  · refine sameOutcome_of_same_members _ _ _ _ _ _ (fun p => ?_) (fun r => ?_) rfl
    · simp
    · simp

end Parser

end ChartParsing
