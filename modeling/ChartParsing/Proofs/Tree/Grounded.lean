/-
ChartParsing/Proofs/Tree/Grounded.lean

No edge is without a tree.

Reading trees cuts every path that comes back to an edge, and lists may name
the very edge that they justify, so it is not plain that anything is left.  But
the list that an edge was discovered with names only edges that were there
before (`Moment.grounded`), and lists are never taken away.  Going down such
lists the ids fall, so no path comes back, and at its end there is a leaf over
a token or an empty production (`Moment.treesAvoiding_ne_nil`).

It follows that the parses of a chart run dry at once only if no complete edge
over the whole input is a root (`Moment.hasTrees`).
-/
import ChartParsing.Proofs.Parser.Run

namespace ChartParsing

/-- Where there is something to choose from each list, there is a choice. -/
theorem combinations_ne_nil {α : Type} {xss : List (List α)} (h : ∀ xs ∈ xss, xs ≠ []) :
    combinations xss ≠ [] := by
  induction xss with
  | nil => simp [combinations]
  | cons xs xss ih =>
    obtain ⟨hxs, hxss⟩ := List.forall_mem_cons.1 h
    obtain ⟨x, hx⟩ := List.exists_mem_of_ne_nil xs hxs
    obtain ⟨choice, hchoice⟩ := List.exists_mem_of_ne_nil _ (ih hxss)
    apply List.ne_nil_of_mem (a := x :: choice)
    exact List.mem_flatMap.2 ⟨x, hx, List.mem_map_of_mem hchoice⟩

namespace Parses

variable {L : Type} [Label L]

/-- There is no first parse just when there are no parses. -/
theorem next?_eq_none_iff (p : Parses L) : p.next? = none ↔ p.toList = [] := by
  obtain ⟨c, roots, ready⟩ := p
  have hnext := nextFrom_map_toList c roots ready
  rw [next?]
  constructor
  · intro h
    rw [h, Option.map_none, eq_comm, Option.map_eq_none_iff] at hnext
    exact List.head?_eq_none_iff.1 hnext
  · intro h
    rw [h] at hnext
    simpa using hnext

end Parses

namespace Chart

variable {L : Type} [Label L] {c : Chart L} {tokens : List String}

/-- Every edge has a list that names only edges discovered before it. -/
def Grounded (c : Chart L) : Prop :=
  ∀ id < c.size, ∃ p ∈ c.pointers id, ∀ child ∈ p, child < id

/-- Each edge is grounded, and can be read: as a tree of any kind, and if it is
complete as a complete tree.  The parses of a root label are trees, and there
is none at all just when no complete edge over the tokens is accepted. -/
structure HasTrees (c : Chart L) (tokens : List String) : Prop where
  grounded : c.Grounded
  trees : ∀ id < c.size, ∃ ts, c.trees id false = .ok ts ∧ ts ≠ []
  complete_trees : ∀ id e, c.edges[id]? = some e → e.isComplete = true →
    ∃ ts, c.trees id true = .ok ts ∧ ts ≠ []
  parses : ∀ root, ∃ ps ts, c.parses root = .ok ps ∧ ps.toList = ts.map .ok ∧
    (ps.next? = none ↔ ts = []) ∧
    (ts = [] ↔ ¬ ∃ e ∈ c.edges, e.isComplete = true ∧ e.start = 0 ∧ e.stop = tokens.length ∧
      Label.acceptsRoot root e.lhs = true)

/-! ### The list that an edge was discovered with -/

variable [DecidableEq L] [LawfulLabel L] {g : Grammar L} {id : EdgeId} {e : Edge L}

namespace Moment

/-- Later lists are added to the first, which no rule can have offered before
the edges that it names were there. -/
theorem grounded (hg : g.Indexed) (hc : Moment g tokens c) : c.Grounded := by
  induction hc with
  | new => exact fun id hid => absurd hid (Nat.not_lt_zero id)
  | @index c attributes _ ih =>
    intro id hid
    rw [size_ensureIndex] at hid
    rw [pointers_ensureIndex]
    exact ih id hid
  | @insert c c' rule o id? hc ho hinsert ih =>
    have hins := insert_inserted (hc.wellFormed hg) hinsert
    intro id hid
    by_cases hold : id < c.size
    · obtain ⟨p, hp, hlt⟩ := ih id hold
      exact ⟨p, (hins.grows.pointers id).subset hp, hlt⟩
    · -- the edge is new, and has just the lists that were offered with it
      have hnew : c.size ≤ id := Nat.le_of_not_lt hold
      obtain ⟨p, hp⟩ := List.exists_mem_of_ne_nil _ (hins.wellFormed.justified id hid)
      refine ⟨p, hp, fun child hchild => ?_⟩
      rcases (hins.mem_pointers id p).1 hp with hp | ⟨-, hp⟩
      · rw [pointers_of_le_size hnew] at hp
        simp at hp
      · exact Nat.lt_of_lt_of_le (ho.child_lt hg (hc.wellFormed hg) p hp child hchild) hnew

/-- The children of an edge are complete. -/
theorem isComplete_of_mem_pointers (hg : g.Indexed) (hc : Moment g tokens c) {p : Pointers}
    (he : c.edges[id]? = some e) (hp : p ∈ c.pointers id) {child : EdgeId} (hchild : child ∈ p) :
    ∃ b, c.edges[child]? = some b ∧ b.isComplete = true := by
  obtain ⟨es, hes, hstepped⟩ := hc.stepped hg he hp
  have hmem : c.edges[child]? ∈ es.map some := hes ▸ List.mem_map_of_mem hchild
  obtain ⟨b, hb, hedge⟩ := List.mem_map.1 hmem
  refine ⟨b, hedge.symm, ?_⟩
  cases hstepped with
  | leaf => simp at hb
  | empty => simp at hb
  | steps _ _ _ htiles => exact htiles.isComplete b hb

/-! ### Trees -/

/-- Below all edges of the path there is a tree: the ids fall on the way down
from the list that an edge was discovered with, so the path is not met again. -/
theorem treesAvoiding_ne_nil (hg : g.Indexed) (hc : Moment g tokens c) {complete : Bool}
    {path : Finset EdgeId} (he : c.edges[id]? = some e)
    (hkept : (complete && e.isIncomplete) = false) (hpath : ∀ x ∈ path, id < x) :
    c.treesAvoiding complete path id ≠ [] := by
  induction id using Nat.strong_induction_on generalizing path e with
  | _ id ih =>
    have hoff : id ∉ path := fun hmem => Nat.lt_irrefl id (hpath id hmem)
    rcases opens_or complete he with hopens | hleaf | hskip
    · obtain ⟨p, hp, hlt⟩ := hc.grounded hg id (lt_size he)
      have hchildren : combinations (p.map (c.treesAvoiding complete (path ∪ {id}))) ≠ [] := by
        apply combinations_ne_nil
        intro ts hts
        obtain ⟨child, hchild, rfl⟩ := List.mem_map.1 hts
        obtain ⟨b, hb, hcomplete⟩ := hc.isComplete_of_mem_pointers hg he hp hchild
        apply ih child (hlt child hchild) hb
        · simp [Edge.isIncomplete, hcomplete]
        · intro x hx
          rcases Finset.mem_union.1 hx with hx | hx
          · exact Nat.lt_trans (hlt child hchild) (hpath x hx)
          · rw [Finset.mem_singleton.1 hx]
            exact hlt child hchild
      obtain ⟨choice, hchoice⟩ := List.exists_mem_of_ne_nil _ hchildren
      rw [treesAvoiding, enumerate_of_opens hoff hopens]
      exact List.ne_nil_of_mem (List.mem_flatMap.2 ⟨p, hp, List.mem_map_of_mem hchoice⟩)
    · -- a leaf stands over a token
      have htoken : e.start < c.tokens.length :=
        Nat.lt_of_not_le fun hpast => hc.not_stray hg id ⟨e, he, hleaf, hpast⟩
      rw [treesAvoiding, enumerate_of_leaf hoff he hleaf, List.getElem?_eq_getElem htoken]
      simp
    · rw [hkept] at hskip
      cases hskip

/-- Every edge that is not left out can be read. -/
theorem exists_trees (hg : g.Indexed) (hc : Moment g tokens c) {complete : Bool}
    (he : c.edges[id]? = some e) (hkept : (complete && e.isIncomplete) = false) :
    ∃ ts, c.trees id complete = .ok ts ∧ ts ≠ [] :=
  ⟨_, hc.trees_eq hg (lt_size he) complete,
    hc.treesAvoiding_ne_nil hg he hkept fun _ hx => absurd hx (Finset.notMem_empty _)⟩

/-! ### Parses -/

/-- The roots have no trees just when none of them is complete. -/
theorem flatMap_roots_eq_nil_iff (hg : g.Indexed) (hc : Moment g tokens c) (root : L) :
    (c.roots root).flatMap (c.treesAvoiding true ∅) = [] ↔
      ¬ ∃ e ∈ c.edges, e.isComplete = true ∧ e.start = 0 ∧ e.stop = tokens.length ∧
        Label.acceptsRoot root e.lhs = true := by
  rw [List.flatMap_eq_nil_iff, ← hc.tokens_eq hg]
  constructor
  · rintro hnil ⟨e, he, hcomplete, hstart, hstop, hroot⟩
    obtain ⟨id, hid⟩ := List.mem_iff_getElem?.1 he
    refine hc.treesAvoiding_ne_nil hg hid ?_ (fun _ hx => absurd hx (Finset.notMem_empty _))
      (hnil id (mem_roots.2 ⟨e, hid, hstart, hstop, hroot⟩))
    simp [Edge.isIncomplete, hcomplete]
  · intro hnone id hid
    obtain ⟨e, he, hstart, hstop, hroot⟩ := mem_roots.1 hid
    apply enumerate_of_skip he
    cases hcomplete : e.isComplete with
    | false => simp [Edge.isIncomplete, hcomplete]
    | true => exact absurd ⟨e, List.mem_of_getElem? he, hcomplete, hstart, hstop, hroot⟩ hnone

theorem hasTrees (hg : g.Indexed) (hc : Moment g tokens c) : c.HasTrees tokens where
  grounded := hc.grounded hg
  trees := fun id hid => by
    obtain ⟨e, he⟩ := lt_size_iff.1 hid
    exact hc.exists_trees hg he rfl
  complete_trees := fun id e he hcomplete =>
    hc.exists_trees hg he (by simp [Edge.isIncomplete, hcomplete])
  parses := fun root => by
    have hlist := toList_parses_of_trees_eq (fun _ hid => hc.trees_eq hg hid true) root
    refine ⟨⟨c, c.roots root, []⟩, _, c.parses_eq root, hlist, ?_,
      hc.flatMap_roots_eq_nil_iff hg root⟩
    rw [Parses.next?_eq_none_iff, hlist, List.map_eq_nil_iff]

end Moment

/-- Whatever rules are applied to an empty chart, and in whatever order, each
edge has a list of edges discovered before it, and so has trees; and the parses
of the chart are none only where no complete edge over the tokens is a root.  In
particular this is so of every chart that a parse returns. -/
theorem run_hasTrees (start : L) (productions : List (Production L)) (tokens : List String) :
    (∀ applications,
      ((new tokens).run (.ofList start productions) applications).HasTrees tokens) ∧
      ∀ config o, Parser.chartParse ⟨.ofList start productions, config⟩ tokens = .ok o →
        o.chart.HasTrees tokens := by
  have hg := Grammar.indexed_ofList start productions
  constructor
  · intro applications
    exact (Moment.new.run hg applications).hasTrees hg
  · intro config o ho
    exact ((Parser.isRun_chartParseWith ho).moment hg).hasTrees hg

/-- `[0:0] S → S S •` names itself, in a list that was found later than the one it began with. -/
theorem run_hasTrees_looping_and_agreeing :
    (∃ c : Chart Symbol, 2 < c.size ∧ [0, 2] ∈ c.pointers 2 ∧ c.HasTrees []) ∧
      ∃ o, Parser.chartParse ⟨.ofList (.category (.bare "S")) agreeing,
          ⟨bottomUpStrategy, .fullPass, 50⟩⟩ ["dogs", "slept"] = .ok o ∧
        o.chart.HasTrees ["dogs", "slept"] := by
  constructor
  · refine ⟨(new []).run (.ofList (.nonterminal "S") looping)
      [.everywhere .emptyPredict, .everywhere .predictCombine, .everywhere .fundamental],
      by decide +kernel, by decide +kernel, ?_⟩
    exact (run_hasTrees (.nonterminal "S") looping []).1 _
  · have hcovered : (Grammar.ofList (.category (.bare "S")) agreeing).checkCoverage
        ["dogs", "slept"] = .ok () := by decide +kernel
    obtain ⟨o, ho, -⟩ := Parser.chartParseWith_spec
      (p := ⟨.ofList (.category (.bare "S")) agreeing, ⟨bottomUpStrategy, .fullPass, 50⟩⟩)
      (Grammar.indexed_ofList _ _) hcovered .idle ()
    exact ⟨o, ho, (run_hasTrees _ agreeing _).2 _ o ho⟩

end Chart

end ChartParsing
