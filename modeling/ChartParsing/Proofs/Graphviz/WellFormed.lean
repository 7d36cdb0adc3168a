/-
ChartParsing/Proofs/Graphviz/WellFormed.lean

The graph of a chart is well formed.

Its text is read as a graph, and what that has is well formed (`WellFormed`).
All nodes between which there are arrows are declared, and each once; they are
listed once in the ranks, with the others of their column (`placed_node`).
There are no arrows but the one to the first node, those between the tokens and
those in the rows of the edges, and the row of an edge is a walk over the nodes
of the row (`drawsEdge_rowArcs`).  Tokens and labels are read back as they are.
-/
import ChartParsing.Proofs.Chart.Store
import ChartParsing.Proofs.Graphviz.Grid
import ChartParsing.Proofs.Graphviz.Lines
import Mathlib.Data.List.Forall2

namespace ChartParsing.Graphviz

variable {L : Type} [Label L]

/-! ### Nodes -/

/-- A node of that name is declared once, and listed once in the ranks, in that
of its column. -/
structure Placed (c : Chart L) (graph : List Item) (name : String) : Prop where
  declared : (declared graph).count name = 1
  ranked : (ranks graph).flatten.count name = 1
  column : ∃ column ≤ c.tokens.length, ∃ row ≤ c.size, name = node column row ∧
    ∃ group, (ranks graph)[column]? = some group ∧ name ∈ group ∧
      ∀ other ∈ group, ∃ row', other = node column row'

theorem mem_declared {c : Chart L} {column row : Nat} :
    node column row ∈ declared (graph c) ↔ row ≤ c.size ∧ column ∈ columns c row := by
  simp only [declared_graph, List.mem_flatMap, List.mem_reverse, List.mem_range,
    List.mem_map, node_inj, Nat.lt_succ_iff]
  constructor
  · rintro ⟨row', hrow, column', hcolumn, rfl, rfl⟩
    exact ⟨hrow, hcolumn⟩
  · rintro ⟨hrow, hcolumn⟩
    exact ⟨row, hrow, column, hcolumn, rfl, rfl⟩

theorem placed_node {c : Chart L} {column row : Nat} (hrow : row ≤ c.size)
    (hcolumn : column ∈ columns c row) : Placed c (graph c) (node column row) := by
  obtain ⟨hle, hvisible⟩ := (mem_columns c).1 hcolumn
  have hmem : row ∈ rows c column := (mem_rows c).2 ⟨hrow, hvisible⟩
  have hlt : column < c.tokens.length + 1 := Nat.lt_succ_of_le hle
  exact
    { declared := by
        rw [declared_graph]
        have hname : ∀ {row column row' column'},
            node column row = node column' row' ↔ row = row' ∧ column = column' :=
          node_inj.trans And.comm
        exact count_flatMap_map hname (List.nodup_reverse.2 List.nodup_range)
          (fun row => List.nodup_range.filter _)
          (List.mem_reverse.2 (List.mem_range.2 (Nat.lt_succ_of_le hrow))) hcolumn
      ranked := by
        rw [ranks_graph, ← List.flatMap_def]
        exact count_flatMap_map node_inj List.nodup_range (fun column => List.nodup_range.filter _)
          (List.mem_range.2 hlt) hmem
      column := by
        refine ⟨column, hle, row, hrow, rfl, (rows c column).map (node column), ?_,
          List.mem_map_of_mem hmem, List.forall_mem_map.2 fun row' _ => ⟨row', rfl⟩⟩
        rw [ranks_graph, List.getElem?_map, List.getElem?_range hlt]
        rfl }

/-! ### Rows -/

/-- These arcs in a row of the graph draw the edge. -/
structure DrawsEdge (c : Chart L) (graph : List Item) (e : Edge L) (row : Nat)
    (arcs : List Arc) : Prop where
  leads : Leads 0 arcs c.tokens.length
  /-- Just one arc has a label, that from the start of the edge to its end. -/
  labelled : arcs.filter (fun a => a.label.isSome) = [⟨e.start, e.stop, some e.text⟩]
  /-- Any other goes one column on. -/
  invisible : ∀ a ∈ arcs, a.label = none → a.target = a.source + 1
  forward : (0 :: (arcs.filter fun a => a.source != a.target).map Arc.target).Pairwise (· < ·)
  /-- The nodes on the way are all those that are declared in the row. -/
  visits : ∀ column, column ∈ 0 :: (arcs.filter fun a => a.source != a.target).map Arc.target ↔
    node column row ∈ declared graph

theorem drawsEdge_rowArcs {c : Chart L} {e : Edge L} {id : EdgeId} (h : c.edges[id]? = some e)
    (hstop : e.stop ≤ c.tokens.length) :
    DrawsEdge c (graph c) e (id + 1) (rowArcs c e) where
  leads := leads_rowArcs c e hstop
  labelled := filter_label_rowArcs c e
  invisible := fun _ ha => of_mem_rowArcs ha
  forward := by
    rw [visits_rowArcs c h hstop]
    exact List.pairwise_lt_range.filter _
  visits := by
    intro column
    have hrow : id + 1 ≤ c.size := Chart.lt_size h
    rw [visits_rowArcs c h hstop, mem_declared, and_iff_right hrow]

/-! ### The graph -/

/-- What there is in the graph of a chart, and how its texts are quoted. -/
structure WellFormed (c : Chart L) (graph : List Item) : Prop where
  /-- Behind the arrow to the first node there are those from node to token and
  from token to node.  All others are in rows: each edge has one of its own,
  above the edges before it. -/
  arrows : ∃ rows : List (List Arrow),
    arrows graph = entry :: (tokenArrows c.tokens ++ rows.flatten) ∧
      List.Forall₂ (fun p row => ∃ arcs, row = arcs.map (Arc.arrow (p.2 + 1)) ∧
        DrawsEdge c graph p.1 (p.2 + 1) arcs) c.edges.zipIdx rows
  /-- All numeric nodes that have an arrow are in their place. -/
  placed : ∀ a ∈ Graphviz.arrows graph, ∀ name ∈ a.names, Placed c graph name
  distinct : ∀ {column row column' row'}, node column row = node column' row' →
    column = column' ∧ row = row'
  /-- A quoted text is read as it is, up to the closing quote, wherever it stands. -/
  quoted : ∀ (s : String) (cs : List Char), run .between ((quoted s).toList ++ cs) =
    (.label s :: (run .between cs).1, (run .between cs).2)
  /-- Backslashes are escaped first, and then quotes. -/
  escaped : ∀ s : String, (Graphviz.quoted s).toList =
    '"' :: ((s.toList.flatMap (guarded '\\')).flatMap (guarded '"') ++ ['"'])

theorem placed_names {c : Chart L} (hstop : ∀ e ∈ c.edges, e.stop ≤ c.tokens.length)
    {a : Arrow} (ha : a ∈ arrows (graph c)) {name : String} (hname : name ∈ a.names) :
    Placed c (graph c) name := by
  have hground : ∀ column ≤ c.tokens.length, Placed c (graph c) (node column 0) := by
    intro column hcolumn
    refine placed_node (Nat.zero_le _) ?_
    rw [columns_zero]
    exact List.mem_range.2 (Nat.lt_succ_of_le hcolumn)
  rw [arrows_graph, List.mem_cons, List.mem_append] at ha
  rcases ha with rfl | htoken | hrow
  · have hfirst : entry.names = [node 0 0] := by decide +kernel
    rw [hfirst, List.mem_singleton] at hname
    rw [hname]
    exact hground 0 (Nat.zero_le _)
  · obtain ⟨⟨t, i⟩, ht, ha⟩ := List.mem_flatMap.1 htoken
    obtain ⟨hi, -⟩ := List.getElem?_eq_some_iff.1 (List.mem_zipIdx_iff_getElem?.1 ht)
    rcases List.mem_pair.1 ha with rfl | rfl
    · rw [Arrow.names, List.filterMap_cons_some (node?_node i 0), List.mem_cons] at hname
      obtain rfl := hname.resolve_right fun h => nomatch h
      exact hground i (Nat.le_of_lt hi)
    · rw [Arrow.names, List.filterMap_cons_none rfl,
        List.filterMap_cons_some (node?_node (i + 1) 0), List.mem_cons] at hname
      obtain rfl := hname.resolve_right fun h => nomatch h
      exact hground (i + 1) hi
  · obtain ⟨⟨e, id⟩, he, ha⟩ := List.mem_flatMap.1 hrow
    obtain ⟨arc, harc, rfl⟩ := List.mem_map.1 ha
    have he : c.edges[id]? = some e := List.mem_zipIdx_iff_getElem?.1 he
    obtain ⟨hsource, htarget⟩ := ends_mem_columns he (hstop e (List.mem_of_getElem? he)) harc
    have hnames : (arc.arrow (id + 1)).names =
        [node arc.source (id + 1), node arc.target (id + 1)] := by
      rw [Arrow.names, Arc.arrow, List.filterMap_cons_some (node?_node _ _),
        List.filterMap_cons_some (node?_node _ _), List.filterMap_nil]
    rw [hnames] at hname
    rcases List.mem_pair.1 hname with rfl | rfl
    · exact placed_node (Chart.lt_size he) hsource
    · exact placed_node (Chart.lt_size he) htarget

/-- The text of a chart is read as a graph that is well formed, if no edge ends
past the last token. -/
theorem graph_wellFormed (c : Chart L) (hstop : ∀ e ∈ c.edges, e.stop ≤ c.tokens.length) :
    ∃ graph, read? (text c) = some graph ∧ WellFormed c graph := by
  refine ⟨graph c, read?_text c, ?_⟩
  exact
    { arrows := by
        refine ⟨c.edges.zipIdx.map fun p => (rowArcs c p.1).map (Arc.arrow (p.2 + 1)), ?_, ?_⟩
        · rw [arrows_graph, List.flatMap_def]
        · rw [List.forall₂_map_right_iff, List.forall₂_same]
          rintro ⟨e, id⟩ he
          have he : c.edges[id]? = some e := List.mem_zipIdx_iff_getElem?.1 he
          exact ⟨rowArcs c e, rfl, drawsEdge_rowArcs he (hstop e (List.mem_of_getElem? he))⟩
      placed := fun _ ha _ => placed_names hstop ha
      distinct := node_inj.1
      quoted := run_quoted
      escaped := fun s => by rw [toList_quoted, flatMap_escapeChar] }

/-- Over three tokens, with quotes and backslashes, an edge that spans nothing,
one that spans a token and one that spans all. -/
def drawn : Chart Symbol :=
  let s := Symbol.nonterminal "S"
  let found := Roster.empty.enter []
  (((Chart.new ["a\\", "\"\\\"", "b"]).append (.ofProduction ⟨s, [s]⟩ 1) found).append
    (.leaf "\"\\\"" 1) found).append ⟨0, 3, s, [s, s, s], 3, by decide, by decide⟩ found

theorem graph_wellFormed_drawn :
    (∀ e ∈ drawn.edges, e.stop ≤ drawn.tokens.length) ∧
      ∃ graph, read? (text drawn) = some graph ∧ WellFormed drawn graph ∧
        ranks graph =
          [["0000.0000", "0000.0001", "0000.0002", "0000.0003"],
           ["0001.0000", "0001.0001", "0001.0002"], ["0002.0000", "0002.0001", "0002.0002"],
           ["0003.0000", "0003.0001", "0003.0002", "0003.0003"]] := by
  have hstop : ∀ e ∈ drawn.edges, e.stop ≤ drawn.tokens.length := by decide
  obtain ⟨graph, hread, hgraph⟩ := graph_wellFormed drawn hstop
  obtain rfl : graph = Graphviz.graph drawn :=
    Option.some.inj (hread.symm.trans (read?_text drawn))
  refine ⟨hstop, _, hread, hgraph, ?_⟩
  rw [ranks_graph]
  decide +kernel

end ChartParsing.Graphviz
