/-
ChartParsing/Proofs/Relabel/Parser.lean

Parsers with other labels.

Both loops apply the same rules to the same ids, so a chart that is filled with
other labels is the chart that was filled, with its labels exchanged, and costs
as much (`Parser.chartParse_relabel`).  Its edges have the same trees in the
same order, and its roots are those that are accepted for the label that was
exchanged; so the parses are the same ones, too.
-/
import ChartParsing.Proofs.Parser.Correspondence
import ChartParsing.Proofs.Relabel.Rule

namespace ChartParsing

variable {L L' : Type} [Label L] [Label L'] {f : L → L'} (hf : Relabelling f)

/-! ### Loops -/

namespace Progress

variable {g : Grammar L} (hg : g.Indexed)

/-- The same progress with other labels. -/
def relabel (p : Progress L Unit) : Progress L' Unit := ⟨p.chart.relabel hf, p.applications, p.seen⟩

variable [DecidableEq L] [DecidableEq L']

include hg

/-- Rules do the same with other labels, so the loops do. -/
theorem carries_relabel : Carries (relabel hf) g .idle (g.relabel f) .idle where
  apply := fun rule id? p => bind_map_comm (rule.apply_relabel hf hg id? p.chart) fun _ => rfl
  applyEverywhere := fun rule p =>
    bind_map_comm (rule.applyEverywhere_relabel hf hg p.chart) fun _ => rfl
  pointerBits := by
    intro p
    rw [← hf.pointerBits (p.chart.seeds g), ← Chart.seeds_relabel hf]
    rfl

end Progress

/-! ### Filled charts -/

/-- The same outcome with other labels. -/
def Outcome.relabel (hf : Relabelling f) (o : Outcome L Unit) : Outcome L' Unit :=
  ⟨o.chart.relabel hf, o.stats, o.seen⟩

/-- The same parser with other labels. -/
def Parser.relabel (f : L → L') (p : Parser L) : Parser L' := ⟨p.grammar.relabel f, p.config⟩

theorem Parser.chartParse_relabel [DecidableEq L] [DecidableEq L'] {p : Parser L}
    (hg : p.grammar.Indexed) (tokens : List String) :
    (p.relabel f).chartParse tokens = (p.chartParse tokens).map (Outcome.relabel hf) := by
  have hcheck := p.grammar.checkCoverage_relabel hf hg tokens
  have hstart : Progress.start tokens () = (Progress.start tokens ()).relabel hf := by
    show (⟨.new tokens, 0, ()⟩ : Progress L' Unit) = ⟨(Chart.new tokens).relabel hf, 0, ()⟩
    rw [Chart.new_relabel]
  rw [chartParse, chartParse, chartParseWith, chartParseWith, hstart]
  show ((p.grammar.relabel f).checkCoverage tokens >>= _) = _
  rw [hcheck]
  cases p.grammar.checkCoverage tokens with
  | error x => rfl
  | ok =>
    rw [ok_bind, ok_bind]
    refine bind_map_comm ((Progress.carries_relabel hf hg).run p.config (.start tokens ()))
      fun r => ?_
    show Except.ok (⟨r.1.chart.relabel hf, ⟨r.1.applications, (r.1.chart.relabel hf).size,
      (r.1.chart.relabel hf).countPointers⟩, r.1.seen⟩ : Outcome L' Unit) = _
    rw [Chart.size_relabel, Chart.countPointers_relabel]
    rfl

/-! ### Trees -/

namespace Tree

mutual

/-- The same tree with other labels. -/
def relabel (f : L → L') : Tree L → Tree L'
  | leaf token => leaf token
  | node label children => node (f label) (relabelAll f children)

/-- The same trees with other labels. -/
def relabelAll (f : L → L') : List (Tree L) → List (Tree L')
  | [] => []
  | t :: ts => t.relabel f :: relabelAll f ts

end

omit [Label L] [Label L'] in
theorem relabelAll_eq_map (f : L → L') (ts : List (Tree L)) :
    relabelAll f ts = ts.map (relabel f) := by
  induction ts with
  | nil => rfl
  | cons t ts ih => rw [relabelAll, ih, List.map_cons]

omit [Label L] [Label L'] in
theorem relabel_node (f : L → L') (label : L) (children : List (Tree L)) :
    (node label children).relabel f = node (f label) (children.map (relabel f)) := by
  rw [relabel, relabelAll_eq_map]

end Tree

namespace Chart

variable (c : Chart L)

/-- What is made of the ways down from an edge is the same, if leaves and nodes
are made into the same. -/
theorem enumerate_relabel {α α' : Type} {complete : Bool} {leaf : EdgeId → String → α}
    {node : EdgeId → Edge L → List α → α} {leaf' : EdgeId → String → α'}
    {node' : EdgeId → Edge L' → List α' → α'} (g : α → α')
    (hleaf : ∀ id token, leaf' id token = g (leaf id token))
    (hnode : ∀ id (e : Edge L) as, node' id (e.relabel f) (as.map g) = g (node id e as))
    (path : Finset EdgeId) (id : EdgeId) :
    (c.relabel hf).enumerate complete leaf' node' path id =
      (c.enumerate complete leaf node path id).map g := by
  have hedges : ∀ {id : EdgeId} {e : Edge L}, c.edges[id]? = some e →
      (c.relabel hf).edges[id]? = some (e.relabel f) := by
    intro id e he
    rw [edges_relabel, List.getElem?_map, he]
    rfl
  induction path, id using c.path_induction complete with
  | onPath path id hpath =>
    rw [enumerate_of_mem hpath, enumerate_of_mem hpath]
    rfl
  | missing path id hedge =>
    have hedge' : (c.relabel hf).edges[id]? = none := by
      rw [edges_relabel, List.getElem?_map, hedge]
      rfl
    rw [enumerate_of_none hedge, enumerate_of_none hedge']
    rfl
  | skipped path id e hedge hskip =>
    have hskip' : (complete && (e.relabel f).isIncomplete) = true := by
      rwa [Edge.isIncomplete_relabel]
    rw [enumerate_of_skip hedge hskip, enumerate_of_skip (hedges hedge) hskip']
    rfl
  | leaf path id e hpath hedge hisLeaf =>
    have hisLeaf' : (e.relabel f).isLeaf = true := by rwa [Edge.isLeaf_relabel]
    rw [enumerate_of_leaf hpath hedge hisLeaf, enumerate_of_leaf hpath (hedges hedge) hisLeaf']
    show (c.tokens[e.start]?.map (leaf' id)).toList = _
    cases c.tokens[e.start]? with
    | none => rfl
    | some token => exact congrArg ([·]) (hleaf id token)
  | opened path id e hpath hopens ih =>
    have hopens' : (c.relabel hf).Opens complete id (e.relabel f) :=
      ⟨hedges hopens.edge, (e.isLeaf_relabel f).trans hopens.isLeaf, by
        rw [Edge.isIncomplete_relabel, hopens.kept]⟩
    rw [enumerate_of_opens hpath hopens, enumerate_of_opens hpath hopens', pointers_relabel,
      List.map_flatMap]
    refine List.flatMap_congr fun cpl _ => ?_
    have hchildren : cpl.map (fun child =>
          (c.relabel hf).enumerate complete leaf' node' (path ∪ {id}) child) =
        (cpl.map fun child =>
          c.enumerate complete leaf node (path ∪ {id}) child).map fun as => as.map g := by
      rw [List.map_map]
      exact List.map_congr_left fun child _ => ih child
    rw [hchildren, combinations_map, List.map_map, List.map_map]
    exact List.map_congr_left fun as _ => hnode id e as

/-- Edges have the same trees with other labels, in the same order. -/
theorem treesAvoiding_relabel (complete : Bool) (path : Finset EdgeId) (id : EdgeId) :
    (c.relabel hf).treesAvoiding complete path id =
      (c.treesAvoiding complete path id).map (Tree.relabel f) := by
  rw [treesAvoiding, treesAvoiding]
  refine c.enumerate_relabel hf (Tree.relabel f) (fun id token => ?_) (fun id e ts => ?_) path id
  · rfl
  · rw [Tree.relabel_node, List.map_append, Edge.unmatched_relabel, List.map_map, List.map_map]
    rfl

/-! ### Parses -/

theorem roots_relabel (root : L) : (c.relabel hf).roots (f root) = c.roots root := by
  rw [roots, roots, scan_relabel, tokens_relabel, hf.key]
  refine List.filter_congr fun id _ => ?_
  rw [isRoot, isRoot, edge?_relabel]
  cases c.edge? id with
  | none => rfl
  | some e => exact hf.acceptsRoot root e.lhs

/-- A filled chart has the same parses with other labels, in the same order. -/
theorem toList_parses_relabel [LawfulLabel L] [LawfulLabel L']
    {productions : List (Production L)} {productions' : List (Production L')}
    {tokens : List String} {rules : List Rule} (h : c.Filled productions tokens rules)
    (h' : (c.relabel hf).Filled productions' tokens rules) (root : L) :
    Parses.toList ⟨c.relabel hf, (c.relabel hf).roots (f root), []⟩ =
      (Parses.toList ⟨c, c.roots root, []⟩).map (Except.map (Tree.relabel f)) := by
  rw [h.toList_parses, h'.toList_parses, roots_relabel, List.map_map, List.map_flatMap,
    List.map_flatMap]
  refine List.flatMap_congr fun id _ => ?_
  rw [treesAvoiding_relabel, List.map_map]
  rfl

end Chart

end ChartParsing
