/-
ChartParsing/Proofs/Parser/Parses.lean

What a parse returns.

A filled chart has no leaf past the tokens, for only a token makes an edge of
a leaf's shape (`closedUnder_leaf`).  Nor is a root missing from the chart that
it was found in (`Chart.rootsAmong_eq`).  So no root fails to be read, and the
parses are the trees of the roots, root by root (`Chart.Filled.toList_parses`,
`Parser.parse_spec`).  Whoever takes them one by one gets the same ones
(`Parses.take_eq_take_toList`).
-/
import ChartParsing.Proofs.Parser.Fixpoint
import ChartParsing.Proofs.Tree.Extraction

namespace ChartParsing

variable {L : Type} [Label L]

/-! ### Leaves -/

/-- Edges of a leaf's shape are the leaves over the tokens. -/
theorem closedUnder_leaf {productions : List (Production L)} {tokens : List String}
    {rule : Rule} :
    ClosedUnder productions tokens rule fun x =>
      x.1.isLeaf = true → ∃ i t, tokens[i]? = some t ∧ x.1 = Edge.leaf t i := by
  -- an edge whose dot has been moved has a right-hand side
  have hmoved : ∀ {start stop dot : Nat} {lhs : L} {rhs : List L} {e : Edge L},
      Edge.make start stop lhs rhs (dot + 1) = .ok e → e.isLeaf = false := by
    intro start stop dot lhs rhs e he
    obtain ⟨-, -, -, -, hdot⟩ := Edge.make_eq_ok he
    have hle := e.dot_le_length
    rw [Edge.isLeaf, Bool.and_eq_false_iff, List.isEmpty_eq_false_iff, ← List.length_pos_iff]
    exact .inl (by omega)
  intro premises x hinfers _ hleaf
  cases hinfers with
  | leaf ht => exact ⟨_, _, ht, rfl⟩
  | @empty p i _ _ _ =>
    rw [Edge.isLeaf, Bool.and_eq_true, beq_iff_eq] at hleaf
    have hlength : i - i = 1 := hleaf.2
    rw [Nat.sub_self] at hlength
    cases hlength
  | predict _ _ _ he =>
    rw [hmoved he] at hleaf
    cases hleaf
  | fundamental _ _ _ he =>
    rw [hmoved he] at hleaf
    cases hleaf

namespace Chart

variable {productions : List (Production L)} {tokens : List String} {rules : List Rule}
  {c : Chart L}

/-- No leaf stands past the tokens if all leaves stand over tokens. -/
theorem not_stray_of_leaves (hleaves : ∀ e ∈ c.edges, e.isLeaf = true →
    ∃ i t, c.tokens[i]? = some t ∧ e = Edge.leaf t i) (id : EdgeId) : ¬ c.Stray id := by
  rintro ⟨e, he, hleaf, hpast⟩
  obtain ⟨i, t, ht, rfl⟩ := hleaves e (List.mem_of_getElem? he) hleaf
  have hlt : i < c.tokens.length := (List.getElem?_eq_some_iff.1 ht).1
  exact absurd hpast (Nat.not_le_of_lt hlt)

/-- Where no leaf stands past the tokens, every edge can be read. -/
theorem WellFormed.trees_eq (h : c.WellFormed) (hstray : ∀ id, ¬ c.Stray id) {id : EdgeId}
    (hid : id < c.size) (complete : Bool) :
    c.trees id complete = .ok (c.treesAvoiding complete ∅ id) := by
  rcases h.trees_spec complete hid with ⟨htrees, -⟩ | ⟨x, -, -, hx⟩
  · exact htrees
  · exact absurd hx (hstray x)

namespace Filled

theorem exists_eq_leaf (h : c.Filled productions tokens rules) {e : Edge L} (he : e ∈ c.edges)
    (hleaf : e.isLeaf = true) : ∃ i t, tokens[i]? = some t ∧ e = Edge.leaf t i := by
  obtain ⟨es, hes⟩ := h.wellFormed.mem_edges_iff.1 he
  exact ((h.justifies_iff _).1 hes).of_closedUnder (fun _ _ => closedUnder_leaf) hleaf

theorem not_stray (h : c.Filled productions tokens rules) (id : EdgeId) : ¬ c.Stray id := by
  refine not_stray_of_leaves (fun e he hleaf => ?_) id
  rw [h.tokens_eq]
  exact h.exists_eq_leaf he hleaf

theorem trees_eq (h : c.Filled productions tokens rules) {id : EdgeId} (hid : id < c.size)
    (complete : Bool) : c.trees id complete = .ok (c.treesAvoiding complete ∅ id) :=
  h.wellFormed.trees_eq h.not_stray hid complete

end Filled

end Chart

/-! ### Roots -/

namespace Chart

/-- Whether the label of an edge is accepted as `root`. -/
def isRoot (c : Chart L) (root : L) (id : EdgeId) : Bool :=
  match c.edge? id with
  | some e => Label.acceptsRoot root e.lhs
  | none => false

/-- Among edges of the chart the roots are found, and no edge is missing. -/
theorem rootsAmong_eq {c : Chart L} (root : L) {candidates : List EdgeId}
    (h : ∀ id ∈ candidates, id < c.size) :
    c.rootsAmong root candidates = .ok (candidates.filter (c.isRoot root)) := by
  induction candidates with
  | nil => rfl
  | cons id candidates ih =>
    obtain ⟨hid, hrest⟩ := List.forall_mem_cons.1 h
    obtain ⟨e, he⟩ := lt_size_iff.1 hid
    rw [rootsAmong, edge_eq_ok he, ok_bind, ih hrest, ok_bind, List.filter_cons, isRoot,
      edge?_eq_getElem?, he]

/-- The edges over the whole input whose label is accepted as `start`, in order of discovery. -/
def roots (c : Chart L) (start : L) : List EdgeId :=
  (c.scan [.start 0, .stop c.tokens.length, .lhs (Label.key start)]).filter (c.isRoot start)

theorem nodup_roots (c : Chart L) (start : L) : (c.roots start).Nodup :=
  (c.nodup_scan _).filter _

variable [LawfulLabel L]

theorem mem_roots {c : Chart L} {start : L} {id : EdgeId} :
    id ∈ c.roots start ↔ ∃ e, c.edges[id]? = some e ∧ e.start = 0 ∧ e.stop = c.tokens.length ∧
      Label.acceptsRoot start e.lhs = true := by
  rw [roots, List.mem_filter, mem_scan, isRoot, edge?_eq_getElem?]
  constructor
  · rintro ⟨⟨e, he, hall⟩, hroot⟩
    rw [he] at hroot
    simp only [List.forall_mem_cons, Constraint.holds, Constraint.start, Constraint.stop,
      Constraint.lhs, Edge.valueOf, beq_iff_eq] at hall
    exact ⟨e, he, by simpa using hall.1, by simpa using hall.2.1, hroot⟩
  · rintro ⟨e, he, hstart, hstop, hroot⟩
    have hkey := LawfulLabel.key_of_acceptsRoot hroot
    rw [he]
    refine ⟨⟨e, rfl, ?_⟩, hroot⟩
    simp [Constraint.holds, Constraint.start, Constraint.stop, Constraint.lhs, Edge.valueOf,
      hstart, hstop, hkey]

end Chart

/-! ### Parses -/

namespace Parses

/-- The first parse is the head of all of them, and the others come after it. -/
theorem nextFrom_map_toList (c : Chart L) (roots : List EdgeId) (ready : List (Tree L)) :
    (nextFrom c roots ready).map (fun s => s.1 :: s.2.toList) =
      (toList ⟨c, roots, ready⟩).head?.map fun x => x :: (toList ⟨c, roots, ready⟩).tail := by
  induction roots generalizing ready with
  | nil =>
    cases ready with
    | nil => rfl
    | cons t ready => rfl
  | cons root roots ih =>
    cases ready with
    | cons t ready => rfl
    | nil =>
      rw [nextFrom]
      cases htrees : c.trees root true with
      | ok trees =>
        -- the trees of the root are ready for the rest
        have hroot : toList ⟨c, root :: roots, []⟩ = toList ⟨c, roots, trees⟩ := by
          simp [toList, ofRoot, htrees]
        rw [hroot]
        exact ih trees
      | error x => simp [toList, ofRoot, htrees]

/-- Taking parse by parse gives the first of all parses. -/
theorem take_eq_take_toList (limit : Nat) (p : Parses L) : p.take limit = p.toList.take limit := by
  induction limit generalizing p with
  | zero => rfl
  | succ limit ih =>
    obtain ⟨c, roots, ready⟩ := p
    have hnext := nextFrom_map_toList c roots ready
    rw [take, next?]
    cases hlist : toList ⟨c, roots, ready⟩ with
    | nil =>
      rw [hlist] at hnext
      rw [Option.map_eq_none_iff.1 hnext]
      rfl
    | cons x rest =>
      rw [hlist] at hnext
      obtain ⟨⟨y, p'⟩, hy, heq⟩ := Option.map_eq_some_iff.1 hnext
      have hrest : y :: p'.toList = x :: rest := heq
      obtain ⟨rfl, rfl⟩ := List.cons.inj hrest
      rw [hy, List.take_succ_cons]
      exact congrArg (y :: ·) (ih p')

end Parses

namespace Chart

theorem parses_eq (c : Chart L) (start : L) : c.parses start = .ok ⟨c, c.roots start, []⟩ := by
  have hquery : c.query [.start 0, .stop c.tokens.length, .lhs (Label.key start)] = .ok _ :=
    query_eq rfl
  have hfound : ∀ id ∈ c.scan [.start 0, .stop c.tokens.length, .lhs (Label.key start)],
      id < c.size := by
    intro id hid
    obtain ⟨e, he, -⟩ := mem_scan.1 hid
    exact lt_size he
  rw [parses, hquery, ok_bind, rootsAmong_eq start hfound, ok_bind, roots]

/-- The parses of a chart that can be read are the trees of its roots, and none of them fails. -/
theorem toList_parses_of_trees_eq [LawfulLabel L] {c : Chart L}
    (h : ∀ id < c.size, c.trees id true = .ok (c.treesAvoiding true ∅ id)) (start : L) :
    Parses.toList ⟨c, c.roots start, []⟩ =
      ((c.roots start).flatMap (c.treesAvoiding true ∅)).map .ok := by
  have hroot : ∀ id ∈ c.roots start,
      Parses.ofRoot c id = (c.treesAvoiding true ∅ id).map .ok := by
    intro id hid
    obtain ⟨e, he, -⟩ := mem_roots.1 hid
    rw [Parses.ofRoot, h id (lt_size he)]
  rw [Parses.toList, List.map_nil, List.nil_append, List.flatMap_congr hroot, List.map_flatMap]

theorem Filled.toList_parses [LawfulLabel L] {productions : List (Production L)}
    {tokens : List String} {rules : List Rule} {c : Chart L}
    (h : c.Filled productions tokens rules) (start : L) :
    Parses.toList ⟨c, c.roots start, []⟩ =
      ((c.roots start).flatMap (c.treesAvoiding true ∅)).map .ok :=
  toList_parses_of_trees_eq (fun _ hid => h.trees_eq hid true) start

end Chart

namespace Parser

variable [DecidableEq L] [LawfulLabel L]

/-- Parsing covered tokens returns the trees of the roots of a filled chart. -/
theorem parse_spec {p : Parser L} (hg : p.grammar.Indexed) {tokens : List String}
    (hcovered : p.grammar.checkCoverage tokens = .ok ()) :
    ∃ o, p.chartParse tokens = .ok o ∧
      o.chart.Filled p.grammar.productions tokens p.config.strategy ∧
        p.parse tokens = .ok ((o.chart.roots p.grammar.start).flatMap
          (o.chart.treesAvoiding true ∅)) := by
  obtain ⟨o, hrun, hfilled, -⟩ := p.chartParseWith_spec hg hcovered .idle ()
  refine ⟨o, hrun, hfilled, ?_⟩
  rw [parse, chartParse, hrun, ok_bind, o.chart.parses_eq, ok_bind, Parses.collect,
    hfilled.toList_parses]
  have hid : ∀ t : Tree L, id (.ok t : Except ChartError (Tree L)) = .ok t := fun _ => rfl
  exact mapM_map_eq_ok hid _

end Parser

end ChartParsing
