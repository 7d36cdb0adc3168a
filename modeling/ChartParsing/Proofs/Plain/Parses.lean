/-
ChartParsing/Proofs/Plain/Parses.lean

The parses of a plain grammar.

A derivation tree is read off one complete edge of the chart, which is settled
by the tree and the position of its first token (`Tops.unique`).  On the way
down the chart goes from edge to edge as the tree goes from step to step, so
to come back to an edge is to apply a production over the same span again
(`Chart.OnPath`).  Hence the trees of an edge are the acyclic derivation trees
that end in it (`mem_treesAvoiding_iff`).  None is read twice, for a tree also
settles the edges of its children and with them the list that it was read
from.
-/
import ChartParsing.Proofs.Parser.Parses
import ChartParsing.Proofs.Plain.Acyclic
import ChartParsing.Proofs.Plain.Edges
import ChartParsing.Proofs.Chart.Agreement

namespace ChartParsing

variable {productions : List (Production Symbol)} {tokens : List String}

/-! ### The edge of a tree -/

namespace Edge

/-- The production over the span of an edge. -/
def step (e : Edge Symbol) : Step := (⟨e.lhs, e.rhs⟩, e.start, e.stop)

theorem eq_finished {e : Edge Symbol} (h : e.isComplete = true) :
    e = finished ⟨e.lhs, e.rhs⟩ e.start_le_stop :=
  ext_parts rfl rfl rfl rfl (eq_of_beq h)

/-- A complete edge is settled by its production and its span. -/
theorem eq_of_step_eq {e f : Edge Symbol} (he : e.isComplete = true) (hf : f.isComplete = true)
    (h : e.step = f.step) : e = f := by
  simp only [step, Prod.mk.injEq, Production.mk.injEq] at h
  obtain ⟨⟨hlhs, hrhs⟩, hstart, hstop⟩ := h
  refine ext_parts hstart hstop hlhs hrhs ?_
  rw [eq_of_beq he, eq_of_beq hf, hrhs]

end Edge

namespace Tops

variable {b b' : Edge Symbol} {t : Tree Symbol} {w : String} {A : Symbol}
  {ts : List (Tree Symbol)} {i : Nat}

theorem leaf_iff : Tops productions tokens b (.leaf w) ↔
    tokens[b.start]? = some w ∧ b = .leaf w b.start := by
  constructor
  · intro h
    cases h with
    | leaf hw => exact ⟨hw, rfl⟩
  · rintro ⟨hw, hb⟩
    rw [hb]
    exact .leaf hw

theorem node_iff : Tops productions tokens b (.node A ts) ↔
    b.lhs = A ∧ b.isComplete = true ∧ ⟨b.lhs, b.rhs⟩ ∈ productions ∧
      Forest productions tokens b.rhs b.start b.stop ts := by
  constructor
  · intro h
    cases h with
    | node hij hp hforest => exact ⟨rfl, beq_self_eq_true _, hp, hforest⟩
  · rintro ⟨rfl, hcomplete, hp, hforest⟩
    have h := Tops.node b.start_le_stop hp hforest
    rwa [← Edge.eq_finished hcomplete] at h

/-- The tree of an edge that is no leaf has a node at its root. -/
theorem exists_eq_node (h : Tops productions tokens b t) (hleaf : b.isLeaf = false) :
    ∃ A ts, t = .node A ts := by
  cases h with
  | leaf =>
    rw [Edge.isLeaf_leaf] at hleaf
    cases hleaf
  | node => exact ⟨_, _, rfl⟩

theorem isComplete (h : Tops productions tokens b t) : b.isComplete = true := by
  cases h with
  | leaf => rfl
  | node => exact beq_self_eq_true _

/-- The tree of an edge is a derivation tree of its label over its span. -/
theorem forest (h : Tops productions tokens b t) :
    Forest productions tokens [b.lhs] b.start b.stop [t] := by
  cases h with
  | leaf hw => exact .leaf hw .nil
  | node _ hp hforest => exact .node hp hforest .nil

theorem stop_eq (h : Tops productions tokens b t) : b.start + t.leaves.length = b.stop := by
  have hstop := h.forest.stop_eq
  rwa [Tree.leavesOf, Tree.leavesOf, List.append_nil] at hstop

theorem step_eq (h : Tops productions tokens b (.node A ts)) :
    Tree.step A ts b.start = b.step := by
  obtain ⟨rfl, -, -, hforest⟩ := node_iff.1 h
  rw [Tree.step, Edge.step, hforest.map_root, hforest.stop_eq]

/-- The edge of a tree is settled by where the tree begins. -/
theorem unique (h : Tops productions tokens b t) (h' : Tops productions tokens b' t)
    (hstart : b.start = b'.start) : b = b' := by
  cases t with
  | leaf w =>
    rw [(leaf_iff.1 h).2, (leaf_iff.1 h').2, hstart]
  | node A ts =>
    refine Edge.eq_of_step_eq h.isComplete h'.isComplete ?_
    rw [← h.step_eq, ← h'.step_eq, hstart]

end Tops

/-! ### The edges of several trees -/

namespace Tiles

variable {K K' : Edge Symbol → Prop} {es es' : List (Edge Symbol)} {ts : List (Tree Symbol)}
  {i j j' : Nat} {above : List Step}

theorem forest (h : Tiles K es i j) (htops : List.Forall₂ (Tops productions tokens) es ts) :
    Forest productions tokens (es.map Edge.lhs) i j ts := by
  induction h generalizing ts with
  | nil =>
    cases htops
    exact .nil
  | cons hb _ _ ih =>
    cases htops with
    | cons htop hrest => exact htop.forest.append (ih hrest)

/-- Trees side by side are clear if each is. -/
theorem clear_iff (h : Tiles K es i j) :
    List.Forall₂ (fun b t => Tops productions tokens b t ∧ Tree.Clear above (t.paths b.start))
        es ts ↔
      List.Forall₂ (Tops productions tokens) es ts ∧ Tree.Clear above (Tree.pathsOf ts i) := by
  induction h generalizing ts with
  | nil =>
    rw [List.forall₂_nil_left_iff, List.forall₂_nil_left_iff]
    refine (and_iff_left_of_imp fun hts => ?_).symm
    rw [hts, Tree.pathsOf]
    exact fun _ hpath => absurd hpath List.not_mem_nil
  | @cons b es j _ _ _ ih =>
    cases ts with
    | nil => exact ⟨fun h => (by cases h), fun h => (by cases h.1)⟩
    | cons t ts =>
      rw [List.forall₂_cons, List.forall₂_cons, Tree.pathsOf, Tree.clear_append, ih,
        and_and_and_comm]
      refine and_congr_right fun htops => ?_
      rw [htops.1.stop_eq]

/-- The edges of trees are settled by where the first tree begins. -/
theorem unique (h : Tiles K es i j) (h' : Tiles K' es' i j')
    (htops : List.Forall₂ (Tops productions tokens) es ts)
    (htops' : List.Forall₂ (Tops productions tokens) es' ts) : es = es' := by
  induction h generalizing es' ts with
  | nil =>
    cases htops
    cases htops'
    rfl
  | @cons b es j hb _ hrest ih =>
    cases htops with
    | cons htop htops =>
      cases htops' with
      | @cons b' _ es' _ htop' htops' =>
        generalize hi : b.start = i at h'
        cases h' with
        | cons hb' _ hrest' =>
          obtain rfl := htop.unique htop' hi
          rw [ih hrest' htops htops']

end Tiles

/-- A derivation tree ends in a known edge over its span. -/
theorem Forest.exists_tops {X : Symbol} {i j : Nat} {t : Tree Symbol}
    (h : Forest productions tokens [X] i j [t]) (hj : j ≤ tokens.length) :
    ∃ e, Known productions tokens e ∧ e.lhs = X ∧ e.start = i ∧ e.stop = j ∧
      Tops productions tokens e t := by
  obtain ⟨es, hes, htiles, htops⟩ := h.exists_tiles hj
  cases htops with
  | cons htop hrest =>
    cases hrest
    cases htiles with
    | cons hknown _ hrest =>
      cases hrest
      exact ⟨_, hknown, List.singleton_inj.1 hes, rfl, rfl, htop⟩

namespace Chart

/-! ### The way down to an edge -/

/-- The steps `above` an edge are those of the complete edges on the path that leads to it. -/
def OnPath (c : Chart Symbol) (path : Finset EdgeId) (above : List Step) : Prop :=
  ∀ id e, c.edges[id]? = some e → e.isComplete = true →
    (id ∈ path ↔ e.isLeaf = false ∧ e.step ∈ above)

variable {c : Chart Symbol} {path : Finset EdgeId} {above : List Step} {id : EdgeId}
  {e : Edge Symbol} {t : Tree Symbol}

theorem onPath_empty (c : Chart Symbol) : c.OnPath ∅ [] :=
  fun _ _ _ _ => ⟨fun h => absurd h (Finset.notMem_empty _), fun h => absurd h.2 List.not_mem_nil⟩

/-- Going down from an edge puts its step above what comes next. -/
theorem OnPath.extend (hpath : c.OnPath path above) (hwf : c.WellFormed)
    (he : c.edges[id]? = some e) (hcomplete : e.isComplete = true) (hleaf : e.isLeaf = false) :
    c.OnPath (path ∪ {id}) (e.step :: above) := by
  intro id' e' he' hcomplete'
  rw [Finset.mem_union, Finset.mem_singleton, hpath id' e' he' hcomplete', List.mem_cons]
  constructor
  · rintro (⟨hleaf', habove⟩ | rfl)
    · exact ⟨hleaf', .inr habove⟩
    · obtain rfl : e' = e := Option.some.inj (he'.symm.trans he)
      exact ⟨hleaf, .inl rfl⟩
  · rintro ⟨hleaf', hstep | habove⟩
    · obtain rfl := Edge.eq_of_step_eq hcomplete' hcomplete hstep
      exact .inr (hwf.id_unique he' he)
    · exact .inl ⟨hleaf', habove⟩

/-- To choose trees for a list is to choose a tree for each edge that it names. -/
theorem mem_combinations_iff (hwf : c.WellFormed) {p : Pointers} (hp : p ∈ c.pointers id)
    {trees : EdgeId → List (Tree Symbol)} {R : Edge Symbol → Tree Symbol → Prop}
    (hR : ∀ child b, c.edges[child]? = some b → b ∈ c.named p → ∀ t, t ∈ trees child ↔ R b t)
    {ts : List (Tree Symbol)} :
    ts ∈ combinations (p.map trees) ↔ List.Forall₂ R (c.named p) ts := by
  rw [mem_combinations, List.forall₂_map_right_iff]
  have hnames := hwf.forall₂_named hp
  generalize c.named p = es at hnames hR
  clear hp
  induction hnames generalizing ts with
  | nil => rw [List.forall₂_nil_left_iff, List.forall₂_nil_right_iff]
  | @cons child b p es hchild _ ih =>
    cases ts with
    | nil => exact ⟨fun h => (by cases h), fun h => (by cases h)⟩
    | cons t ts =>
      rw [List.forall₂_cons, List.forall₂_cons, hR child b hchild List.mem_cons_self]
      refine and_congr_right fun _ => ih fun child b hb hmem => ?_
      exact hR child b hb (List.mem_cons_of_mem _ hmem)

/-! ### The trees of an edge -/

namespace Filled

theorem stop_le (h : c.Filled productions tokens bottomUpStrategy)
    (he : c.edges[id]? = some e) : e.stop ≤ tokens.length :=
  (known_iff.1 (h.mem_edges_iff.1 (List.mem_of_getElem? he))).stop_le

/-- The only tree of a leaf is its token. -/
theorem mem_treesAvoiding_leaf_iff (h : c.Filled productions tokens bottomUpStrategy)
    (he : c.edges[id]? = some e) (hleaf : e.isLeaf = true) (hid : id ∉ path) :
    t ∈ c.treesAvoiding true path id ↔
      Tops productions tokens e t ∧ Tree.Clear above (t.paths e.start) := by
  obtain ⟨i, w, hw, rfl⟩ := h.exists_eq_leaf (List.mem_of_getElem? he) hleaf
  have htokens : c.tokens[(Edge.leaf w i : Edge Symbol).start]? = some w := by
    rw [h.tokens_eq]
    exact hw
  rw [treesAvoiding, enumerate_of_leaf hid he hleaf, htokens, Option.map_some,
    Option.toList_some, List.mem_singleton]
  constructor
  · rintro rfl
    exact ⟨.leaf hw, Tree.clear_leaf w⟩
  · rintro ⟨htop, -⟩
    cases t with
    | leaf w' =>
      have hw' := (Tops.leaf_iff.1 htop).1
      rw [Option.some.inj (hw'.symm.trans hw)]
    | node A ts =>
      -- a node over nothing would not span a token
      obtain ⟨-, -, -, hforest⟩ := Tops.node_iff.1 htop
      have hts : ts = [] := List.map_eq_nil_iff.1 hforest.map_root
      have hspan : i + (Tree.leavesOf ts).length = i + 1 := hforest.stop_eq
      rw [hts, Tree.leavesOf, List.length_nil] at hspan
      omega

/-- The lists of a complete edge name the tilings of its production. -/
theorem mem_named_iff (h : c.Filled productions tokens bottomUpStrategy)
    (he : c.edges[id]? = some e) (hcomplete : e.isComplete = true) (hleaf : e.isLeaf = false)
    {es : List (Edge Symbol)} :
    es ∈ (c.pointers id).map c.named ↔ ⟨e.lhs, e.rhs⟩ ∈ productions ∧ es.map Edge.lhs = e.rhs ∧
      Tiles (Known productions tokens) es e.start e.stop := by
  rw [← h.wellFormed.justifies_iff_mem_named he, h.justifies_iff, justified_iff]
  constructor
  · exact fun hes => hes.of_isComplete hcomplete hleaf
  · rintro ⟨hp, hes, htiles⟩
    have hjustified := htiles.justified_finished hp hes (h.stop_le he)
    rw [← Edge.eq_finished hcomplete] at hjustified
    exact justified_iff.1 hjustified

theorem isComplete_of_opens (hopens : c.Opens true id e) : e.isComplete = true := by
  have hkept := hopens.kept
  rwa [Bool.true_and, Edge.isIncomplete, Bool.not_eq_false'] at hkept

theorem isComplete_of_mem_treesAvoiding (he : c.edges[id]? = some e)
    (ht : t ∈ c.treesAvoiding true path id) : e.isComplete = true := by
  cases hcomplete : e.isComplete with
  | true => rfl
  | false =>
    have hskip : (true && e.isIncomplete) = true := by
      rw [Bool.true_and, Edge.isIncomplete, hcomplete]
      rfl
    rw [treesAvoiding, enumerate_of_skip he hskip] at ht
    cases ht

/-- The trees of an edge that is opened, list by list. -/
theorem treesAvoiding_of_opens (hid : id ∉ path) (hopens : c.Opens true id e) :
    c.treesAvoiding true path id = (c.pointers id).flatMap fun p =>
      (combinations (p.map (c.treesAvoiding true (path ∪ {id})))).map (Tree.node e.lhs) := by
  have hunmatched : e.unmatched = [] := by
    rw [Edge.unmatched, eq_of_beq (isComplete_of_opens hopens), List.drop_length]
  rw [treesAvoiding, enumerate_of_opens hid hopens]
  refine List.flatMap_congr fun p _ => List.map_congr_left fun ts _ => ?_
  rw [hunmatched, List.map_nil, List.append_nil]

/-- What a list of an opened edge names. -/
theorem tiles_named (h : c.Filled productions tokens bottomUpStrategy)
    (hopens : c.Opens true id e) {p : Pointers} (hp : p ∈ c.pointers id) :
    ⟨e.lhs, e.rhs⟩ ∈ productions ∧ (c.named p).map Edge.lhs = e.rhs ∧
      Tiles (Known productions tokens) (c.named p) e.start e.stop :=
  (h.mem_named_iff hopens.edge (isComplete_of_opens hopens) hopens.isLeaf).1
    (List.mem_map_of_mem hp)

/-- The trees of a complete edge are the derivation trees that end in it and
apply nothing twice, not even what is above. -/
theorem mem_treesAvoiding_iff (h : c.Filled productions tokens bottomUpStrategy)
    (path : Finset EdgeId) (id : EdgeId) (above : List Step) (e : Edge Symbol)
    (t : Tree Symbol) (hpath : c.OnPath path above) (he : c.edges[id]? = some e)
    (hcomplete : e.isComplete = true) :
    t ∈ c.treesAvoiding true path id ↔
      Tops productions tokens e t ∧ Tree.Clear above (t.paths e.start) := by
  induction path, id using c.path_induction true generalizing above e t with
  | onPath path id hid =>
    rw [treesAvoiding, enumerate_of_mem hid]
    refine ⟨fun hmem => absurd hmem List.not_mem_nil, ?_⟩
    rintro ⟨htop, hclear⟩
    obtain ⟨hleaf, hstep⟩ := (hpath id e he hcomplete).1 hid
    obtain ⟨A, ts, rfl⟩ := htop.exists_eq_node hleaf
    rw [Tree.clear_node, htop.step_eq] at hclear
    exact absurd hstep hclear.1
  | missing path id hedge =>
    rw [hedge] at he
    cases he
  | skipped path id f hf hskip =>
    obtain rfl : e = f := Option.some.inj (he.symm.trans hf)
    rw [Edge.isIncomplete, hcomplete] at hskip
    cases hskip
  | leaf path id f hid hf hleaf =>
    obtain rfl : e = f := Option.some.inj (he.symm.trans hf)
    exact h.mem_treesAvoiding_leaf_iff he hleaf hid
  | opened path id f hid hopens ih =>
    obtain rfl : e = f := Option.some.inj (he.symm.trans hopens.edge)
    have hbelow := hpath.extend h.wellFormed he hcomplete hopens.isLeaf
    have hlist : ∀ p ∈ c.pointers id, ∀ ts,
        ts ∈ combinations (p.map (c.treesAvoiding true (path ∪ {id}))) ↔
          List.Forall₂ (Tops productions tokens) (c.named p) ts ∧
            Tree.Clear (e.step :: above) (Tree.pathsOf ts e.start) := by
      intro p hp ts
      obtain ⟨-, -, htiles⟩ := h.tiles_named hopens hp
      rw [← htiles.clear_iff]
      refine mem_combinations_iff h.wellFormed hp fun child b hb hbmem t => ?_
      exact ih child (e.step :: above) b t hbelow hb (htiles.isComplete b hbmem)
    rw [treesAvoiding_of_opens hid hopens, List.mem_flatMap]
    constructor
    · rintro ⟨p, hp, ht⟩
      obtain ⟨ts, hts, rfl⟩ := List.mem_map.1 ht
      obtain ⟨htops, hclear⟩ := (hlist p hp ts).1 hts
      obtain ⟨hproduction, hes, htiles⟩ := h.tiles_named hopens hp
      have hforest := htiles.forest htops
      rw [hes] at hforest
      have htop := Tops.node_iff.2 ⟨rfl, hcomplete, hproduction, hforest⟩
      rw [Tree.clear_node, htop.step_eq]
      refine ⟨htop, ?_, hclear⟩
      exact fun hstep => hid ((hpath id e he hcomplete).2 ⟨hopens.isLeaf, hstep⟩)
    · rintro ⟨htop, hclear⟩
      obtain ⟨A, ts, rfl⟩ := htop.exists_eq_node hopens.isLeaf
      obtain ⟨rfl, -, hproduction, hforest⟩ := Tops.node_iff.1 htop
      rw [Tree.clear_node, htop.step_eq] at hclear
      -- the trees below end in edges that some list names
      obtain ⟨es, hes, htiles, htops⟩ := hforest.exists_tiles (h.stop_le he)
      have hmem := (h.mem_named_iff he hcomplete hopens.isLeaf).2 ⟨hproduction, hes, htiles⟩
      obtain ⟨p, hp, rfl⟩ := List.mem_map.1 hmem
      exact ⟨p, hp, List.mem_map_of_mem ((hlist p hp ts).2 ⟨htops, hclear.2⟩)⟩

theorem tops_of_mem (h : c.Filled productions tokens bottomUpStrategy)
    (he : c.edges[id]? = some e) (ht : t ∈ c.treesAvoiding true path id) :
    Tops productions tokens e t := by
  have hmem : t ∈ c.treesAvoiding true ∅ id := treesAvoiding_subset path id ht
  have hcomplete := isComplete_of_mem_treesAvoiding he hmem
  exact ((h.mem_treesAvoiding_iff ∅ id [] e t c.onPath_empty he hcomplete).1 hmem).1

/-- Trees chosen for a list of an edge end in the edges that it names, which tile the span. -/
theorem tiles_of_mem_combinations (h : c.Filled productions tokens bottomUpStrategy)
    (hopens : c.Opens true id e) {p : Pointers} (hp : p ∈ c.pointers id)
    {ts : List (Tree Symbol)}
    (hts : ts ∈ combinations (p.map (c.treesAvoiding true path))) :
    Tiles (Known productions tokens) (c.named p) e.start e.stop ∧
      List.Forall₂ (Tops productions tokens) (c.named p) ts := by
  refine ⟨(h.tiles_named hopens hp).2.2, ?_⟩
  have hchosen : List.Forall₂ (fun b t => ∃ child, c.edges[child]? = some b ∧
      t ∈ c.treesAvoiding true path child) (c.named p) ts := by
    refine (mem_combinations_iff h.wellFormed hp fun child b hb _ t => ?_).1 hts
    constructor
    · exact fun ht => ⟨child, hb, ht⟩
    · rintro ⟨child', hb', ht⟩
      rwa [h.wellFormed.id_unique hb hb']
  refine hchosen.imp fun b t hbt => ?_
  obtain ⟨child, hb, ht⟩ := hbt
  exact h.tops_of_mem hb ht

/-- No tree of an edge is listed twice. -/
theorem nodup_treesAvoiding (h : c.Filled productions tokens bottomUpStrategy)
    (path : Finset EdgeId) (id : EdgeId) : (c.treesAvoiding true path id).Nodup := by
  induction path, id using c.path_induction true with
  | onPath path id hid =>
    rw [treesAvoiding, enumerate_of_mem hid]
    exact List.nodup_nil
  | missing path id hedge =>
    rw [treesAvoiding, enumerate_of_none hedge]
    exact List.nodup_nil
  | skipped path id e hedge hskip =>
    rw [treesAvoiding, enumerate_of_skip hedge hskip]
    exact List.nodup_nil
  | leaf path id e hid hedge hleaf =>
    rw [treesAvoiding, enumerate_of_leaf hid hedge hleaf]
    cases c.tokens[e.start]? with
    | none => exact List.nodup_nil
    | some token => exact List.nodup_singleton _
  | opened path id e hid hopens ih =>
    rw [treesAvoiding_of_opens hid hopens, List.nodup_flatMap]
    constructor
    · intro p _
      refine (nodup_combinations fun trees htrees => ?_).map fun _ _ heq => (Tree.node.inj heq).2
      obtain ⟨child, -, rfl⟩ := List.mem_map.1 htrees
      exact ih child
    · -- a tree that two lists have in common ends in the same edges by both
      refine (c.nodup_pointers id).imp_of_mem fun {p q} hp hq hne t ht ht' => hne ?_
      obtain ⟨ts, hts, rfl⟩ := List.mem_map.1 ht
      obtain ⟨ts', hts', heq⟩ := List.mem_map.1 ht'
      obtain rfl := (Tree.node.inj heq).2
      obtain ⟨htiles, htops⟩ := h.tiles_of_mem_combinations hopens hp hts
      obtain ⟨htiles', htops'⟩ := h.tiles_of_mem_combinations hopens hq hts'
      exact h.wellFormed.eq_of_named_eq hp hq (htiles.unique htiles' htops htops')

/-! ### The trees of the roots -/

/-- The acyclic derivation trees of the start symbol are read from the roots. -/
theorem mem_flatMap_roots_iff (h : c.Filled productions tokens bottomUpStrategy)
    (start : Symbol) :
    t ∈ (c.roots start).flatMap (c.treesAvoiding true ∅) ↔
      Forest productions tokens [start] 0 tokens.length [t] ∧ t.Acyclic 0 := by
  rw [List.mem_flatMap, Tree.acyclic_iff]
  constructor
  · rintro ⟨id, hid, ht⟩
    obtain ⟨e, he, hstart, hstop, hroot⟩ := mem_roots.1 hid
    have hcomplete := isComplete_of_mem_treesAvoiding he ht
    have hmem := (h.mem_treesAvoiding_iff ∅ id [] e t c.onPath_empty he hcomplete).1 ht
    obtain rfl : start = e.lhs := eq_of_beq hroot
    rw [hstart] at hmem
    have hforest := hmem.1.forest
    rw [hstart, hstop, h.tokens_eq] at hforest
    exact ⟨hforest, hmem.2⟩
  · rintro ⟨hforest, hclear⟩
    obtain ⟨e, hknown, hroot, hstart, hstop, htop⟩ := hforest.exists_tops (Nat.le_refl _)
    obtain ⟨id, he⟩ := List.mem_iff_getElem?.1 (h.mem_edges_iff.2 hknown)
    refine ⟨id, mem_roots.2 ⟨e, he, hstart, ?_, beq_iff_eq.2 hroot.symm⟩, ?_⟩
    · rw [hstop, h.tokens_eq]
    · rw [← hstart] at hclear
      exact (h.mem_treesAvoiding_iff ∅ id [] e t c.onPath_empty he htop.isComplete).2
        ⟨htop, hclear⟩

theorem nodup_flatMap_roots (h : c.Filled productions tokens bottomUpStrategy)
    (start : Symbol) : ((c.roots start).flatMap (c.treesAvoiding true ∅)).Nodup := by
  rw [List.nodup_flatMap]
  refine ⟨fun id _ => h.nodup_treesAvoiding ∅ id, ?_⟩
  refine (c.nodup_roots start).imp_of_mem fun {id id'} hid hid' hne t ht ht' => hne ?_
  obtain ⟨e, he, hstart, -⟩ := mem_roots.1 hid
  obtain ⟨e', he', hstart', -⟩ := mem_roots.1 hid'
  have htop := h.tops_of_mem he ht
  have htop' := h.tops_of_mem he' ht'
  obtain rfl := htop.unique htop' (hstart.trans hstart'.symm)
  exact h.wellFormed.id_unique he he'

end Filled

end Chart

/-! ### Parses -/

/-- Parsing covered tokens returns the acyclic derivation trees of the start
symbol over all tokens, each of them once. -/
theorem parse_eq_acyclic_trees (start : Symbol) (productions : List (Production Symbol))
    (tokens : List String) (mode : LoopMode) (width : Nat)
    (hcovered : (Grammar.ofList start productions).checkCoverage tokens = .ok ()) :
    ∃ trees, Parser.parse ⟨.ofList start productions, ⟨bottomUpStrategy, mode, width⟩⟩ tokens =
        .ok trees ∧
      trees.Nodup ∧
      ∀ t, t ∈ trees ↔ Forest productions tokens [start] 0 tokens.length [t] ∧ t.Acyclic 0 := by
  obtain ⟨o, -, hfilled, hparse⟩ :=
    Parser.parse_spec (p := ⟨.ofList start productions, ⟨bottomUpStrategy, mode, width⟩⟩)
      (Grammar.indexed_ofList start productions) hcovered
  rw [Grammar.productions_ofList] at hfilled
  exact ⟨_, hparse, hfilled.nodup_flatMap_roots start, fun _ => hfilled.mem_flatMap_roots_iff start⟩

theorem parse_eq_acyclic_trees_doubling :
    (Grammar.ofList (.nonterminal "S") doubling).checkCoverage ["a", "a"] = .ok () ∧
      ∃ trees, Parser.parse ⟨.ofList (.nonterminal "S") doubling,
          ⟨bottomUpStrategy, .agenda, 50⟩⟩ ["a", "a"] = .ok trees ∧
        trees.Nodup ∧
        ∀ t, t ∈ trees ↔
          Forest doubling ["a", "a"] [.nonterminal "S"] 0 2 [t] ∧ t.Acyclic 0 :=
  ⟨rfl, parse_eq_acyclic_trees (.nonterminal "S") doubling ["a", "a"] .agenda 50 rfl⟩

end ChartParsing
