/-
ChartParsing/Proofs/Tree/Avoiding.lean

The trees of an edge, without marks and without memory.

`Chart.enumerate` goes down the child pointer lists and never comes back to an
edge of the path that it has come along; what it makes of leaves and nodes is
left open.  Made into trees this is what reading a chart means
(`Chart.treesAvoiding`).  Made into readings, trees with their edges, it has
the property on which keeping results rests: to avoid more edges is to drop
the readings that those edges occur in (`Chart.readings_union`).
-/
import ChartParsing.Proofs.Chart.Store
import ChartParsing.Proofs.Tree.Combinations
import ChartParsing.Tree.Reading
import Mathlib.Data.Finset.Card

namespace ChartParsing

variable {L : Type} [Label L] {α β : Type}

namespace Chart

theorem card_sdiff_union_lt {n : Nat} {path : Finset EdgeId} {id : EdgeId} (hid : id < n)
    (hpath : id ∉ path) :
    (Finset.range n \ (path ∪ {id})).card < (Finset.range n \ path).card := by
  refine Finset.card_lt_card ((Finset.ssubset_iff_of_subset ?_).2 ⟨id, ?_, ?_⟩)
  · exact Finset.sdiff_subset_sdiff (Finset.Subset.refl _) Finset.subset_union_left
  · exact Finset.mem_sdiff.2 ⟨Finset.mem_range.2 hid, hpath⟩
  · exact fun h =>
      (Finset.mem_sdiff.1 h).2 (Finset.mem_union_right _ (Finset.mem_singleton_self _))

/-- What `leaf` and `node` make of the ways down from an edge, off the path
that leads to it.  With `complete` set, incomplete edges are left out. -/
def enumerate (c : Chart L) (complete : Bool) (leaf : EdgeId → String → α)
    (node : EdgeId → Edge L → List α → α) (path : Finset EdgeId) (id : EdgeId) : List α :=
  if _hpath : id ∈ path then []
  else
    match _hedge : c.edges[id]? with
    | none => []
    | some e =>
      if complete && e.isIncomplete then []
      else if e.isLeaf then (c.tokens[e.start]?.map (leaf id)).toList
      else
        (c.pointers id).flatMap fun cpl =>
          (combinations (cpl.map fun child =>
            c.enumerate complete leaf node (path ∪ {id}) child)).map (node id e)
termination_by (Finset.range c.size \ path).card
decreasing_by exact card_sdiff_union_lt (lt_size _hedge) _hpath

/-- The trees of an edge that avoid the edges of `path`. -/
def treesAvoiding (c : Chart L) (complete : Bool) (path : Finset EdgeId) (id : EdgeId) :
    List (Tree L) :=
  c.enumerate complete (fun _ token => .leaf token)
    (fun _ e ts => .node e.lhs (ts ++ e.unmatched.map fun l => .node l [])) path id

/-- Going down from the edge leads to its lists: it is no leaf, and not left out. -/
structure Opens (c : Chart L) (complete : Bool) (id : EdgeId) (e : Edge L) : Prop where
  edge : c.edges[id]? = some e
  isLeaf : e.isLeaf = false
  kept : (complete && e.isIncomplete) = false

/-! ### Going down one edge -/

section Equations

variable {c : Chart L} {complete : Bool} {leaf : EdgeId → String → α}
  {node : EdgeId → Edge L → List α → α} {path : Finset EdgeId} {id : EdgeId} {e : Edge L}

theorem enumerate_of_mem (h : id ∈ path) : c.enumerate complete leaf node path id = [] := by
  rw [enumerate, dif_pos h]

theorem enumerate_of_none (h : c.edges[id]? = none) :
    c.enumerate complete leaf node path id = [] := by
  rw [enumerate]
  split
  · rfl
  · split
    · rfl
    · rename_i e' h'
      rw [h] at h'
      cases h'

theorem enumerate_of_some (hpath : id ∉ path) (h : c.edges[id]? = some e) :
    c.enumerate complete leaf node path id =
      if complete && e.isIncomplete then []
      else if e.isLeaf then (c.tokens[e.start]?.map (leaf id)).toList
      else
        (c.pointers id).flatMap fun cpl =>
          (combinations (cpl.map fun child =>
            c.enumerate complete leaf node (path ∪ {id}) child)).map (node id e) := by
  rw [enumerate, dif_neg hpath]
  split
  · rename_i h'
    rw [h] at h'
    cases h'
  · rename_i e' h'
    obtain rfl : e = e' := Option.some.inj (h.symm.trans h')
    rfl

theorem enumerate_of_opens (hpath : id ∉ path) (h : c.Opens complete id e) :
    c.enumerate complete leaf node path id =
      (c.pointers id).flatMap fun cpl =>
        (combinations (cpl.map fun child =>
          c.enumerate complete leaf node (path ∪ {id}) child)).map (node id e) := by
  rw [enumerate_of_some hpath h.edge, h.kept, h.isLeaf]
  rfl

theorem enumerate_of_skip (h : c.edges[id]? = some e)
    (hskip : (complete && e.isIncomplete) = true) :
    c.enumerate complete leaf node path id = [] := by
  by_cases hpath : id ∈ path
  · rw [enumerate_of_mem hpath]
  · rw [enumerate_of_some hpath h, if_pos hskip]

omit [Label L] in
theorem isIncomplete_of_isLeaf (h : e.isLeaf = true) : e.isIncomplete = false := by
  rw [Edge.isLeaf, Bool.and_eq_true, List.isEmpty_iff] at h
  have hdot := e.dot_le_length
  rw [h.1, List.length_nil] at hdot
  rw [Edge.isIncomplete, Edge.isComplete, h.1, Nat.le_zero.1 hdot]
  rfl

theorem enumerate_of_leaf (hpath : id ∉ path) (h : c.edges[id]? = some e)
    (hleaf : e.isLeaf = true) :
    c.enumerate complete leaf node path id = (c.tokens[e.start]?.map (leaf id)).toList := by
  rw [enumerate_of_some hpath h, isIncomplete_of_isLeaf hleaf, Bool.and_false, hleaf]
  rfl

/-- An edge is opened, is a leaf, or is left out. -/
theorem opens_or (complete : Bool) (h : c.edges[id]? = some e) :
    c.Opens complete id e ∨ e.isLeaf = true ∨ (complete && e.isIncomplete) = true := by
  cases hkept : complete && e.isIncomplete with
  | true => exact .inr (.inr rfl)
  | false =>
    cases hleaf : e.isLeaf with
    | true => exact .inr (.inl rfl)
    | false => exact .inl ⟨h, hleaf, hkept⟩

end Equations

/-- Induction on the way down from an edge: by what there is at its end, and
for an edge that is opened by all ways down from its children. -/
theorem path_induction (c : Chart L) (complete : Bool) {motive : Finset EdgeId → EdgeId → Prop}
    (onPath : ∀ path id, id ∈ path → motive path id)
    (missing : ∀ path id, c.edges[id]? = none → motive path id)
    (skipped : ∀ path id e, c.edges[id]? = some e → (complete && e.isIncomplete) = true →
      motive path id)
    (leaf : ∀ path id e, id ∉ path → c.edges[id]? = some e → e.isLeaf = true → motive path id)
    (opened : ∀ path id e, id ∉ path → c.Opens complete id e →
      (∀ child, motive (path ∪ {id}) child) → motive path id)
    (path : Finset EdgeId) (id : EdgeId) : motive path id := by
  -- each step puts an edge on the path, and there are only so many
  induction hn : (Finset.range c.size \ path).card using Nat.strong_induction_on
    generalizing path id with
  | _ n ih =>
    by_cases hpath : id ∈ path
    · exact onPath path id hpath
    cases hedge : c.edges[id]? with
    | none => exact missing path id hedge
    | some e =>
      rcases opens_or complete hedge with hopens | hleaf | hskip
      · refine opened path id e hpath hopens fun child => ?_
        exact ih _ (hn ▸ card_sdiff_union_lt (lt_size hedge) hpath) (path ∪ {id}) child rfl
      · exact leaf path id e hpath hedge hleaf
      · exact skipped path id e hedge hskip

/-- Making one thing and then another is making the other at once. -/
theorem map_enumerate (c : Chart L) (complete : Bool) {leaf : EdgeId → String → α}
    {node : EdgeId → Edge L → List α → α} {leaf' : EdgeId → String → β}
    {node' : EdgeId → Edge L → List β → β} (f : α → β)
    (hleaf : ∀ id token, f (leaf id token) = leaf' id token)
    (hnode : ∀ id e as, f (node id e as) = node' id e (as.map f)) (path : Finset EdgeId)
    (id : EdgeId) :
    (c.enumerate complete leaf node path id).map f = c.enumerate complete leaf' node' path id := by
  induction path, id using c.path_induction complete with
  | onPath path id hpath =>
    rw [enumerate_of_mem hpath, enumerate_of_mem hpath]
    rfl
  | missing path id hedge =>
    rw [enumerate_of_none hedge, enumerate_of_none hedge]
    rfl
  | skipped path id e hedge hskip =>
    rw [enumerate_of_skip hedge hskip, enumerate_of_skip hedge hskip]
    rfl
  | leaf path id e hpath hedge hisLeaf =>
    rw [enumerate_of_leaf hpath hedge hisLeaf, enumerate_of_leaf hpath hedge hisLeaf]
    cases c.tokens[e.start]? with
    | none => rfl
    | some token => exact congrArg ([·]) (hleaf id token)
  | opened path id e hpath hopens ih =>
    rw [enumerate_of_opens hpath hopens, enumerate_of_opens hpath hopens, List.map_flatMap]
    refine List.flatMap_congr fun cpl _ => ?_
    have hchildren : cpl.map (fun child =>
          c.enumerate complete leaf' node' (path ∪ {id}) child) =
        (cpl.map fun child =>
          c.enumerate complete leaf node (path ∪ {id}) child).map fun as => as.map f := by
      rw [List.map_map]
      exact List.map_congr_left fun child _ => (ih child).symm
    rw [hchildren, combinations_map, List.map_map, List.map_map]
    exact List.map_congr_left fun as _ => hnode id e as

end Chart

/-! ### Readings -/

namespace Reading

omit [Label L] in
/-- The reading of an edge over readings of its children. -/
def above (id : EdgeId) (e : Edge L) (children : List (Reading L)) : Reading L where
  tree := .node e.lhs (children.map Reading.tree ++ e.unmatched.map fun l => .node l [])
  edges := id :: children.flatMap Reading.edges

/-- Whether none of the edges occurs in the reading. -/
def avoids (path : Finset EdgeId) (r : Reading L) : Bool := r.edges.all fun id => id ∉ path

omit [Label L] in
theorem avoids_eq_true_iff {path : Finset EdgeId} {r : Reading L} :
    r.avoids path = true ↔ ∀ id ∈ r.edges, id ∉ path := by
  simp only [avoids, List.all_eq_true, decide_eq_true_eq]

omit [Label L] in
theorem all_avoids_union (path more : Finset EdgeId) (rs : List (Reading L)) :
    rs.all (avoids (path ∪ more)) = (rs.all (avoids path) && rs.all (avoids more)) := by
  rw [Bool.eq_iff_iff, Bool.and_eq_true]
  simp only [List.all_eq_true, avoids_eq_true_iff, Finset.mem_union, not_or]
  constructor
  · exact fun h => ⟨fun r hr id hid => (h r hr id hid).1, fun r hr id hid => (h r hr id hid).2⟩
  · exact fun h r hr id hid => ⟨h.1 r hr id hid, h.2 r hr id hid⟩

omit [Label L] in
theorem avoids_above {path : Finset EdgeId} {id : EdgeId} (hid : id ∉ path) (e : Edge L)
    (children : List (Reading L)) :
    (above id e children).avoids path = children.all (avoids path) := by
  rw [avoids, above, List.all_cons, decide_eq_true hid, Bool.true_and, List.all_flatMap]
  rfl

end Reading

namespace Chart

/-- The readings of an edge that avoid the edges of `path`. -/
def readings (c : Chart L) (complete : Bool) (path : Finset EdgeId) (id : EdgeId) :
    List (Reading L) :=
  c.enumerate complete (fun id token => ⟨.leaf token, [id]⟩) Reading.above path id

variable {c : Chart L} {complete : Bool}

theorem map_tree_readings (path : Finset EdgeId) (id : EdgeId) :
    (c.readings complete path id).map Reading.tree = c.treesAvoiding complete path id :=
  c.map_enumerate complete Reading.tree (fun _ _ => rfl) (fun _ _ _ => rfl) path id

/-- An edge occurs in its readings. -/
theorem mem_edges_of_mem_readings {path : Finset EdgeId} {id : EdgeId} {r : Reading L}
    (hr : r ∈ c.readings complete path id) : id ∈ r.edges := by
  induction path, id using c.path_induction complete with
  | onPath path id hpath =>
    rw [readings, enumerate_of_mem hpath] at hr
    cases hr
  | missing path id hedge =>
    rw [readings, enumerate_of_none hedge] at hr
    cases hr
  | skipped path id e hedge hskip =>
    rw [readings, enumerate_of_skip hedge hskip] at hr
    cases hr
  | leaf path id e hpath hedge hleaf =>
    rw [readings, enumerate_of_leaf hpath hedge hleaf, Option.mem_toList] at hr
    obtain ⟨token, -, rfl⟩ := Option.map_eq_some_iff.1 hr
    exact List.mem_cons_self
  | opened path id e hpath hopens =>
    rw [readings, enumerate_of_opens hpath hopens] at hr
    obtain ⟨cpl, -, hr⟩ := List.mem_flatMap.1 hr
    obtain ⟨children, -, rfl⟩ := List.mem_map.1 hr
    exact List.mem_cons_self

/-- No reading of an edge avoids the edge. -/
theorem filter_avoids_of_mem {path more : Finset EdgeId} {id : EdgeId} (h : id ∈ more) :
    (c.readings complete path id).filter (Reading.avoids more) = [] := by
  rw [List.filter_eq_nil_iff]
  intro r hr havoids
  exact Reading.avoids_eq_true_iff.1 havoids id (mem_edges_of_mem_readings hr) h

/-- To avoid more edges is to drop the readings that they occur in. -/
theorem readings_union (path more : Finset EdgeId) (id : EdgeId) :
    c.readings complete (path ∪ more) id =
      (c.readings complete path id).filter (Reading.avoids more) := by
  induction path, id using c.path_induction complete with
  | onPath path id hpath =>
    rw [readings, readings, enumerate_of_mem hpath,
      enumerate_of_mem (Finset.mem_union_left _ hpath)]
    rfl
  | missing path id hedge =>
    rw [readings, readings, enumerate_of_none hedge, enumerate_of_none hedge]
    rfl
  | skipped path id e hedge hskip =>
    rw [readings, readings, enumerate_of_skip hedge hskip, enumerate_of_skip hedge hskip]
    rfl
  | leaf path id e hpath hedge hleaf =>
    by_cases hmore : id ∈ more
    · rw [filter_avoids_of_mem hmore, readings,
        enumerate_of_mem (Finset.mem_union_right _ hmore)]
    have hboth : id ∉ path ∪ more := fun h => (Finset.mem_union.1 h).elim hpath hmore
    rw [readings, readings, enumerate_of_leaf hboth hedge hleaf,
      enumerate_of_leaf hpath hedge hleaf]
    cases c.tokens[e.start]? with
    | none => rfl
    | some token => simp [Reading.avoids, hmore]
  | opened path id e hpath hopens ih =>
    by_cases hmore : id ∈ more
    · rw [filter_avoids_of_mem hmore, readings,
        enumerate_of_mem (Finset.mem_union_right _ hmore)]
    have hboth : id ∉ path ∪ more := fun h => (Finset.mem_union.1 h).elim hpath hmore
    rw [readings, readings, enumerate_of_opens hboth hopens, enumerate_of_opens hpath hopens,
      List.filter_flatMap]
    refine List.flatMap_congr fun cpl _ => ?_
    have hchildren : cpl.map (fun child => c.readings complete (path ∪ more ∪ {id}) child) =
        (cpl.map fun child => c.readings complete (path ∪ {id}) child).map fun rs =>
          rs.filter (Reading.avoids more) := by
      rw [List.map_map]
      refine List.map_congr_left fun child _ => ?_
      -- the edge joins the path, whatever else is avoided
      rw [Finset.union_right_comm]
      exact ih child
    have hnode : Reading.avoids more ∘ Reading.above id e =
        fun children => children.all (Reading.avoids more) :=
      funext fun children => Reading.avoids_above hmore e children
    rw [List.filter_map, hnode, ← combinations_filter]
    exact congrArg (fun choices => (combinations choices).map (Reading.above id e)) hchildren

/-- What avoids a path avoids nothing as well. -/
theorem treesAvoiding_subset (path : Finset EdgeId) (id : EdgeId) :
    c.treesAvoiding complete path id ⊆ c.treesAvoiding complete ∅ id := by
  have hfilter : c.readings complete (∅ ∪ path) id = _ := readings_union ∅ path id
  rw [Finset.empty_union] at hfilter
  rw [← map_tree_readings, ← map_tree_readings, hfilter]
  exact List.map_subset _ (List.filter_subset_self _)

end Chart

end ChartParsing
