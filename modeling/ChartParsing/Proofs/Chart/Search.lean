/-
ChartParsing/Proofs/Chart/Search.lean

What searches deliver.

The answer to a list of constraints is said without indexes by `Chart.scan`:
look at every edge, and keep the ids of those that meet all constraints.  A
cursor opened by `Chart.select` walks over just these, also after the chart
has grown, since an index once built takes every later edge in
(`reached_sourceOf`).  Opening a cursor adds no edge and no list
(`grows_ensureIndex`).
-/
import ChartParsing.Proofs.Chart.Store
import Mathlib.Data.List.Find

namespace ChartParsing

/-! ### Arranged constraints -/

theorem Attribute.mem_all (a : Attribute) : a ∈ all := by
  cases a <;> decide

namespace Constraint

@[simp] theorem mem_arranged {cs : List Constraint} {k : Constraint} :
    k ∈ arranged cs ↔ k ∈ cs := by
  simp only [arranged, List.mem_flatMap, List.mem_filter, decide_eq_true_eq]
  constructor
  · rintro ⟨a, -, hk, -⟩
    exact hk
  · intro hk
    exact ⟨k.attr, k.attr.mem_all, hk, rfl⟩

variable {L : Type} [Label L]

theorem arrange_eq_ok {cs : List Constraint} (h : repeated? cs = none) :
    arrange cs = .ok (arranged cs) := by
  rw [arrange, h]

theorem length_filter_attr_le_one {cs : List Constraint} (h : repeated? cs = none)
    (a : Attribute) : (cs.filter fun k => k.attr = a).length ≤ 1 := by
  have hnot := List.find?_eq_none.1 h a a.mem_all
  rw [← List.countP_eq_length_filter]
  simpa using hnot

/-- The order in which constraints are given makes no difference. -/
theorem arrange_perm {cs cs' : List Constraint} (h : cs.Perm cs') : arrange cs = arrange cs' := by
  have hrepeated : repeated? cs = repeated? cs' :=
    List.find?_congr fun a _ => by rw [h.countP_eq]
  rw [arrange, arrange, ← hrepeated]
  cases hnone : repeated? cs with
  | some a => rfl
  | none =>
    -- at most one constraint is about each attribute
    refine congrArg Except.ok (List.flatMap_congr fun a _ => ?_)
    have hperm := h.filter fun k => k.attr = a
    have hle := length_filter_attr_le_one hnone a
    generalize cs.filter (fun k => k.attr = a) = ks at hperm hle
    cases ks with
    | nil => exact hperm.symm.eq_nil.symm
    | cons k rest =>
      have hrest : rest = [] := List.eq_nil_of_length_eq_zero (by simpa using hle)
      rw [hrest] at hperm ⊢
      exact (List.perm_singleton.1 hperm.symm).symm

/-- Having the values asked for is meeting every constraint. -/
theorem map_valueOf_eq_values_iff (cs : List Constraint) (e : Edge L) :
    (attributes cs).map e.valueOf = values cs ↔ ∀ k ∈ cs, k.holds e = true := by
  induction cs with
  | nil => simp [attributes, values]
  | cons k cs ih =>
    simp only [attributes, values, List.map_cons, List.cons.injEq, List.forall_mem_cons] at ih ⊢
    rw [ih, holds, beq_iff_eq]

end Constraint

namespace Chart

variable {L : Type} [Label L]

/-! ### Scanning -/

theorem mem_scan {c : Chart L} {cs : List Constraint} {id : EdgeId} :
    id ∈ c.scan cs ↔ ∃ e, c.edges[id]? = some e ∧ ∀ k ∈ cs, k.holds e = true := by
  simp only [scan, List.mem_filterMap, Prod.exists, List.mem_zipIdx_iff_getElem?]
  constructor
  · rintro ⟨e, i, hi, hsome⟩
    split at hsome
    · rename_i hall
      obtain rfl := Option.some.inj hsome
      exact ⟨e, hi, List.all_eq_true.1 hall⟩
    · cases hsome
  · rintro ⟨e, he, hall⟩
    exact ⟨e, id, he, by rw [if_pos (List.all_eq_true.2 hall)]⟩

theorem scan_eq_map_filter (c : Chart L) (cs : List Constraint) :
    c.scan cs = (c.edges.zipIdx.filter fun p => cs.all fun k => k.holds p.1).map Prod.snd := by
  rw [scan]
  induction c.edges.zipIdx with
  | nil => rfl
  | cons p rest ih =>
    rw [List.filterMap_cons, List.filter_cons]
    by_cases h : (cs.all fun k => k.holds p.1) = true
    · rw [if_pos h, if_pos h, ih, List.map_cons]
    · rw [if_neg h, if_neg h, ih]

/-- A scan answers with increasing ids. -/
theorem pairwise_scan (c : Chart L) (cs : List Constraint) : (c.scan cs).Pairwise (· < ·) := by
  rw [scan_eq_map_filter]
  -- a scan picks from the ids, and these are counted up
  refine List.Pairwise.sublist (List.filter_sublist.map Prod.snd) ?_
  rw [List.zipIdx_map_snd]
  exact List.pairwise_lt_range' 1

theorem nodup_scan (c : Chart L) (cs : List Constraint) : (c.scan cs).Nodup :=
  (c.pairwise_scan cs).imp Nat.ne_of_lt

/-- A scan answers with as many ids as there are edges that meet the constraints. -/
theorem length_scan (c : Chart L) (cs : List Constraint) :
    (c.scan cs).length = (c.edges.filter fun e => cs.all fun k => k.holds e).length := by
  have hfst : c.edges = c.edges.zipIdx.map Prod.fst := (List.zipIdx_map_fst 0 c.edges).symm
  rw [scan_eq_map_filter, List.length_map, hfst, List.filter_map, List.length_map, ← hfst]
  rfl

/-- A chart that has grown answers with what it answered, and then with later edges. -/
theorem Grows.scan_prefix {c c' : Chart L} {changed : List EdgeId} (h : Grows c c' changed)
    (cs : List Constraint) : c.scan cs <+: c'.scan cs := by
  obtain ⟨rest, hrest⟩ := h.edges
  rw [scan, scan, ← hrest, List.zipIdx_append, List.filterMap_append]
  exact List.prefix_append _ _

/-- A chart that has grown nowhere answers as it did. -/
theorem Grows.scan_eq_of_nil {c c' : Chart L} (h : Grows c c' []) (cs : List Constraint) :
    c'.scan cs = c.scan cs := by
  have hedges : c'.edges = c.edges :=
    List.ext_getElem? fun id => h.getElem?_eq List.not_mem_nil
  rw [scan, scan, hedges]

/-! ### Cursors -/

/-- Where a cursor on these constraints takes its edges from. -/
def sourceOf (cs : List Constraint) : Source :=
  if cs.isEmpty then .all
  else .bucket (Constraint.attributes (Constraint.arranged cs))
    (Constraint.values (Constraint.arranged cs))

theorem places_eq_scan (c : Chart L) (cs : List Constraint) :
    Index.places (Constraint.attributes (Constraint.arranged cs))
      (Constraint.values (Constraint.arranged cs)) c.edges = c.scan cs := by
  rw [Index.places, scan]
  refine List.filterMap_congr fun p _ => ?_
  have hiff := Constraint.map_valueOf_eq_values_iff (Constraint.arranged cs) p.1
  simp only [Constraint.mem_arranged, ← List.all_eq_true] at hiff
  by_cases h : (cs.all fun k => k.holds p.1) = true
  · rw [if_pos (hiff.2 h), if_pos h]
  · rw [if_neg fun heq => h (hiff.1 heq), if_neg h]

/-- An index on the attributes of the constraints files the edges that meet them. -/
theorem get_of_index? {c : Chart L} {cs : List Constraint} {index : Index}
    (h : c.index? (Constraint.attributes (Constraint.arranged cs)) = some index) :
    index.get (Constraint.values (Constraint.arranged cs)) = c.scan cs := by
  -- an index is found by its attributes, and files the edges by them
  have hattributes := List.find?_some h
  rw [decide_eq_true_eq] at hattributes
  rw [c.indexes_file index (List.mem_of_find?_eq_some h), hattributes]
  exact c.places_eq_scan cs

theorem scan_nil (c : Chart L) : c.scan [] = List.range c.size := by
  rw [scan, size_eq_length_edges]
  simp only [List.all_nil, if_true, List.filterMap_eq_map']
  rw [List.zipIdx_map_snd, List.range_eq_range']

/-- A source that the chart serves holds the edges that meet the constraints. -/
theorem reached_sourceOf {c : Chart L} {cs : List Constraint} (h : c.Serves (sourceOf cs)) :
    c.reached (sourceOf cs) = c.scan cs := by
  rw [sourceOf] at h ⊢
  split
  · rename_i hempty
    rw [List.isEmpty_iff] at hempty
    rw [hempty, scan_nil, reached]
  · rename_i hne
    rw [if_neg hne] at h
    obtain ⟨index, hindex⟩ := Option.isSome_iff_exists.1 h
    simp only [reached, hindex]
    exact get_of_index? hindex

theorem attributes_build (attributes : List Attribute) (edges : List (Edge L)) :
    (Index.build attributes edges).attributes = attributes := by
  have hfold : ∀ (pairs : List (Edge L × Nat)) (index : Index),
      (pairs.foldl (fun index p => index.add p.2 p.1) index).attributes = index.attributes := by
    intro pairs
    induction pairs with
    | nil => exact fun _ => rfl
    | cons p pairs ih => exact fun index => ih (index.add p.2 p.1)
  exact hfold _ _

theorem entries_ensureIndex (c : Chart L) (attributes : List Attribute) :
    (c.ensureIndex attributes).entries = c.entries := by
  rw [ensureIndex]
  split <;> rfl

theorem edges_ensureIndex (c : Chart L) (attributes : List Attribute) :
    (c.ensureIndex attributes).edges = c.edges := by
  rw [edges, entries_ensureIndex, edges]

theorem size_ensureIndex (c : Chart L) (attributes : List Attribute) :
    (c.ensureIndex attributes).size = c.size := by
  rw [size_eq_length_edges, edges_ensureIndex, ← size_eq_length_edges]

theorem pointers_ensureIndex (c : Chart L) (attributes : List Attribute) (id : EdgeId) :
    (c.ensureIndex attributes).pointers id = c.pointers id := by
  rw [pointers, entries_ensureIndex, pointers]

theorem serves_ensureIndex (c : Chart L) (attributes : List Attribute)
    (values : List AttributeValue) :
    (c.ensureIndex attributes).Serves (.bucket attributes values) := by
  rw [Serves, ensureIndex]
  split
  · rename_i index hindex
    rw [hindex]
    rfl
  · rw [index?, List.find?_append, Option.isSome_or]
    simp [attributes_build]

/-- An index more changes nothing that a chart holds. -/
theorem grows_ensureIndex (c : Chart L) (attributes : List Attribute) :
    Grows c (c.ensureIndex attributes) [] where
  tokens := by
    rw [ensureIndex]
    split <;> rfl
  edges := edges_ensureIndex c attributes ▸ List.prefix_refl c.edges
  pointers := by
    intro id
    exact pointers_ensureIndex c attributes id ▸ List.prefix_refl (c.pointers id)
  unchanged := by
    intro id _
    rw [entries_ensureIndex]
  gained := fun _ h => nomatch h
  count := by
    rw [countPointers, countPointers, entries_ensureIndex]
    exact Nat.le_refl _
  introduces := by
    rw [size_ensureIndex]
    exact .nil
  serves := by
    rintro (_ | ⟨attributes', values⟩) hs
    · exact hs
    · rw [Serves, ensureIndex]
      split
      · exact hs
      · rw [index?, List.find?_append, Option.isSome_or]
        exact Bool.or_eq_true_iff.2 (.inl hs)

theorem WellFormed.ensureIndex {c : Chart L} (h : c.WellFormed) (attributes : List Attribute) :
    (c.ensureIndex attributes).WellFormed where
  nodup := by
    rw [edges_ensureIndex]
    exact h.nodup
  justified := by
    intro id hid
    rw [size_ensureIndex] at hid
    rw [pointers_ensureIndex]
    exact h.justified id hid
  child_lt := by
    intro id p hp
    rw [pointers_ensureIndex] at hp
    rw [size_ensureIndex]
    exact h.child_lt id p hp

/-- Opening a cursor on constraints of which no two are about one attribute. -/
theorem select_eq {c : Chart L} {cs : List Constraint} (h : Constraint.repeated? cs = none) :
    ∃ c', c.select cs = .ok (c', ⟨sourceOf cs, 0⟩) ∧ Grows c c' [] ∧
      (c.WellFormed → c'.WellFormed) ∧ c'.Serves (sourceOf cs) := by
  rw [select, sourceOf]
  split
  · exact ⟨c, rfl, Grows.refl c, id, trivial⟩
  · rw [Constraint.arrange_eq_ok h]
    exact ⟨_, rfl, c.grows_ensureIndex _, fun hwf => hwf.ensureIndex _,
      c.serves_ensureIndex _ _⟩

/-- Two constraints on one attribute are refused, before anything is looked at. -/
theorem select_and_query_eq_error {c : Chart L} {cs : List Constraint} {a : Attribute}
    (h : Constraint.repeated? cs = some a) :
    c.select cs = .error (.invalidConstraint (.repeated a)) ∧
      c.query cs = .error (.invalidConstraint (.repeated a)) := by
  have hne : ¬ cs.isEmpty = true := fun hempty => by
    rw [List.isEmpty_iff.1 hempty] at h
    cases h
  rw [select, query, if_neg hne, if_neg hne, Constraint.arrange, h]
  exact ⟨rfl, rfl⟩

theorem select_perm (c : Chart L) {cs cs' : List Constraint} (h : cs.Perm cs') :
    c.select cs = c.select cs' := by
  rw [select, select, h.isEmpty_eq, Constraint.arrange_perm h]

theorem query_perm (c : Chart L) {cs cs' : List Constraint} (h : cs.Perm cs') :
    c.query cs = c.query cs' := by
  rw [query, query, h.isEmpty_eq, Constraint.arrange_perm h]

/-- A query answers with the edges that meet the constraints, whichever way it finds them. -/
theorem query_eq {c : Chart L} {cs : List Constraint} (h : Constraint.repeated? cs = none) :
    c.query cs = .ok (c.scan cs) := by
  rw [query]
  split
  · rename_i hempty
    rw [List.isEmpty_iff] at hempty
    rw [hempty, scan_nil]
  · rw [Constraint.arrange_eq_ok h, ok_bind]
    cases hindex : c.index? (Constraint.attributes (Constraint.arranged cs)) with
    | some index => exact congrArg Except.ok (get_of_index? hindex)
    | none =>
      refine congrArg Except.ok ?_
      -- without an index the arranged constraints are scanned, the same ones in another order
      rw [scan_eq_map_filter, scan_eq_map_filter]
      refine congrArg (List.map Prod.snd) (List.filter_congr fun p _ => ?_)
      rw [Bool.eq_iff_iff]
      simp only [List.all_eq_true, Constraint.mem_arranged]

end Chart

end ChartParsing
