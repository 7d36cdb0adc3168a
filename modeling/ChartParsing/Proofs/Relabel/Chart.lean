/-
ChartParsing/Proofs/Relabel/Chart.lean

Charts with other labels.

A chart with its labels exchanged keeps its ids, its lists and its indexes, for
these only know the values of edges (`Chart.relabel`).  Every operation on it
does what it does on the chart as it was, and fails where that fails; here are
reading and inserting.
-/
import ChartParsing.Proofs.Parser.Parses
import ChartParsing.Proofs.Relabel.Label

namespace ChartParsing

variable {L L' : Type} [Label L] [Label L'] {f : L → L'}

/-- The same entry with other labels. -/
def Entry.relabel (f : L → L') (entry : Entry L) : Entry L' := ⟨entry.edge.relabel f, entry.cpls⟩

/-! ### Indexes -/

namespace Index

variable (hf : Relabelling f)

include hf

theorem add_relabel (index : Index) (id : EdgeId) (e : Edge L) :
    index.add id (e.relabel f) = index.add id e := by
  rw [add, add, hf.valueOf]

theorem places_relabel (attributes : List Attribute) (values : List AttributeValue)
    (edges : List (Edge L)) :
    places attributes values (edges.map (Edge.relabel f)) = places attributes values edges := by
  rw [places, places, List.zipIdx_map, List.filterMap_map]
  refine List.filterMap_congr fun p _ => ?_
  show (if attributes.map (p.1.relabel f).valueOf = values then some p.2 else none) = _
  rw [hf.valueOf]

theorem Files.relabel {index : Index} {edges : List (Edge L)} (h : index.Files edges) :
    index.Files (edges.map (Edge.relabel f)) := by
  intro values
  rw [h values, places_relabel hf]

theorem build_relabel (attributes : List Attribute) (edges : List (Edge L)) :
    build attributes (edges.map (Edge.relabel f)) = build attributes edges := by
  rw [build, build, List.zipIdx_map, List.foldl_map]
  refine congrArg (fun add => edges.zipIdx.foldl add (empty attributes)) ?_
  funext index p
  exact add_relabel hf index p.2 p.1

end Index

namespace Chart

/-- A chart is settled by what it holds and how it is indexed. -/
theorem ext_data {c d : Chart L} (htokens : c.tokens = d.tokens) (hentries : c.entries = d.entries)
    (hhome : c.home = d.home) (hindexes : c.indexes = d.indexes) : c = d := by
  cases c
  cases d
  cases htokens
  cases hentries
  cases hhome
  cases hindexes
  rfl

omit [Label L] [Label L'] in
theorem map_edge_relabel (entries : Array (Entry L)) :
    (entries.map (Entry.relabel f)).toList.map Entry.edge =
      (entries.toList.map Entry.edge).map (Edge.relabel f) := by
  rw [Array.toList_map, List.map_map, List.map_map]
  rfl

/-- The same chart with other labels. -/
def relabel (hf : Relabelling f) (c : Chart L) : Chart L' where
  tokens := c.tokens
  entries := c.entries.map (Entry.relabel f)
  home := c.home
  indexes := c.indexes
  home_attributes := c.home_attributes
  home_files := by
    rw [map_edge_relabel]
    exact c.home_files.relabel hf
  indexes_file := by
    rw [map_edge_relabel]
    exact fun index h => (c.indexes_file index h).relabel hf

variable (hf : Relabelling f) (c : Chart L)

/-! ### Reading -/

@[simp] theorem tokens_relabel : (c.relabel hf).tokens = c.tokens := rfl

@[simp] theorem edges_relabel : (c.relabel hf).edges = c.edges.map (Edge.relabel f) :=
  map_edge_relabel c.entries

@[simp] theorem size_relabel : (c.relabel hf).size = c.size :=
  Array.size_map

@[simp] theorem edge?_relabel (id : EdgeId) :
    (c.relabel hf).edge? id = (c.edge? id).map (Edge.relabel f) := by
  rw [edge?_eq_getElem?, edge?_eq_getElem?, edges_relabel, List.getElem?_map]

theorem edge_relabel (id : EdgeId) :
    (c.relabel hf).edge id = (c.edge id).map (Edge.relabel f) := by
  rw [edge, edge, edge?_relabel]
  cases c.edge? id with
  | none => rfl
  | some e => rfl

theorem getElem?_entries_relabel (id : EdgeId) :
    (c.relabel hf).entries[id]? = c.entries[id]?.map (Entry.relabel f) :=
  Array.getElem?_map

@[simp] theorem cpls_relabel (id : EdgeId) : (c.relabel hf).cpls id = c.cpls id := by
  rw [cpls, cpls, getElem?_entries_relabel]
  cases c.entries[id]? with
  | none => rfl
  | some entry => rfl

@[simp] theorem pointers_relabel (id : EdgeId) : (c.relabel hf).pointers id = c.pointers id := by
  rw [pointers, pointers, getElem?_entries_relabel]
  cases c.entries[id]? with
  | none => rfl
  | some entry => rfl

@[simp] theorem countPointers_relabel : (c.relabel hf).countPointers = c.countPointers := by
  show (c.entries.map (Entry.relabel f)).foldl _ 0 = _
  rw [Array.foldl_map]
  rfl

theorem leafEdges_relabel : (c.relabel hf).leafEdges = c.leafEdges.map (Edge.relabel f) := by
  rw [leafEdges, leafEdges, List.map_map]
  exact List.map_congr_left fun p _ => hf.leaf p.1 p.2

theorem new_relabel (tokens : List String) : (new tokens : Chart L).relabel hf = new tokens :=
  ext_data rfl Array.map_empty rfl rfl

/-! ### Inserting -/

theorem append_relabel (e : Edge L) (cpls : Roster Pointers) :
    (c.relabel hf).append (e.relabel f) cpls = (c.append e cpls).relabel hf := by
  obtain ⟨tokens, entries, home, indexes, hattributes, hhome, hindexes⟩ := c
  refine ext_data rfl ?_ ?_ ?_
  · show (entries.map (Entry.relabel f)).push (Entry.relabel f ⟨e, cpls⟩) =
      (entries.push ⟨e, cpls⟩).map (Entry.relabel f)
    rw [Array.map_push]
  · show home.add (entries.map (Entry.relabel f)).size (e.relabel f) = home.add entries.size e
    rw [Array.size_map, Index.add_relabel hf]
  · show indexes.map (fun index => index.add (entries.map (Entry.relabel f)).size (e.relabel f)) =
      indexes.map fun index => index.add entries.size e
    rw [Array.size_map]
    exact List.map_congr_left fun index _ => index.add_relabel hf entries.size e

theorem justify_relabel (id : EdgeId) (cpls : Roster Pointers) :
    (c.relabel hf).justify id cpls = (c.justify id cpls).relabel hf := by
  obtain ⟨tokens, entries, home, indexes, hattributes, hhome, hindexes⟩ := c
  refine ext_data rfl ?_ rfl rfl
  show (entries.map (Entry.relabel f)).modify id (fun entry => { entry with cpls }) =
    (entries.modify id fun entry => { entry with cpls }).map (Entry.relabel f)
  apply Array.ext_getElem?
  intro i
  simp only [Array.getElem?_modify, Array.getElem?_map]
  by_cases hi : id = i
  · rw [if_pos hi, if_pos hi]
    cases entries[i]? with
    | none => rfl
    | some entry => rfl
  · rw [if_neg hi, if_neg hi]

variable [DecidableEq L] [DecidableEq L']

@[simp] theorem idOf?_relabel (e : Edge L) : (c.relabel hf).idOf? (e.relabel f) = c.idOf? e := by
  rw [idOf?, idOf?, hf.valueOf]
  refine congrArg (List.find? · _) (funext fun id => ?_)
  rw [edge?_relabel, decide_eq_decide]
  exact (Option.map_injective hf.edge_injective).eq_iff' rfl

/-- The result of an operation on a chart, with other labels. -/
def relabelResult {α : Type} (hf : Relabelling f) (r : Chart L × α) : Chart L' × α :=
  (r.1.relabel hf, r.2)

theorem insert_relabel (e : Edge L) (offered : List Pointers) :
    (c.relabel hf).insert (e.relabel f) offered =
      (c.insert e offered).map (relabelResult hf) := by
  rw [insert, insert, idOf?_relabel, size_relabel]
  cases c.idOf? e with
  | none =>
    dsimp only
    split
    · rfl
    · split
      · rfl
      · exact congrArg (fun d => Except.ok (d, some c.size)) (append_relabel hf c e _)
  | some id =>
    dsimp only
    rw [getElem?_entries_relabel]
    cases c.entries[id]? with
    | none => rfl
    | some entry =>
      have hcpls : (entry.relabel f).cpls = entry.cpls := rfl
      dsimp only [Option.map_some]
      rw [hcpls]
      split
      · rfl
      · split
        · rfl
        · exact congrArg (fun d => Except.ok (d, some id)) (justify_relabel hf c id _)

theorem insertAfter_relabel (e : Edge L) (previous child : EdgeId) :
    (c.relabel hf).insertAfter (e.relabel f) previous child =
      (c.insertAfter e previous child).map (relabelResult hf) := by
  rw [insertAfter, insertAfter, cpls_relabel]
  cases c.cpls previous with
  | error x => rfl
  | ok known => exact c.insert_relabel hf e _

/-- An offer with other labels. -/
def relabelOffer (f : L → L') (o : Edge L × List Pointers) : Edge L' × List Pointers :=
  (o.1.relabel f, o.2)

theorem insertAll_relabel (offers : List (Edge L × List Pointers)) :
    (c.relabel hf).insertAll (offers.map (relabelOffer f)) =
      (c.insertAll offers).map (relabelResult hf) := by
  have hnext : ∀ (s : Chart L × Array EdgeId) (o : Edge L × List Pointers),
      insertNext (relabelResult hf s) (relabelOffer f o) =
        (insertNext s o).map (relabelResult hf) := by
    rintro ⟨c, changed⟩ o
    refine bind_map_comm (c.insert_relabel hf o.1 o.2) fun r => ?_
    obtain ⟨d, id?⟩ := r
    cases id? with
    | none => rfl
    | some id => rfl
  exact bind_map_comm (foldlM_map_comm hnext offers (c, #[])) fun r => rfl

end Chart

end ChartParsing
