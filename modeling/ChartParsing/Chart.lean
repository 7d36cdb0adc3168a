/-
ChartParsing/Chart.lean

The chart: every edge discovered so far, and what justifies it.

A child pointer list names the edges over which an edge's dot has moved, in
order.  A chart keeps, for each edge, the lists that justify it, each once and
in the order in which they were found.  Nothing is ever removed, so an edge's
id, its place in the order of discovery, names it for ever.

Beside the edges a chart keeps indexes on them.  One, by span and dot, is
always there and tells whether an edge is known; the others come with the
searches that ask for them.  That every index files the edges as they are is
part of the type.

`Chart.insert` is the only way in.  It refuses a list that names an edge the
chart does not have (a new edge may name itself), and it adds no edge that
nothing justifies.  A refused insertion changes nothing.
-/
import ChartParsing.Chart.Index
import ChartParsing.Error
import ChartParsing.Roster

namespace ChartParsing

/-- The edges that an edge was put together from, in order. -/
abbrev Pointers := List EdgeId

/-- An edge and the child pointer lists that justify it, each once and in order of discovery. -/
structure Entry (L : Type) where
  edge : Edge L
  cpls : Roster Pointers

/-- The edges over a list of tokens, in order of discovery, with their indexes. -/
structure Chart (L : Type) [Label L] where
  tokens : List String
  entries : Array (Entry L)
  /-- The edges by span and dot. -/
  home : Index
  /-- The indexes that searches have asked for. -/
  indexes : List Index
  home_attributes : home.attributes = [.span, .dot]
  home_files : home.Files (entries.toList.map Entry.edge)
  indexes_file : ∀ index ∈ indexes, index.Files (entries.toList.map Entry.edge)

namespace Chart

variable {L : Type} [Label L]

/-- A chart without edges over the tokens. -/
def new (tokens : List String) : Chart L where
  tokens := tokens
  entries := #[]
  home := .empty [.span, .dot]
  indexes := []
  home_attributes := rfl
  home_files := Index.files_empty _
  indexes_file := fun _ h => nomatch h

/-! ### Reading -/

/-- The number of edges. -/
def size (c : Chart L) : Nat := c.entries.size

/-- The edges, in order of discovery. -/
def edges (c : Chart L) : List (Edge L) := c.entries.toList.map Entry.edge

/-- The number of child pointer lists, over all edges. -/
def countPointers (c : Chart L) : Nat :=
  c.entries.foldl (fun n entry => n + entry.cpls.size) 0

/-- The edge of that id, if there is one. -/
def edge? (c : Chart L) (id : EdgeId) : Option (Edge L) := c.entries[id]?.map Entry.edge

theorem size_eq_length_edges (c : Chart L) : c.size = c.edges.length := by simp [size, edges]

theorem edge?_eq_getElem? (c : Chart L) (id : EdgeId) : c.edge? id = c.edges[id]? := by
  simp [edge?, edges]

/-- The edge of that id. -/
def edge (c : Chart L) (id : EdgeId) : Except ChartError (Edge L) :=
  match c.edge? id with
  | some e => .ok e
  | none => .error (.edgeNotInChart id)

/-- The child pointer lists of an edge, in order of discovery. -/
def cpls (c : Chart L) (id : EdgeId) : Except ChartError (List Pointers) :=
  match c.entries[id]? with
  | some entry => .ok entry.cpls.toList
  | none => .error (.edgeNotInChart id)

/-- The id of an edge, if the chart has it: it is among the edges of the same
span and dot. -/
def idOf? [DecidableEq L] (c : Chart L) (e : Edge L) : Option EdgeId :=
  (c.home.get [e.valueOf .span, e.valueOf .dot]).find? fun id => c.edge? id = some e

/-- Whether the chart has the edge. -/
def contains [DecidableEq L] (c : Chart L) (e : Edge L) : Bool := (c.idOf? e).isSome

/-- The leaf edges over the tokens. -/
def leafEdges (c : Chart L) : List (Edge L) :=
  c.tokens.zipIdx.map fun p => Edge.leaf p.1 p.2

/-! ### Finding an edge -/

theorem find?_places_from [DecidableEq L] (all : List (Edge L)) (attributes : List Attribute)
    (e : Edge L) (edges : List (Edge L)) (n : Nat) (h : all.drop n = edges) :
    ((edges.zipIdx n).filterMap fun p =>
        if attributes.map p.1.valueOf = attributes.map e.valueOf then some p.2 else none).find?
      (fun id => all[id]? = some e) = (edges.findIdx? (· == e)).map (· + n) := by
  induction edges generalizing n with
  | nil => simp
  | cons f edges ih =>
    have hf : all[n]? = some f := by
      have := congrArg List.head? h
      simpa [List.head?_drop] using this
    have hrest : all.drop (n + 1) = edges := by
      have := congrArg List.tail h
      simpa [List.tail_drop] using this
    have ih := ih (n + 1) hrest
    rw [List.zipIdx_cons, List.findIdx?_cons]
    by_cases hfe : f = e
    · subst hfe
      simp only [List.filterMap_cons, if_true, List.find?_cons, hf, decide_true, beq_self_eq_true,
        Option.map_some, Nat.zero_add]
    · have hne : ¬ some f = some e := fun h => hfe (Option.some.inj h)
      have hbeq : (f == e) = false := beq_eq_false_iff_ne.2 hfe
      have hshift : (fun i => i + n) ∘ (fun i => i + 1) = fun i => i + (n + 1) := by
        funext i
        simp only [Function.comp_apply]
        omega
      by_cases hv : attributes.map f.valueOf = attributes.map e.valueOf
      · simp only [List.filterMap_cons, hv, if_true, List.find?_cons, hf, hne, decide_false, hbeq,
          ih, Option.map_map, hshift, Bool.false_eq_true, if_false]
      · simp only [List.filterMap_cons, hv, if_false, hbeq, ih, Option.map_map, hshift,
          Bool.false_eq_true]

/-- The id of an edge is its first place among the edges. -/
theorem idOf?_eq_findIdx? [DecidableEq L] (c : Chart L) (e : Edge L) :
    c.idOf? e = c.edges.findIdx? (· == e) := by
  have hfiles := c.home_files [e.valueOf .span, e.valueOf .dot]
  have h := find?_places_from c.edges [.span, .dot] e c.edges 0 rfl
  simp only [idOf?, edge?_eq_getElem?, hfiles, c.home_attributes]
  simpa [Index.places, edges] using h

/-! ### Inserting -/

/-- The first id, in reading order, that is not below `limit`. -/
def dangling? (limit : Nat) (offered : List Pointers) : Option EdgeId :=
  offered.flatten.find? fun child => limit ≤ child

/-- The chart with one more edge, filed in every index. -/
def append (c : Chart L) (e : Edge L) (cpls : Roster Pointers) : Chart L :=
  match c with
  | ⟨tokens, entries, home, indexes, home_attributes, home_files, indexes_file⟩ =>
    let id := entries.size
    { tokens
      entries := entries.push ⟨e, cpls⟩
      home := home.add id e
      indexes := indexes.map fun index => index.add id e
      home_attributes
      home_files := by simpa [id] using home_files.add e
      indexes_file := by
        intro index h
        obtain ⟨index, hmem, rfl⟩ := List.mem_map.1 h
        simpa [id] using (indexes_file index hmem).add e }

/-- The chart with other child pointer lists for the edge of that id. -/
def justify (c : Chart L) (id : EdgeId) (cpls : Roster Pointers) : Chart L :=
  match c with
  | ⟨tokens, entries, home, indexes, home_attributes, home_files, indexes_file⟩ =>
    have same : (entries.modify id fun entry => { entry with cpls }).toList.map Entry.edge =
        entries.toList.map Entry.edge := by
      apply List.ext_getElem?
      intro i
      simp only [Array.toList_modify, List.getElem?_map, List.getElem?_modify]
      split <;> cases entries.toList[i]? <;> rfl
    { tokens
      entries := entries.modify id fun entry => { entry with cpls }
      home
      indexes
      home_attributes
      home_files := same ▸ home_files
      indexes_file := same ▸ indexes_file }

@[simp] theorem edges_new (tokens : List String) : (new tokens : Chart L).edges = [] := rfl

@[simp] theorem edges_append (c : Chart L) (e : Edge L) (cpls : Roster Pointers) :
    (c.append e cpls).edges = c.edges ++ [e] := by
  simp [append, edges]

/-- Justifying an edge anew changes no edge. -/
@[simp] theorem edges_justify (c : Chart L) (id : EdgeId) (cpls : Roster Pointers) :
    (c.justify id cpls).edges = c.edges := by
  apply List.ext_getElem?
  intro i
  simp only [edges, justify, Array.toList_modify, List.getElem?_map, List.getElem?_modify]
  split <;> cases c.entries.toList[i]? <;> rfl

variable [DecidableEq L]

/-- Adds the edge, if it is new and anything justifies it, and those of the
offered lists that it does not have yet.  The answer is the id of the edge if
the chart changed. -/
def insert (c : Chart L) (e : Edge L) (offered : List Pointers) :
    Except ChartError (Chart L × Option EdgeId) :=
  match c.idOf? e with
  | none =>
    if offered.isEmpty then .ok (c, none)
    else
      -- the new edge will have the id `c.size`, and may name itself
      let id := c.size
      match dangling? (id + 1) offered with
      | some child => .error (.danglingChild child)
      | none => .ok (c.append e (Roster.empty.enterAll offered), some id)
  | some id =>
    match c.entries[id]? with
    | none => .error (.edgeNotInChart id)
    | some entry =>
      match dangling? c.size offered with
      | some child => .error (.danglingChild child)
      | none =>
        if offered.all entry.cpls.contains then .ok (c, none)
        else .ok (c.justify id (entry.cpls.enterAll offered), some id)

/-- Inserts an edge justified by each list of `previous` extended with `child`. -/
def insertAfter (c : Chart L) (e : Edge L) (previous child : EdgeId) :
    Except ChartError (Chart L × Option EdgeId) := do
  let known ← c.cpls previous
  c.insert e (known.map fun p => p ++ [child])

/-- Inserts one more edge, and notes its id behind `changed` if the chart changed. -/
def insertNext (s : Chart L × Array EdgeId) (offer : Edge L × List Pointers) :
    Except ChartError (Chart L × Array EdgeId) :=
  match s with
  | (c, changed) => do
    let (c, id?) ← c.insert offer.1 offer.2
    match id? with
    | some id => .ok (c, changed.push id)
    | none => .ok (c, changed)

/-- Inserts one edge after the other, and collects the ids of those that changed the chart. -/
def insertAll (c : Chart L) (offers : List (Edge L × List Pointers)) :
    Except ChartError (Chart L × List EdgeId) := do
  let (c, changed) ← offers.foldlM insertNext (c, #[])
  .ok (c, changed.toList)

end Chart

end ChartParsing
