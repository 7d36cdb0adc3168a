/-
ChartParsing/Chart/Index.lean

Indexes: the edges of a chart, filed by the values of some attributes.

An index is built from the edges there are and takes every later edge in.  A
bucket only grows at its end, so a place in it stays good for ever.

`Index.Files` says what an index is for: looking values up in it gives the
same as going through the edges and comparing (`places`).  A new index does
(`files_build`), and taking in one more edge keeps it so (`Files.add`).
-/
import ChartParsing.Buckets
import ChartParsing.Edge.Attribute

namespace ChartParsing

/-- Edge ids filed by the values that the edges have for the attributes. -/
structure Index where
  attributes : List Attribute
  buckets : Buckets (List AttributeValue) EdgeId

namespace Index

variable {L : Type} [Label L]

/-- Files one more edge. -/
def add (index : Index) (id : EdgeId) (e : Edge L) : Index :=
  { index with buckets := index.buckets.push (index.attributes.map e.valueOf) id }

/-- An index without edges. -/
def empty (attributes : List Attribute) : Index := ⟨attributes, .empty⟩

/-- Files the edges under their places in the list. -/
def build (attributes : List Attribute) (edges : List (Edge L)) : Index :=
  edges.zipIdx.foldl (fun index p => index.add p.2 p.1) (empty attributes)

/-- The edges with these values, in order of discovery. -/
def get (index : Index) (values : List AttributeValue) : List EdgeId := index.buckets.get values

/-- The edge at a place among those with these values. -/
def at? (index : Index) (values : List AttributeValue) (place : Nat) : Option EdgeId :=
  (index.buckets.bucket values)[place]?

theorem at?_eq_getElem? (index : Index) (values : List AttributeValue) (place : Nat) :
    index.at? values place = (index.get values)[place]? :=
  index.buckets.getElem?_bucket values place

/-! ### What an index holds -/

/-- The places of the edges that have these values for the attributes. -/
def places (attributes : List Attribute) (values : List AttributeValue) (edges : List (Edge L)) :
    List EdgeId :=
  edges.zipIdx.filterMap fun p => if attributes.map p.1.valueOf = values then some p.2 else none

theorem places_append (attributes : List Attribute) (values : List AttributeValue)
    (edges : List (Edge L)) (e : Edge L) :
    places attributes values (edges ++ [e]) =
      if attributes.map e.valueOf = values then places attributes values edges ++ [edges.length]
      else places attributes values edges := by
  by_cases h : attributes.map e.valueOf = values <;> simp [places, List.zipIdx_append, h]

/-- Looking values up gives the places of the edges that have them. -/
def Files (index : Index) (edges : List (Edge L)) : Prop :=
  ∀ values, index.get values = places index.attributes values edges

theorem files_empty (attributes : List Attribute) :
    (empty attributes).Files ([] : List (Edge L)) := fun values => by
  simp [get, empty, places]

/-- Filing the next edge keeps an index good. -/
theorem Files.add {index : Index} {edges : List (Edge L)} (h : index.Files edges) (e : Edge L) :
    (index.add edges.length e).Files (edges ++ [e]) := fun values => by
  have hget := h values
  simp only [get] at hget
  simp only [get, Index.add, Buckets.get_push, places_append, hget]

theorem Files.foldl {index : Index} {edges : List (Edge L)} (h : index.Files edges)
    (more : List (Edge L)) :
    ((more.zipIdx edges.length).foldl (fun index p => index.add p.2 p.1) index).Files
      (edges ++ more) := by
  induction more generalizing index edges with
  | nil => simpa using h
  | cons e more ih => simpa using ih (h.add e)

theorem files_build (attributes : List Attribute) (edges : List (Edge L)) :
    (build attributes edges).Files edges := by
  have h : (empty attributes).Files ([] : List (Edge L)) := files_empty attributes
  simpa [build] using h.foldl edges

end Index

end ChartParsing
