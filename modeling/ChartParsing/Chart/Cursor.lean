/-
ChartParsing/Chart/Cursor.lean

Searching a chart by the attributes of its edges.

`Chart.query` answers with the edges that meet the constraints now.
`Chart.select` opens a cursor on them, which also reaches the edges that are
inserted later: it names a place in a bucket of an index, and both only grow
at the end.  An index is built when its attributes are first selected by.

Constraints are put in the order of their attributes before anything else, so
their order does not matter.  An attribute that is constrained twice is
refused.  A value of the wrong kind for its attribute cannot come up here, since
a `Constraint` holds the proof that its attribute admits the value; that check
is made where a constraint is made (`Constraint.named`).
-/
import ChartParsing.Chart

namespace ChartParsing

/-! ### Arranging constraints -/

namespace Constraint

/-- The first attribute, in their order, that several constraints are about. -/
def repeated? (cs : List Constraint) : Option Attribute :=
  Attribute.all.find? fun a => 1 < cs.countP fun c => c.attr = a

/-- The constraints in the order of their attributes. -/
def arranged (cs : List Constraint) : List Constraint :=
  Attribute.all.flatMap fun a => cs.filter fun c => c.attr = a

/-- The constraints in the order of their attributes, unless two are about one. -/
def arrange (cs : List Constraint) : Except ChartError (List Constraint) :=
  match repeated? cs with
  | some a => .error (.invalidConstraint (.repeated a))
  | none => .ok (arranged cs)

/-- The attributes that the constraints are about. -/
def attributes (cs : List Constraint) : List Attribute := cs.map attr

/-- The values that the constraints ask for. -/
def values (cs : List Constraint) : List AttributeValue := cs.map value

end Constraint

/-! ### Cursors -/

/-- Where a cursor takes its edges from. -/
inductive Source where
  /-- Every edge of the chart. -/
  | all
  /-- The edges with these values for these attributes. -/
  | bucket (attributes : List Attribute) (values : List AttributeValue)
  deriving DecidableEq

/-- A place among the edges of a source: `taken` of them have been delivered. -/
structure Cursor where
  source : Source
  taken : Nat
  deriving DecidableEq

namespace Chart

variable {L : Type} [Label L]

/-- The index on these attributes, if it has been built. -/
def index? (c : Chart L) (attributes : List Attribute) : Option Index :=
  c.indexes.find? fun index => index.attributes = attributes

/-- The edges of a source, in order of discovery. -/
def reached (c : Chart L) : Source → List EdgeId
  | .all => List.range c.size
  | .bucket attributes values =>
    match c.index? attributes with
    | some index => index.get values
    | none => []

/-- The edge at a place in a source. -/
def reachedAt? (c : Chart L) (place : Nat) : Source → Option EdgeId
  | .all => if place < c.size then some place else none
  | .bucket attributes values =>
    match c.index? attributes with
    | some index => index.at? values place
    | none => none

theorem reachedAt?_eq_getElem? (c : Chart L) (place : Nat) (source : Source) :
    c.reachedAt? place source = (c.reached source)[place]? := by
  cases source with
  | all => by_cases h : place < c.size <;> simp [reachedAt?, reached, h]
  | bucket attributes values =>
    simp only [reachedAt?, reached]
    split
    · rw [Index.at?_eq_getElem?]
    · rfl

/-- What a cursor has still to deliver, as the chart is now. -/
def remaining (c : Chart L) (cursor : Cursor) : List EdgeId :=
  (c.reached cursor.source).drop cursor.taken

/-- The next edge, with the cursor past it. -/
def next? (c : Chart L) (cursor : Cursor) : Option (EdgeId × Cursor) :=
  match c.reachedAt? cursor.taken cursor.source with
  | none => none
  | some id => some (id, { cursor with taken := cursor.taken + 1 })

theorem next?_eq_head? (c : Chart L) (cursor : Cursor) :
    c.next? cursor =
      (c.remaining cursor).head?.map fun id => (id, { cursor with taken := cursor.taken + 1 }) := by
  rw [next?, reachedAt?_eq_getElem?, remaining, List.head?_drop]
  cases (c.reached cursor.source)[cursor.taken]? <;> rfl

theorem next?_eq_none_iff (c : Chart L) (cursor : Cursor) :
    c.next? cursor = none ↔ c.remaining cursor = [] := by
  simp [next?_eq_head?]

/-- Delivering an edge takes it off what remains, and nothing else. -/
theorem remaining_of_next? {c : Chart L} {cursor cursor' : Cursor} {id : EdgeId}
    (h : c.next? cursor = some (id, cursor')) :
    c.remaining cursor = id :: c.remaining cursor' := by
  rw [next?_eq_head?] at h
  obtain ⟨first, hfirst, heq⟩ := Option.map_eq_some_iff.1 h
  obtain ⟨rest, hrest⟩ := List.head?_eq_some_iff.1 hfirst
  cases heq
  rw [hrest]
  congr 1
  have hdrop : rest = (c.remaining cursor).drop 1 := by rw [hrest]; rfl
  rw [hdrop]
  simp [remaining, List.drop_drop]

/-- The edges that meet all constraints, found by looking at each. -/
def scan (c : Chart L) (cs : List Constraint) : List EdgeId :=
  c.edges.zipIdx.filterMap fun p => if cs.all fun k => k.holds p.1 then some p.2 else none

/-- Builds the index on these attributes, if the chart does not have it. -/
def ensureIndex (c : Chart L) (attributes : List Attribute) : Chart L :=
  match c.index? attributes with
  | some _ => c
  | none =>
    { c with
      indexes := c.indexes ++ [Index.build attributes c.edges]
      indexes_file := by
        intro index h
        rcases List.mem_append.1 h with h | h
        · exact c.indexes_file index h
        · rw [List.mem_singleton.1 h]
          exact Index.files_build attributes c.edges }

/-- Opens a cursor on the edges that meet the constraints. -/
def select (c : Chart L) (cs : List Constraint) : Except ChartError (Chart L × Cursor) :=
  if cs.isEmpty then .ok (c, ⟨.all, 0⟩)
  else do
    let cs ← Constraint.arrange cs
    let attributes := Constraint.attributes cs
    .ok (c.ensureIndex attributes, ⟨.bucket attributes (Constraint.values cs), 0⟩)

/-- The edges that meet the constraints, from an index if there is one. -/
def query (c : Chart L) (cs : List Constraint) : Except ChartError (List EdgeId) :=
  if cs.isEmpty then .ok (List.range c.size)
  else do
    let cs ← Constraint.arrange cs
    match c.index? (Constraint.attributes cs) with
    | some index => .ok (index.get (Constraint.values cs))
    | none => .ok (c.scan cs)

end Chart

end ChartParsing
