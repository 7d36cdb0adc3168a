/-
ChartParsing/Tree/Parses.lean

The complete parses of a chart, root by root.

A root is an edge over the whole input whose label the grammar accepts.  The
trees of a root are only read once those of the roots before it have been
taken; a root that cannot be read is one item, after which the others follow.
-/
import ChartParsing.Chart.Cursor
import ChartParsing.Tree.Reading

namespace ChartParsing

/-- Parses still to come: trees that have been read, then roots. -/
structure Parses (L : Type) [Label L] where
  chart : Chart L
  roots : List EdgeId
  /-- The trees of an earlier root that have not been taken yet. -/
  ready : List (Tree L)

namespace Parses

variable {L : Type} [Label L]

/-- The first parse from `ready` and then `roots`, with what comes after it. -/
def nextFrom (chart : Chart L) : (roots : List EdgeId) → (ready : List (Tree L)) →
    Option (Except ChartError (Tree L) × Parses L)
  | roots, t :: ready => some (.ok t, ⟨chart, roots, ready⟩)
  | [], [] => none
  | root :: roots, [] =>
    match chart.trees root true with
    | .ok trees => nextFrom chart roots trees
    | .error e => some (.error e, ⟨chart, roots, []⟩)

/-- The next parse, with what comes after it. -/
def next? (p : Parses L) : Option (Except ChartError (Tree L) × Parses L) :=
  nextFrom p.chart p.roots p.ready

/-- The next parses, at most `limit` of them. -/
def take : (limit : Nat) → Parses L → List (Except ChartError (Tree L))
  | 0, _ => []
  | limit + 1, p =>
    match p.next? with
    | none => []
    | some (parse, p) => parse :: take limit p

/-- What a root contributes: its trees, or the reason why there are none. -/
def ofRoot (chart : Chart L) (root : EdgeId) : List (Except ChartError (Tree L)) :=
  match chart.trees root true with
  | .ok trees => trees.map .ok
  | .error e => [.error e]

/-- All the parses. -/
def toList (p : Parses L) : List (Except ChartError (Tree L)) :=
  p.ready.map .ok ++ p.roots.flatMap (ofRoot p.chart)

/-- The trees of all parses, or the first failure. -/
def collect (p : Parses L) : Except ChartError (List (Tree L)) := p.toList.mapM id

end Parses

namespace Chart

variable {L : Type} [Label L]

/-- Those of the candidates whose label is accepted as `root`. -/
def rootsAmong (c : Chart L) (root : L) : List EdgeId → Except ChartError (List EdgeId)
  | [] => .ok []
  | id :: candidates => do
    let e ← c.edge id
    let roots ← rootsAmong c root candidates
    .ok (if Label.acceptsRoot root e.lhs then id :: roots else roots)

/-- The parses over the whole input whose root label is accepted as `root`. -/
def parses (c : Chart L) (root : L) : Except ChartError (Parses L) := do
  let candidates ← c.query [.start 0, .stop c.tokens.length, .lhs (Label.key root)]
  let roots ← c.rootsAmong root candidates
  .ok ⟨c, roots, []⟩

end Chart

end ChartParsing
