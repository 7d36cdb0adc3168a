/-
ChartParsing/Graphviz.lean

A chart as a directed graph in the Graphviz language.

Nodes stand on a grid: a column for each position of the input, and a row for
each edge above row 0, which holds the tokens.  The row of an edge is drawn as
a chain of arcs from column 0 to the last one: invisible arcs from column to
column, but a single labelled arc from the start of the edge to its end.  The
columns that this arc passes over have no node in the row.

What the graph has is said first, in numbers and labels (`columns`, `rows`,
`rowArcs`); how it is written comes after that.
-/
import ChartParsing.Chart

namespace ChartParsing.Graphviz

variable {L : Type} [Label L]

/-! ### Nodes and arcs -/

/-- Whether a row has a node at a column: row 0 everywhere, the row of an edge
up to its start and from its end. -/
def visible (c : Chart L) (column row : Nat) : Bool :=
  match row with
  | 0 => true
  | id + 1 =>
    match c.edge? id with
    | some e => column ≤ e.start || e.stop ≤ column
    | none => false

/-- The columns of the nodes in a row. -/
def columns (c : Chart L) (row : Nat) : List Nat :=
  (List.range (c.tokens.length + 1)).filter fun column => visible c column row

/-- The rows of the nodes in a column. -/
def rows (c : Chart L) (column : Nat) : List Nat :=
  (List.range (c.size + 1)).filter fun row => visible c column row

/-- An arc within a row; one without a label is invisible. -/
structure Arc where
  source : Nat
  target : Nat
  label : Option String
  deriving DecidableEq

/-- The invisible arcs through `count` columns from `first` on. -/
def gaps (first count : Nat) : List Arc :=
  (List.range' first count).map fun column => ⟨column, column + 1, none⟩

/-- The arcs in the row of an edge, from column 0 to the last one. -/
def rowArcs (c : Chart L) (e : Edge L) : List Arc :=
  gaps 0 e.start ++ [⟨e.start, e.stop, some e.text⟩] ++ gaps e.stop (c.tokens.length - e.stop)

/-! ### Writing -/

/-- A number in at least four digits. -/
def padded (n : Nat) : String :=
  let digits := Nat.toDigits 10 n
  String.ofList (List.replicate (4 - digits.length) '0' ++ digits)

/-- The name of the node at a column and a row. -/
def node (column row : Nat) : String := padded column ++ "." ++ padded row

/-- A character as it stands in a quoted label. -/
def escapeChar : Char → List Char
  | '\\' => ['\\', '\\']
  | '"' => ['\\', '"']
  | c => [c]

/-- A text in double quotes. -/
def quoted (s : String) : String :=
  "\"" ++ String.ofList (s.toList.flatMap escapeChar) ++ "\""

/-- The nodes of one row; those of row 0 are black. -/
def declareRow (c : Chart L) (row : Nat) : List String :=
  (if row = 0 then ["  node [style=filled, color=\"black\"];"] else []) ++
    (columns c row).map fun column => "  " ++ node column row ++ " [label=\"\"];"

/-- The nodes, from the last row down to row 0. -/
def declarations (c : Chart L) : List String :=
  (List.range (c.size + 1)).reverse.flatMap (declareRow c)

/-- The nodes of a column, kept above one another. -/
def rank (c : Chart L) (column : Nat) : String :=
  let nodes := (rows c column).map fun row => " " ++ node column row
  "  \x7brank=same;" ++ String.join nodes ++ "\x7d"

/-- The tokens between the nodes of row 0. -/
def tokenChain (c : Chart L) : String :=
  "  " ++ node 0 0 ++
    String.join (c.tokens.zipIdx.map fun p => "->" ++ quoted p.1 ++ "->" ++ node (p.2 + 1) 0) ++ ";"

/-- An arc of a row. -/
def arcLine (row : Nat) (a : Arc) : String :=
  let attributes :=
    match a.label with
    | some label => "label=" ++ quoted label
    | none => "style=\"invis\""
  "  " ++ node a.source row ++ " -> " ++ node a.target row ++ " [" ++ attributes ++ "];"

/-- The rows of the edges, each above the one before. -/
def edgeRows (c : Chart L) : List String :=
  c.edges.zipIdx.flatMap fun p => (rowArcs c p.1).map (arcLine (p.2 + 1))

/-- The lines between the braces. -/
def body (c : Chart L) : List String :=
  ["  rankdir=LR;",
   "  node [height=0.1,width=0.1];",
   "  node [style=filled, color=\"lightgray\"];"] ++
    declarations c ++
  ["  x [style=invis]; x->0000.0000 [style=invis];"] ++
    (List.range (c.tokens.length + 1)).map (rank c) ++
  ["  edge [style=invis, weight=100];",
   "  node [shape=plaintext]"] ++
    [tokenChain c] ++
  ["",
   "  edge [style=solid, weight=1];"] ++
    edgeRows c

/-- The lines of the graph. -/
def lines (c : Chart L) : List String := "digraph chart \x7b" :: (body c ++ ["\x7d"])

/-- The graph as a text, each line ended. -/
def text (c : Chart L) : String := String.join ((lines c).map fun l => l ++ "\n")

end ChartParsing.Graphviz
