/-
ChartParsing/Proofs/Graphviz/Statements.lean

Reading the statements of a graph.

A graph holds statements between braces, and groups of statements between
braces of their own.  A statement is a path of nodes, with attributes in
brackets behind the last, or it gives a value to a name.  No sign is needed to
end one: it is read when its brackets are closed, when a semicolon or a brace
follows, or when the next one begins (`Reader.step`).

`read?` reads a text as a graph.  What the graph then has is said of what was
read, and of nothing else: the nodes that are declared (`declared`), the groups
of nodes of one rank (`ranks`), and the arrows from node to node (`arrows`).
-/
import ChartParsing.Proofs.Graphviz.Reading

namespace ChartParsing.Graphviz

/-! ### Reading statements -/

/-- A statement about the nodes of a graph. -/
inductive Statement where
  /-- Nodes with an arrow from each to the next, and what stands in brackets
  behind the last.  A path may have just one node. -/
  | path (nodes attributes : List Lexeme)
  /-- A name with its value behind an equals sign. -/
  | setting (name value : Lexeme)
  deriving DecidableEq

/-- What a graph consists of. -/
inductive Item where
  | single (statement : Statement)
  /-- Statements between braces of their own. -/
  | group (members : List Statement)
  deriving DecidableEq

/-- How far the reader of a statement is. -/
inductive Phase where
  | between
  /-- Behind the last of these nodes. -/
  | path (nodes : List Lexeme)
  | dash (nodes : List Lexeme)
  | arrow (nodes : List Lexeme)
  | value (name : Lexeme)
  /-- Within the brackets behind these nodes. -/
  | attributes (nodes read : List Lexeme)
  /-- Behind the closing brace of the graph. -/
  | closed
  /-- At a lexeme that cannot stand there. -/
  | stuck
  deriving DecidableEq

/-- How far the reader of a graph is. -/
structure Reader where
  phase : Phase
  /-- The statements of the group that is open, if one is. -/
  group : Option (List Statement)
  deriving DecidableEq

namespace Reader

/-- Where statements are read that are in no group. -/
def outside : Reader := ⟨.between, none⟩

/-- A statement that has been read is a member of the group that is open. -/
def state (group : Option (List Statement)) (s : Statement) :
    List Item × Option (List Statement) :=
  match group with
  | none => ([.single s], none)
  | some members => ([], some (members ++ [s]))

/-- Reads a lexeme where a statement may begin.  There are no groups in groups. -/
def enter (group : Option (List Statement)) (l : Lexeme) : List Item × Reader :=
  match l, group with
  | .sign ';', group => ([], ⟨.between, group⟩)
  | .sign '\x7b', none => ([], ⟨.between, some []⟩)
  | .sign '\x7d', some members => ([.group members], outside)
  | .sign '\x7d', none => ([], ⟨.closed, none⟩)
  | .sign _, group => ([], ⟨.stuck, group⟩)
  | l, group => ([], ⟨.path [l], group⟩)

/-- Reads one more lexeme. -/
def step (r : Reader) (l : Lexeme) : List Item × Reader :=
  match r.phase, l with
  | .between, l => enter r.group l
  | .path nodes, .sign '-' => ([], ⟨.dash nodes, r.group⟩)
  | .path nodes, .sign '[' => ([], ⟨.attributes nodes [], r.group⟩)
  | .path nodes, .sign '=' =>
    match nodes with
    | [name] => ([], ⟨.value name, r.group⟩)
    | _ => ([], ⟨.stuck, r.group⟩)
  | .path nodes, l =>
    -- the path has ended, and the next statement may begin here
    let (items, group) := state r.group (.path nodes [])
    (items ++ (enter group l).1, (enter group l).2)
  | .dash nodes, .sign '>' => ([], ⟨.arrow nodes, r.group⟩)
  | .dash _, _ => ([], ⟨.stuck, r.group⟩)
  | .arrow _, .sign _ => ([], ⟨.stuck, r.group⟩)
  | .arrow nodes, l => ([], ⟨.path (nodes ++ [l]), r.group⟩)
  | .value _, .sign _ => ([], ⟨.stuck, r.group⟩)
  | .value name, l => ((state r.group (.setting name l)).1,
      ⟨.between, (state r.group (.setting name l)).2⟩)
  | .attributes nodes read, .sign ']' => ((state r.group (.path nodes read)).1,
      ⟨.between, (state r.group (.path nodes read)).2⟩)
  | .attributes nodes read, l => ([], ⟨.attributes nodes (read ++ [l]), r.group⟩)
  | .closed, _ => ([], ⟨.stuck, r.group⟩)
  | .stuck, _ => ([], r)

end Reader

/-- Reads a text as a graph: its title, and its statements between braces, with
nothing left open and nothing behind them. -/
def read? (s : String) : Option (List Item) :=
  match run .between s.toList with
  | (.word "digraph" :: .word _ :: .sign '\x7b' :: ls, .between) =>
    match feed Reader.step .outside ls with
    | (items, ⟨.closed, none⟩) => some items
    | _ => none
  | _ => none

/-! ### What a graph has -/

/-- The statements of an item. -/
def Item.statements : Item → List Statement
  | single statement => [statement]
  | group members => members

/-- The numeric node that a statement declares: it stands by itself, with attributes. -/
def Statement.declares? : Statement → Option String
  | path [node] (_ :: _) => node.node?
  | path _ _ | setting _ _ => none

/-- The numeric node that a statement names and says nothing else about. -/
def Statement.lists? : Statement → Option String
  | path [node] [] => node.node?
  | path _ _ | setting _ _ => none

/-- The numeric nodes of a group of one rank. -/
def Item.rank? : Item → Option (List String)
  | single _ => none
  | group members =>
    if .setting (.word "rank") (.word "same") ∈ members then
      some (members.filterMap Statement.lists?)
    else none

/-- An arrow between nodes, with what stands in brackets behind its path. -/
structure Arrow where
  source : Lexeme
  target : Lexeme
  attributes : List Lexeme
  deriving DecidableEq

/-- The arrows of a path, from each of its nodes to the next. -/
def Statement.arrows : Statement → List Arrow
  | path nodes attributes => (nodes.zip nodes.tail).map fun p => ⟨p.1, p.2, attributes⟩
  | setting _ _ => []

/-- The numeric nodes that an arrow leads from or to. -/
def Arrow.names (a : Arrow) : List String := [a.source, a.target].filterMap Lexeme.node?

/-- The numeric nodes that are declared in a graph. -/
def declared (graph : List Item) : List String :=
  graph.flatMap fun item => item.statements.filterMap Statement.declares?

/-- The groups of one rank in a graph. -/
def ranks (graph : List Item) : List (List String) := graph.filterMap Item.rank?

/-- All arrows in a graph. -/
def arrows (graph : List Item) : List Arrow :=
  graph.flatMap fun item => item.statements.flatMap Statement.arrows

section Views

variable (graph graph' : List Item) {α : Type} (as : List α) (items : α → List Item)

theorem declared_append : declared (graph ++ graph') = declared graph ++ declared graph' :=
  List.flatMap_append

theorem ranks_append : ranks (graph ++ graph') = ranks graph ++ ranks graph' :=
  List.filterMap_append

theorem arrows_append : arrows (graph ++ graph') = arrows graph ++ arrows graph' :=
  List.flatMap_append

theorem declared_flatMap :
    declared (as.flatMap items) = as.flatMap fun a => declared (items a) := List.flatMap_assoc

theorem ranks_flatMap :
    ranks (as.flatMap items) = as.flatMap fun a => ranks (items a) := List.filterMap_flatMap

theorem arrows_flatMap :
    arrows (as.flatMap items) = as.flatMap fun a => arrows (items a) := List.flatMap_assoc

end Views

@[simp] theorem Statement.declares?_path_nil (nodes : List Lexeme) :
    (path nodes []).declares? = none := by
  rcases nodes with _ | ⟨node, _ | ⟨next, nodes⟩⟩ <;> rfl

/-! ### Pieces of a graph -/

/-- The text is read as these items, and nothing is left open. -/
def Tells (cs : List Char) (items : List Item) : Prop :=
  ∃ ls, Reads cs ls ∧ ComesBack Reader.step .outside ls items

theorem tells_of_run {cs : List Char} {items : List Item}
    (h : (run .between cs).2 = .between ∧
      feed Reader.step .outside (run .between cs).1 = (items, .outside)) : Tells cs items :=
  ⟨_, Prod.ext rfl h.1, h.2⟩

theorem Tells.append {cs ds : List Char} {items items' : List Item} (h : Tells cs items)
    (h' : Tells ds items') : Tells (cs ++ ds) (items ++ items') := by
  obtain ⟨ls, hreads, hitems⟩ := h
  obtain ⟨ls', hreads', hitems'⟩ := h'
  exact ⟨ls ++ ls', hreads.append hreads', hitems.append hitems'⟩

/-- Lines, each of them ended, are read as these items. -/
def TellsLines (lines : List String) (items : List Item) : Prop :=
  Tells (lines.flatMap fun line => line.toList ++ ['\n']) items

theorem TellsLines.nil : TellsLines [] [] := ⟨[], rfl, rfl⟩

theorem Tells.line {line : String} {items : List Item} (h : Tells line.toList items) :
    TellsLines [line] items := by
  have hend : Tells ['\n'] [] := ⟨[], rfl, rfl⟩
  have hline := h.append hend
  rw [List.append_nil] at hline
  rwa [TellsLines, List.flatMap_singleton]

theorem TellsLines.append {lines lines' : List String} {items items' : List Item}
    (h : TellsLines lines items) (h' : TellsLines lines' items') :
    TellsLines (lines ++ lines') (items ++ items') := by
  rw [TellsLines, List.flatMap_append]
  exact Tells.append h h'

theorem TellsLines.flatMap {α : Type} {lines : α → List String} {items : α → List Item}
    {as : List α} (h : ∀ a ∈ as, TellsLines (lines a) (items a)) :
    TellsLines (as.flatMap lines) (as.flatMap items) := by
  induction as with
  | nil => exact .nil
  | cons a as ih =>
    obtain ⟨ha, has⟩ := List.forall_mem_cons.1 h
    exact ha.append (ih has)

theorem TellsLines.map {α : Type} {line : α → String} {item : α → Item} {as : List α}
    (h : ∀ a ∈ as, Tells (line a).toList [item a]) : TellsLines (as.map line) (as.map item) := by
  rw [List.map_eq_flatMap, List.map_eq_flatMap]
  exact .flatMap fun a ha => (h a ha).line

/-- What stands between the braces is what the graph has. -/
theorem read?_eq_some {s : String} (title : String) {cs : List Char} {items : List Item}
    (hs : s.toList = ("digraph " ++ title ++ " \x7b\n").toList ++ (cs ++ "\x7d\n".toList))
    (htitle : Reads ("digraph " ++ title ++ " \x7b\n").toList
      [.word "digraph", .word title, .sign '\x7b'])
    (h : Tells cs items) : read? s = some items := by
  obtain ⟨ls, hreads, hitems⟩ := h
  have hclose : Reads "\x7d\n".toList [.sign '\x7d'] := by decide +kernel
  have hall : run .between s.toList =
      (.word "digraph" :: .word title :: .sign '\x7b' :: (ls ++ [.sign '\x7d']), .between) := by
    rw [hs]
    exact htitle.append (hreads.append hclose)
  have hitems' : feed Reader.step .outside (ls ++ [.sign '\x7d']) = (items, ⟨.closed, none⟩) := by
    rw [feed_append, hitems]
    simp [feed, Reader.step, Reader.enter, Reader.outside]
  rw [read?, hall]
  simp only [hitems']

end ChartParsing.Graphviz
