/-
ChartParsing/Proofs/Graphviz/Lines.lean

The lines of a chart's graph, read back.

A line is read as the statement it was written for: the declaration of a node
(`tells_declaration`), the nodes of a column (`tells_rank`), the tokens between
the nodes of row 0 (`tells_tokenChain`) and the arc of a row (`tells_arcLine`).
Whatever its tokens and labels, the text of a graph is read as `graph`
(`read?_text`): from that come the nodes that it declares
(`declared_graph`), the ranks (`ranks_graph`) and all of its arrows
(`arrows_graph`).
-/
import ChartParsing.Proofs.Graphviz.Grid
import ChartParsing.Proofs.Graphviz.Statements

namespace ChartParsing.Graphviz

variable {L : Type} [Label L]

/-! ### Names within a text -/

theorem isNameChar_of_mem_node {column row : Nat} {ch : Char}
    (h : ch ∈ (node column row).toList) : (ch.isDigit || ch == '.') = true := by
  rw [toList_node, List.mem_append, List.mem_cons] at h
  rcases h with hcolumn | rfl | hrow
  · rw [isDigit_of_mem_padded hcolumn, Bool.true_or]
  · rfl
  · rw [isDigit_of_mem_padded hrow, Bool.true_or]

@[simp] theorem node?_node (column row : Nat) :
    (Lexeme.word (node column row)).node? = some (node column row) := by
  have hall : (node column row).toList.all (fun c => c.isDigit || c == '.') = true :=
    List.all_eq_true.2 fun _ h => isNameChar_of_mem_node h
  rw [Lexeme.node?, if_pos hall]

theorem Reads.node {column row : Nat} {ds : List Char} {ms : List Lexeme} (hends : ends ds = true)
    (h : Reads ds ms) :
    Reads ((node column row).toList ++ ds) (.word (Graphviz.node column row) :: ms) := by
  refine .word (fun hempty => ?_) (fun ch hch => ?_) hends h
  · have hnil := congrArg String.toList hempty
    rw [toList_node] at hnil
    exact List.append_ne_nil_of_right_ne_nil _ (List.cons_ne_nil _ _) hnil
  · rw [isWordChar, Char.isAlphanum]
    rcases Bool.or_eq_true_iff.1 (isNameChar_of_mem_node hch) with hdigit | hdot
    · rw [hdigit, Bool.or_true, Bool.true_or, Bool.true_or]
    · rw [hdot, Bool.or_true]

/-! ### Declarations -/

/-- A name with a value, in brackets. -/
def pair (name : String) (value : Lexeme) : List Lexeme := [.word name, .sign '=', value]

/-- The declaration of a node. -/
def declaration (column row : Nat) : Item :=
  .single (.path [.word (node column row)] (pair "label" (.label "")))

theorem tells_declaration (column row : Nat) :
    Tells ("  " ++ node column row ++ " [label=\"\"];").toList [declaration column row] := by
  have hblank : Reads "  ".toList [] := rfl
  have hrest : Reads " [label=\"\"];".toList
      (.sign '[' :: (pair "label" (.label "") ++ [.sign ']', .sign ';'])) := by
    decide +kernel
  have hitem : ComesBack Reader.step .outside
      (.word (node column row) ::
        .sign '[' :: (pair "label" (.label "") ++ [.sign ']', .sign ';']))
      [declaration column row] := rfl
  refine ⟨_, ?_, hitem⟩
  rw [String.toList_append, String.toList_append, List.append_assoc]
  exact hblank.append (.node rfl hrest)

/-- The nodes of one row. -/
def rowItems (c : Chart L) (row : Nat) : List Item :=
  (if row = 0 then
    [.single (.path [.word "node"]
      (pair "style" (.word "filled") ++ .sign ',' :: pair "color" (.label "black")))]
  else []) ++ (columns c row).map fun column => declaration column row

theorem tells_declareRow (c : Chart L) (row : Nat) :
    TellsLines (declareRow c row) (rowItems c row) := by
  refine .append ?_ (.map fun column _ => tells_declaration column row)
  split
  · exact Tells.line (tells_of_run (by decide +kernel))
  · exact .nil

/-! ### Ranks -/

/-- A node that is named and no more. -/
def listed (column row : Nat) : Statement := .path [.word (node column row)] []

/-- The nodes of a column, in one group. -/
def rankItem (c : Chart L) (column : Nat) : Item :=
  .group (.setting (.word "rank") (.word "same") :: (rows c column).map (listed column))

/-- Names with blanks before them, up to the brace. -/
theorem reads_listed (column : Nat) (rows : List Nat) :
    Reads ((String.join (rows.map fun row => " " ++ node column row)).toList ++ "\x7d".toList)
      (rows.map (fun row => .word (node column row)) ++ [.sign '\x7d']) := by
  induction rows with
  | nil =>
    have hclose : Reads "\x7d".toList [.sign '\x7d'] := by decide +kernel
    exact hclose
  | cons row rows ih =>
    have hblank : Reads " ".toList [] := rfl
    -- a name is followed by a blank, or by the closing brace
    have hends : ends ((String.join (rows.map fun row => " " ++ node column row)).toList ++
        "\x7d".toList) = true := by
      cases rows with
      | nil => rfl
      | cons row rows =>
        rw [List.map_cons, String.join_cons, String.toList_append, String.toList_append]
        rfl
    rw [List.map_cons, String.join_cons, String.toList_append, String.toList_append,
      List.append_assoc, List.append_assoc]
    exact hblank.append (.node hends ih)

theorem reads_rank (c : Chart L) (column : Nat) :
    Reads (rank c column).toList
      ([.sign '\x7b', .word "rank", .sign '=', .word "same", .sign ';'] ++
        ((rows c column).map (fun row => .word (node column row)) ++ [.sign '\x7d'])) := by
  have hhead : Reads "  \x7brank=same;".toList
      [.sign '\x7b', .word "rank", .sign '=', .word "same", .sign ';'] := by decide +kernel
  rw [rank, String.toList_append, String.toList_append, List.append_assoc]
  exact hhead.append (reads_listed column (rows c column))

/-- Nodes up to the brace are members of the open group, each by itself; a node
is read when the next one begins. -/
theorem feed_listed (column row : Nat) (rows : List Nat) (members : List Statement) :
    feed Reader.step ⟨.path [.word (node column row)], some members⟩
        (rows.map (fun row => .word (node column row)) ++ [.sign '\x7d']) =
      ([.group (members ++ (row :: rows).map (listed column))], .outside) := by
  induction rows generalizing row members with
  | nil => rfl
  | cons next rows ih =>
    have hstep : Reader.step ⟨.path [.word (node column row)], some members⟩
        (.word (node column next)) =
          ([], ⟨.path [.word (node column next)], some (members ++ [listed column row])⟩) := rfl
    rw [List.map_cons, List.cons_append, feed, hstep, ih, List.append_assoc]
    rfl

theorem tells_rank (c : Chart L) (column : Nat) :
    Tells (rank c column).toList [rankItem c column] := by
  refine ⟨_, reads_rank c column, ?_⟩
  have hhead : feed Reader.step .outside
      [.sign '\x7b', .word "rank", .sign '=', .word "same", .sign ';'] =
        ([], ⟨.between, some [.setting (.word "rank") (.word "same")]⟩) := rfl
  rw [ComesBack, feed_append, hhead]
  cases hrows : rows c column with
  | nil =>
    rw [rankItem, hrows]
    rfl
  | cons row rows =>
    have hfirst : Reader.step ⟨.between, some [.setting (.word "rank") (.word "same")]⟩
        (.word (node column row)) =
          ([], ⟨.path [.word (node column row)], some [.setting (.word "rank") (.word "same")]⟩) :=
      rfl
    rw [List.map_cons, List.cons_append, feed, hfirst, feed_listed, rankItem, hrows]
    rfl

/-! ### The tokens -/

/-- What leads from one node to another. -/
def arrow : List Lexeme := [.sign '-', .sign '>']

theorem reads_arrow : Reads "->".toList arrow := by decide +kernel

/-- A token, before the node at its end. -/
def link (p : String × Nat) : List Lexeme :=
  arrow ++ (.label p.1 :: (arrow ++ [.word (node (p.2 + 1) 0)]))

theorem reads_links (tokens : List (String × Nat)) (column : Nat) :
    Reads ((node column 0).toList ++ ((String.join (tokens.map fun p =>
        "->" ++ quoted p.1 ++ "->" ++ node (p.2 + 1) 0)).toList ++ ";".toList))
      (.word (node column 0) :: (tokens.flatMap link ++ [.sign ';'])) := by
  induction tokens generalizing column with
  | nil => exact .node rfl (by decide +kernel)
  | cons p tokens ih =>
    have hlink := reads_arrow.append (.quoted p.1 (reads_arrow.append (ih (p.2 + 1))))
    refine .node ?_ ?_
    · simp only [List.map_cons, String.join_cons, String.toList_append, List.append_assoc]
      rfl
    · simpa [link] using hlink

theorem reads_tokenChain (c : Chart L) :
    Reads (tokenChain c).toList
      (.word (node 0 0) :: (c.tokens.zipIdx.flatMap link ++ [.sign ';'])) := by
  have hblank : Reads "  ".toList [] := rfl
  rw [tokenChain, String.toList_append, String.toList_append, String.toList_append,
    List.append_assoc, List.append_assoc]
  exact hblank.append (reads_links _ _)

/-- A token as a node, and the node at its end. -/
def linked (p : String × Nat) : List Lexeme := [.label p.1, .word (node (p.2 + 1) 0)]

/-- The path through the tokens. -/
def chainItem (c : Chart L) : Item :=
  .single (.path (.word (node 0 0) :: c.tokens.zipIdx.flatMap linked) [])

/-- Tokens and nodes up to the semicolon go on with the path that is open. -/
theorem feed_links (tokens : List (String × Nat)) (nodes : List Lexeme) :
    feed Reader.step ⟨.path nodes, none⟩ (tokens.flatMap link ++ [.sign ';']) =
      ([.single (.path (nodes ++ tokens.flatMap linked) [])], .outside) := by
  induction tokens generalizing nodes with
  | nil =>
    rw [List.flatMap_nil, List.flatMap_nil, List.append_nil]
    rfl
  | cons p tokens ih =>
    have hlink : feed Reader.step ⟨.path nodes, none⟩ (link p) =
        ([], ⟨.path (nodes ++ [.label p.1] ++ [.word (node (p.2 + 1) 0)]), none⟩) := rfl
    rw [List.flatMap_cons, List.append_assoc, feed_append, hlink, ih, List.flatMap_cons, linked]
    simp

theorem tells_tokenChain (c : Chart L) : Tells (tokenChain c).toList [chainItem c] := by
  refine ⟨_, reads_tokenChain c, ?_⟩
  have hfirst : Reader.step .outside (.word (node 0 0)) =
      ([], ⟨.path [.word (node 0 0)], none⟩) := rfl
  rw [ComesBack, feed, hfirst, feed_links]
  rfl

/-! ### Arcs -/

/-- What stands in the brackets of an arc with that label. -/
def attributes : Option String → List Lexeme
  | some label => pair "label" (.label label)
  | none => pair "style" (.label "invis")

/-- An arc in a row, as an arrow between nodes. -/
def Arc.arrow (row : Nat) (a : Arc) : Arrow :=
  ⟨.word (node a.source row), .word (node a.target row), attributes a.label⟩

/-- A path with just one arrow. -/
def Arrow.item (a : Arrow) : Item := .single (.path [a.source, a.target] a.attributes)

theorem reads_arcLine (row : Nat) (a : Arc) :
    Reads (arcLine row a).toList
      (.word (node a.source row) :: (Graphviz.arrow ++ (.word (node a.target row) :: .sign '[' ::
        (attributes a.label ++ [.sign ']', .sign ';'])))) := by
  have hblank : Reads "  ".toList [] := rfl
  have harrow : Reads " -> ".toList Graphviz.arrow := by decide +kernel
  have hopen : Reads " [".toList [.sign '['] := by decide +kernel
  have hclose : Reads "];".toList [.sign ']', .sign ';'] := by decide +kernel
  have harc : ∀ (text : String) {ls}, Reads (text.toList ++ "];".toList) ls →
      Reads
        ("  " ++ node a.source row ++ " -> " ++ node a.target row ++ " [" ++ text ++ "];").toList
        (.word (node a.source row) ::
          (Graphviz.arrow ++ (.word (node a.target row) :: .sign '[' :: ls))) := by
    intro text ls h
    have htarget : Reads
        ((node a.target row).toList ++ (" [".toList ++ (text.toList ++ "];".toList)))
        (.word (node a.target row) :: .sign '[' :: ls) := .node rfl (hopen.append h)
    have hsource : Reads ((node a.source row).toList ++ (" -> ".toList ++ _))
        (.word (node a.source row) :: (Graphviz.arrow ++ _)) := .node rfl (harrow.append htarget)
    simp only [String.toList_append, List.append_assoc]
    exact hblank.append hsource
  rcases a with ⟨source, target, label | label⟩
  · have hinvisible : Reads "style=\"invis\"".toList (attributes none) := by decide +kernel
    exact harc _ (hinvisible.append hclose)
  · have hlabel : Reads "label=".toList [.word "label", .sign '='] := by decide +kernel
    have hlabelled : Reads (("label=" ++ quoted label).toList ++ "];".toList)
        (attributes (some label) ++ [.sign ']', .sign ';']) := by
      rw [String.toList_append, List.append_assoc]
      exact hlabel.append (.quoted label hclose)
    exact harc _ hlabelled

theorem tells_arcLine (row : Nat) (a : Arc) :
    Tells (arcLine row a).toList [(a.arrow row).item] := by
  refine ⟨_, reads_arcLine row a, ?_⟩
  rcases a with ⟨source, target, label | label⟩ <;> rfl

/-- The rows of the edges, each above the one before. -/
def edgeItems (c : Chart L) : List Item :=
  c.edges.zipIdx.flatMap fun p => (rowArcs c p.1).map fun a => (a.arrow (p.2 + 1)).item

theorem tells_edgeRows (c : Chart L) : TellsLines (edgeRows c) (edgeItems c) :=
  .flatMap fun p _ => .map fun a _ => tells_arcLine (p.2 + 1) a

/-! ### The whole text -/

/-- What is said of the graph before its nodes. -/
def opening : List Item :=
  [.single (.setting (.word "rankdir") (.word "LR")),
   .single (.path [.word "node"]
    (pair "height" (.word "0.1") ++ .sign ',' :: pair "width" (.word "0.1"))),
   .single (.path [.word "node"]
    (pair "style" (.word "filled") ++ .sign ',' :: pair "color" (.label "lightgray")))]

/-- The invisible arrow to the first node of row 0. -/
def entry : Arrow := ⟨.word "x", .word (node 0 0), pair "style" (.word "invis")⟩

/-- What is said of the arrows between the tokens, and of the tokens. -/
def beforeTokens : List Item :=
  [.single (.path [.word "edge"]
    (pair "style" (.word "invis") ++ .sign ',' :: pair "weight" (.word "100"))),
   .single (.path [.word "node"] (pair "shape" (.word "plaintext")))]

/-- What is said of the arrows in the rows. -/
def beforeRows : List Item :=
  [.single (.path [.word "edge"]
    (pair "style" (.word "solid") ++ .sign ',' :: pair "weight" (.word "1")))]

/-- The graph of a chart. -/
def graph (c : Chart L) : List Item :=
  opening ++ (List.range (c.size + 1)).reverse.flatMap (rowItems c) ++
    [.single (.path [.word "x"] entry.attributes), entry.item] ++
    (List.range (c.tokens.length + 1)).map (rankItem c) ++ beforeTokens ++ [chainItem c] ++
    beforeRows ++ edgeItems c

theorem tells_body (c : Chart L) : TellsLines (body c) (graph c) := by
  have hdeclarations : TellsLines (declarations c)
      ((List.range (c.size + 1)).reverse.flatMap (rowItems c)) :=
    .flatMap fun row _ => tells_declareRow c row
  have hranks : TellsLines ((List.range (c.tokens.length + 1)).map (rank c))
      ((List.range (c.tokens.length + 1)).map (rankItem c)) :=
    .map fun column _ => tells_rank c column
  have hchain : TellsLines [tokenChain c] [chainItem c] := (tells_tokenChain c).line
  -- piece by piece, in the order of the lines; what is left are those that do not change
  refine .append (.append (.append (.append (.append (.append (.append ?opening hdeclarations)
    ?entry) hranks) ?beforeTokens) hchain) ?beforeRows) (tells_edgeRows c)
  case opening => exact tells_of_run (by decide +kernel)
  case entry => exact tells_of_run (by decide +kernel)
  case beforeTokens => exact tells_of_run (by decide +kernel)
  case beforeRows => exact tells_of_run (by decide +kernel)

/-- The text of a graph is read as the graph. -/
theorem read?_text (c : Chart L) : read? (text c) = some (graph c) := by
  refine read?_eq_some "chart" ?_ ?_ (tells_body c)
  · rw [text, String.toList_join, List.flatMap_map, lines]
    simp
  · decide +kernel

/-! ### What the graph has -/

section Views

variable (c : Chart L)

/-- The nodes of a row are declared with it. -/
theorem declared_rowItems (row : Nat) :
    declared (rowItems c row) = (columns c row).map fun column => node column row := by
  have hblack : declared (if row = 0 then
      [.single (.path [.word "node"]
        (pair "style" (.word "filled") ++ .sign ',' :: pair "color" (.label "black")))]
      else []) = [] := by
    split
    · decide +kernel
    · rfl
  have hnode : ∀ column, declared [declaration column row] = [node column row] := by
    intro column
    have hdeclares : Statement.declares?
        (.path [.word (node column row)] (pair "label" (.label ""))) = some (node column row) :=
      node?_node column row
    rw [declared, List.flatMap_singleton, declaration, Item.statements,
      List.filterMap_cons_some hdeclares, List.filterMap_nil]
  rw [rowItems, declared_append, hblack, List.nil_append, List.map_eq_flatMap, declared_flatMap,
    List.map_eq_flatMap]
  exact List.flatMap_congr fun column _ => hnode column

theorem declared_rankItem (column : Nat) : declared [rankItem c column] = [] := by
  have hnode : ∀ row, (listed column row).declares? = none := fun _ => rfl
  rw [declared, List.flatMap_singleton, rankItem, Item.statements, List.filterMap_cons_none rfl,
    List.filterMap_map, List.filterMap_eq_nil_iff]
  exact fun row _ => hnode row

theorem declared_edgeItems : declared (edgeItems c) = [] := by
  have harrow : ∀ a : Arrow, declared [a.item] = [] := fun _ => rfl
  simp only [edgeItems, List.map_eq_flatMap, declared_flatMap, harrow, List.flatMap_eq_nil_iff,
    implies_true]

/-- The nodes of all rows are declared. -/
theorem declared_graph : declared (graph c) =
    (List.range (c.size + 1)).reverse.flatMap fun row =>
      (columns c row).map fun column => node column row := by
  have hranks : declared ((List.range (c.tokens.length + 1)).map (rankItem c)) = [] := by
    rw [List.map_eq_flatMap, declared_flatMap, List.flatMap_eq_nil_iff]
    exact fun column _ => declared_rankItem c column
  have hchain : declared [chainItem c] = [] := by
    simp [declared, chainItem, Item.statements]
  have hfixed : declared opening = [] ∧
      declared [.single (.path [.word "x"] entry.attributes), entry.item] = [] ∧
        declared beforeTokens = [] ∧ declared beforeRows = [] := by decide +kernel
  obtain ⟨hopening, hentry, htokens, hrows⟩ := hfixed
  simp only [graph, declared_append, declared_flatMap, declared_rowItems, declared_edgeItems,
    hranks, hchain, hopening, hentry, htokens, hrows, List.nil_append, List.append_nil]

theorem ranks_rowItems (row : Nat) : ranks (rowItems c row) = [] := by
  have hnode : ∀ column, (declaration column row).rank? = none := fun _ => rfl
  rw [rowItems, ranks_append, ranks, ranks, List.filterMap_map, List.append_eq_nil_iff]
  refine ⟨?_, List.filterMap_eq_nil_iff.2 fun column _ => hnode column⟩
  split <;> rfl

theorem ranks_edgeItems : ranks (edgeItems c) = [] := by
  have harrow : ∀ a : Arrow, ranks [a.item] = [] := fun _ => rfl
  simp only [edgeItems, List.map_eq_flatMap, ranks_flatMap, harrow, List.flatMap_eq_nil_iff,
    implies_true]

/-- The nodes of a column are listed in one group. -/
theorem rank?_rankItem (column : Nat) :
    (rankItem c column).rank? = some ((rows c column).map (node column)) := by
  have hlists : ∀ row, (listed column row).lists? = some (node column row) := fun row => by
    rw [listed, Statement.lists?, node?_node]
  have hnodes : ((rows c column).map (listed column)).filterMap Statement.lists? =
      (rows c column).map (node column) := by
    simp only [List.filterMap_map, Function.comp_def, hlists, List.filterMap_eq_map']
  rw [rankItem, Item.rank?, if_pos List.mem_cons_self, List.filterMap_cons_none rfl, hnodes]

/-- The ranks are the columns. -/
theorem ranks_graph : ranks (graph c) =
    (List.range (c.tokens.length + 1)).map fun column => (rows c column).map (node column) := by
  have hdeclarations : ranks ((List.range (c.size + 1)).reverse.flatMap (rowItems c)) = [] := by
    rw [ranks_flatMap, List.flatMap_eq_nil_iff]
    exact fun row _ => ranks_rowItems c row
  have hfixed : ranks opening = [] ∧
      ranks [.single (.path [.word "x"] entry.attributes), entry.item] = [] ∧
        ranks beforeTokens = [] ∧ ranks [chainItem c] = [] ∧ ranks beforeRows = [] :=
    ⟨rfl, rfl, rfl, rfl, rfl⟩
  obtain ⟨hopening, hentry, htokens, hchain, hrows⟩ := hfixed
  simp only [graph, ranks_append, hdeclarations, ranks_edgeItems, hopening, hentry, htokens, hchain,
    hrows, List.nil_append, List.append_nil]
  rw [ranks, List.filterMap_map, ← List.filterMap_eq_map]
  exact List.filterMap_congr fun column _ => rank?_rankItem c column

theorem arrows_rowItems (row : Nat) : arrows (rowItems c row) = [] := by
  have hnode : ∀ column, arrows [declaration column row] = [] := fun _ => rfl
  rw [rowItems, arrows_append, List.map_eq_flatMap, arrows_flatMap, List.append_eq_nil_iff]
  refine ⟨?_, List.flatMap_eq_nil_iff.2 fun column _ => hnode column⟩
  split <;> rfl

theorem arrows_rankItem (column : Nat) : arrows [rankItem c column] = [] := by
  have hnode : ∀ row, (listed column row).arrows = [] := fun _ => rfl
  rw [arrows, List.flatMap_singleton, rankItem, Item.statements, List.flatMap_cons,
    List.flatMap_map, List.append_eq_nil_iff]
  exact ⟨rfl, List.flatMap_eq_nil_iff.2 fun row _ => hnode row⟩

/-- The arrows from the node before a token to the token, and on to the node behind it. -/
def tokenArrows (tokens : List String) : List Arrow :=
  tokens.zipIdx.flatMap fun p =>
    [⟨.word (node p.2 0), .label p.1, []⟩, ⟨.label p.1, .word (node (p.2 + 1) 0), []⟩]

/-- Along the path through the tokens each arrow begins where the one before ends. -/
theorem arrows_links (tokens : List String) (column : Nat) :
    Statement.arrows (.path (.word (node column 0) :: (tokens.zipIdx column).flatMap linked) []) =
      (tokens.zipIdx column).flatMap fun p =>
        [⟨.word (node p.2 0), .label p.1, []⟩, ⟨.label p.1, .word (node (p.2 + 1) 0), []⟩] := by
  induction tokens generalizing column with
  | nil => rfl
  | cons t tokens ih =>
    rw [List.zipIdx_cons, List.flatMap_cons, List.flatMap_cons, ← ih]
    rfl

theorem arrows_chainItem : arrows [chainItem c] = tokenArrows c.tokens := by
  rw [arrows, List.flatMap_singleton, chainItem, Item.statements, List.flatMap_singleton]
  exact arrows_links c.tokens 0

theorem arrows_edgeItems : arrows (edgeItems c) =
    c.edges.zipIdx.flatMap fun p => (rowArcs c p.1).map (Arc.arrow (p.2 + 1)) := by
  have harrow : ∀ a : Arrow, arrows [a.item] = [a] := fun _ => rfl
  simp only [edgeItems, List.map_eq_flatMap, arrows_flatMap, harrow]

/-- There is an arrow to the first node of row 0, and then there are those
between the tokens and those in the rows of the edges. -/
theorem arrows_graph : arrows (graph c) = entry :: (tokenArrows c.tokens ++
    c.edges.zipIdx.flatMap fun p => (rowArcs c p.1).map (Arc.arrow (p.2 + 1))) := by
  have hdeclarations : arrows ((List.range (c.size + 1)).reverse.flatMap (rowItems c)) = [] := by
    rw [arrows_flatMap, List.flatMap_eq_nil_iff]
    exact fun row _ => arrows_rowItems c row
  have hranks : arrows ((List.range (c.tokens.length + 1)).map (rankItem c)) = [] := by
    rw [List.map_eq_flatMap, arrows_flatMap, List.flatMap_eq_nil_iff]
    exact fun column _ => arrows_rankItem c column
  have hfixed : arrows opening = [] ∧
      arrows [.single (.path [.word "x"] entry.attributes), entry.item] = [entry] ∧
        arrows beforeTokens = [] ∧ arrows beforeRows = [] := ⟨rfl, rfl, rfl, rfl⟩
  obtain ⟨hopening, hentry, htokens, hrows⟩ := hfixed
  simp only [graph, arrows_append, hdeclarations, hranks, arrows_edgeItems, arrows_chainItem,
    hopening, hentry, htokens, hrows, List.nil_append, List.append_nil, List.cons_append]

end Views

end ChartParsing.Graphviz
