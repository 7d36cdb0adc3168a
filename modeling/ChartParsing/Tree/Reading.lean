/-
ChartParsing/Tree/Reading.lean

Reading trees off a chart.

The trees of an edge are, for each of its child pointer lists, the ways to
choose a tree for every child.  Only acyclic trees are read: on no path from
the root does an edge occur twice.  So derivations that run in a circle are
left out, and there are finitely many trees whatever the lists say.

Results are kept for the next visit.  While the children of an edge are
visited, the edge is marked as being on the path, with its depth there.  A
visit that comes upon such a mark reads no trees and reports the depth:

* a result that was blocked at an edge further up the path lacks the trees
  through that edge, and is not kept;
* a result that is kept may have a later path's edges in its trees, so each
  reading knows the edges of its tree and is never put under one of them.

Visits nest no deeper than the chart has edges, plus one; running out of that
depth is an outcome of its own (`none`).
-/
import ChartParsing.Chart
import ChartParsing.Tree
import ChartParsing.Tree.Odometer

namespace ChartParsing

/-- A tree with the edges that it was read from. -/
structure Reading (L : Type) where
  tree : Tree L
  edges : List EdgeId

/-- What is known of an edge that has been visited. -/
inductive Mark (L : Type) where
  /-- Its children are being visited; it stands at this depth on the path. -/
  | onPath (depth : Nat)
  /-- These are all its readings. -/
  | read (readings : List (Reading L))

/-- The marks set so far, and the depth of the next visit. -/
structure Visited (L : Type) where
  depth : Nat
  marks : Std.TreeMap EdgeId (Mark L)

/-- What one visit found.  `blockedAt` is the depth of the shallowest edge
above the visited one that the visit came upon. -/
structure Findings (L : Type) where
  readings : List (Reading L)
  blockedAt : Option Nat

/-- A visit to an edge; `none` if the allowed depth does not suffice. -/
abbrev Visit (L : Type) :=
  EdgeId → Visited L → ExceptT ChartError Option (Findings L × Visited L)

namespace Visited

variable {L : Type}

/-- Nothing visited. -/
def nothing : Visited L := ⟨0, ∅⟩

/-- The mark of an edge. -/
def get? (v : Visited L) (id : EdgeId) : Option (Mark L) := v.marks[id]?

/-- Removes the mark of an edge. -/
def erase (v : Visited L) (id : EdgeId) : Visited L := { v with marks := v.marks.erase id }

/-- Marks an edge, in place of the mark that it may have. -/
def set (v : Visited L) (id : EdgeId) (mark : Mark L) : Visited L :=
  { v with marks := v.marks.insert id mark }

theorem get?_erase (v : Visited L) (id id' : EdgeId) :
    (v.erase id).get? id' = if id = id' then none else v.get? id' := by
  simp [get?, erase, Std.TreeMap.getElem?_erase]

/-- Marking one edge leaves the mark of every other as it was. -/
theorem get?_set (v : Visited L) (id id' : EdgeId) (mark : Mark L) :
    (v.set id mark).get? id' = if id = id' then some mark else v.get? id' := by
  simp [get?, set, Std.TreeMap.getElem?_insert]

/-- Puts an edge on the path: its children are visited one level deeper. -/
def enter (v : Visited L) (id : EdgeId) : Visited L :=
  { v.set id (.onPath v.depth) with depth := v.depth + 1 }

/-- Back to the level above. -/
def leave (v : Visited L) : Visited L := { v with depth := v.depth - 1 }

end Visited

/-- The lesser of two depths, of those that are there. -/
def shallowest : Option Nat → Option Nat → Option Nat
  | some a, some b => some (min a b)
  | some a, none => some a
  | none, b => b

namespace Reading

variable {L : Type}

/-! ### One edge -/

/-- The reading of an edge over readings of its children, with a childless
node for each unmatched symbol, unless the edge occurs in one of them. -/
def assemble (id : EdgeId) (e : Edge L) (children : List (Reading L)) : Option (Reading L) :=
  if children.any fun r => r.edges.contains id then none
  else
    some
      { tree := .node e.lhs (children.map Reading.tree ++ e.unmatched.map fun l => .node l [])
        edges := id :: children.flatMap Reading.edges }

/-- Visits the children on one list, from left to right: the readings of each,
and the shallowest edge on the path that was come upon. -/
def visitChildren (visit : Visit L) : Pointers → Visited L →
    ExceptT ChartError Option (List (List (Reading L)) × Option Nat × Visited L)
  | [], v => pure ([], none, v)
  | child :: rest, v => do
    let (found, v) ← visit child v
    let (choices, blockedAt, v) ← visitChildren visit rest v
    pure (found.readings :: choices, shallowest found.blockedAt blockedAt, v)

/-- Goes through the child pointer lists of an edge: its readings, list by
list, and the shallowest edge on the path that was come upon. -/
def visitLists (visit : Visit L) (id : EdgeId) (e : Edge L) : List Pointers → Visited L →
    ExceptT ChartError Option (List (Reading L) × Option Nat × Visited L)
  | [], v => pure ([], none, v)
  | cpl :: rest, v => do
    let (choices, blockedAt, v) ← visitChildren visit cpl v
    let readings := (Odometer.all choices).filterMap (assemble id e)
    let (later, blockedLater, v) ← visitLists visit id e rest v
    pure (readings ++ later, shallowest blockedAt blockedLater, v)

/-! ### All edges -/

/-- Visits an edge, going no deeper than `limit` visits into one another. -/
def visit [Label L] (c : Chart L) (complete : Bool) : (limit : Nat) → Visit L
  | 0, _, _ => none
  | limit + 1, id, v =>
    match v.get? id with
    | some (.read readings) => pure (⟨readings, none⟩, v)
    | some (.onPath depth) => pure (⟨[], some depth⟩, v)
    | none =>
      match c.entries[id]? with
      | none => throw (.edgeNotInChart id)
      | some ⟨e, cpls⟩ =>
        if complete && e.isIncomplete then pure (⟨[], none⟩, v)
        else if e.isLeaf then
          match c.tokens[e.start]? with
          | none => throw (.edgeNotInChart id)
          | some token =>
            let readings := [⟨.leaf token, [id]⟩]
            pure (⟨readings, none⟩, v.set id (.read readings))
        else do
          let depth := v.depth
          let (readings, blockedAt, v) ←
            visitLists (visit c complete limit) id e cpls.toList (v.enter id)
          -- coming upon this very edge only leaves out cyclic trees
          match blockedAt.filter fun d => d < depth with
          | some d => pure (⟨readings, some d⟩, v.leave.erase id)
          | none => pure (⟨readings, none⟩, v.leave.set id (.read readings))

end Reading

namespace Chart

variable {L : Type} [Label L]

/-- The trees of an edge.  With `complete` set, incomplete edges and all trees
through them are left out. -/
def trees (c : Chart L) (id : EdgeId) (complete : Bool) : Except ChartError (List (Tree L)) :=
  match (Reading.visit c complete (c.size + 1) id .nothing).run with
  | some (.ok (found, _)) => .ok (found.readings.map Reading.tree)
  | some (.error e) => .error e
  | none => .error (.edgeNotInChart id)

end Chart

end ChartParsing
