/-
ChartParsing/Grammar/Production.lean

Productions, and the lookups that the inference rules make among them.

`ProductionIndex.ofList` goes through the productions once.  It files the place
of each, as it comes, under the key of its left-hand side and under the key of
the first symbol of its right-hand side; places of empty ones, which have no
first symbol, are kept apart.  A lookup finds the places that are filed and
picks the productions stored there, in grammar order.
-/
import ChartParsing.Buckets
import ChartParsing.Label
import Std.Data.TreeSet.Lemmas

namespace ChartParsing

/-- A production `lhs → rhs`; the right-hand side may be empty. -/
structure Production (L : Type) where
  lhs : L
  rhs : List L
  deriving DecidableEq

namespace Production

variable {L : Type}

/-- Whether the right-hand side is empty. -/
def isEmpty (p : Production L) : Bool := p.rhs.isEmpty

/-- Both sides with an arrow between, the symbols of the right one set apart by spaces. -/
def text [Label L] (p : Production L) : String :=
  Label.text p.lhs ++ " ->" ++ String.join (p.rhs.map fun l => " " ++ Label.text l)

end Production

/-- Productions in grammar order, with their places in that order filed for lookup. -/
structure ProductionIndex (L : Type) where
  /-- Every production at its place. -/
  stored : Array (Production L)
  /-- Places by the key of the left-hand side. -/
  byLhs : Buckets Symbol Nat
  /-- Places by the key of the first symbol of the right-hand side. -/
  byFirst : Buckets Symbol Nat
  /-- Places of the productions with an empty right-hand side. -/
  emptyAt : Array Nat
  /-- The tokens that some right-hand side matches. -/
  lexicon : Std.TreeSet String

namespace ProductionIndex

variable {L : Type}

/-- Nothing filed. -/
def empty : ProductionIndex L := ⟨#[], .empty, .empty, #[], ∅⟩

section Filing

variable [Label L]

/-- Files the place of a production under the key of its left-hand side. -/
def fileLhs (index : ProductionIndex L) (p : Production L) (place : Nat) : ProductionIndex L :=
  { index with byLhs := index.byLhs.push (Label.key p.lhs) place }

/-- Files the place of a production under the key of the first symbol of its
right-hand side, or among the empty productions if there is none. -/
def fileFirst (index : ProductionIndex L) (p : Production L) (place : Nat) : ProductionIndex L :=
  match p.rhs.head? with
  | some first => { index with byFirst := index.byFirst.push (Label.key first) place }
  | none => { index with emptyAt := index.emptyAt.push place }

/-- The tokens that occur as terminals in a list of labels. -/
def tokens (labels : List L) : List String := labels.filterMap Label.token?

/-- Adds the terminals of a right-hand side to the lexicon. -/
def learn (index : ProductionIndex L) (p : Production L) : ProductionIndex L :=
  { index with lexicon := (tokens p.rhs).foldl (fun known t => known.insert t) index.lexicon }

/-- Stores a production behind the others. -/
def store (index : ProductionIndex L) (p : Production L) : ProductionIndex L :=
  { index with stored := index.stored.push p }

/-- Files a production with its place, and then stores it. -/
def file (index : ProductionIndex L) (entry : Production L × Nat) : ProductionIndex L :=
  (((index.fileLhs entry.1 entry.2).fileFirst entry.1 entry.2).learn entry.1).store entry.1

/-- Files the productions in the order given, each with its place in it. -/
def ofList (productions : List (Production L)) : ProductionIndex L :=
  productions.zipIdx.foldl file empty

end Filing

/-- Every production, in grammar order. -/
def all (index : ProductionIndex L) : List (Production L) := index.stored.toList

/-- The productions at these places. -/
def pick (index : ProductionIndex L) (places : List Nat) : List (Production L) :=
  places.filterMap fun place => index.stored[place]?

/-- The productions that expand labels of this key. -/
def withLhs (index : ProductionIndex L) (key : Symbol) : List (Production L) :=
  index.pick (index.byLhs.get key)

/-- The productions whose right-hand side starts with a label of this key. -/
def withFirst (index : ProductionIndex L) (key : Symbol) : List (Production L) :=
  index.pick (index.byFirst.get key)

/-- The productions with an empty right-hand side. -/
def empties (index : ProductionIndex L) : List (Production L) := index.pick index.emptyAt.toList

/-- Whether some right-hand side matches the token. -/
def covers (index : ProductionIndex L) (token : String) : Bool :=
  index.lexicon.contains token

end ProductionIndex

end ChartParsing
