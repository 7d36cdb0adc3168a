/-
ChartParsing/Chart/Capacity.lean

How many edges there can be.

Advancing makes no new positions, and only so many labels of each key
(`Label.varietyBits`), so the edges that can be derived from given ones are
finitely many: there are a start and an end, a left-hand side, a right-hand
side no longer than the longest, and a dot.  The child pointer lists are
finitely many as well, when the length of a list is the dot of its edge.

The loops that fill a chart run over what they themselves add to.  These
bounds say how many rounds such a loop may take, and are never reached.  They
are powers of two, given by their exponents.
-/
import ChartParsing.Chart

namespace ChartParsing

namespace Edge

variable {L : Type}

/-- The last position where one of the edges ends. -/
def lastStop (edges : List (Edge L)) : Nat := edges.foldl (fun n e => max n e.stop) 0

/-- The length of the longest right-hand side. -/
def longestRhs (edges : List (Edge L)) : Nat := edges.foldl (fun n e => max n e.rhs.length) 0

variable [Label L]

/-- At most `2 ^ labelBits edges` labels occur on edges derived from the given ones. -/
def labelBits (edges : List (Edge L)) : Nat :=
  let labels := edges.flatMap Edge.labels
  bitLength labels.length + Label.varietyBits labels

/-- At most `2 ^ capacityBits edges` edges can be derived from the given ones. -/
def capacityBits (edges : List (Edge L)) : Nat :=
  let label := labelBits edges
  let longest := longestRhs edges
  -- start and end, left-hand side, right-hand side, dot
  2 * bitLength (lastStop edges) + label + longest * (label + 1) + bitLength longest

/-- At most `2 ^ pointerBits edges` child pointer lists justify edges derived
from the given ones, each list as long as the dot of its edge. -/
def pointerBits (edges : List (Edge L)) : Nat :=
  let edge := capacityBits edges
  edge + longestRhs edges * (edge + 1)

end Edge

end ChartParsing
