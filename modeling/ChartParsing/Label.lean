/-
ChartParsing/Label.lean

What a chart needs to know of the labels on its edges.

A chart never looks inside a label.  It asks for a coarse key, under which it
files edges, and leaves the real question, whether a complete edge may fill
the place that another edge waits at, to `Label.advance`.  The answer carries
both sides of the advanced edge, since filling one place may settle others.

* `Symbol` is the label of a plain grammar: it is its own key, and fills
  exactly the place that it equals.
* `FeatureSymbol` (`ChartParsing.Feature.Symbol`) carries feature structures,
  and fills the places that it unifies with.

Bounds on loops are powers of two that are given by their exponents, since the
powers themselves may be too large to write down.  A label type says in that
form how many labels can arise (`varietyBits`); `bitLength` turns a number into
such an exponent.
-/
import ChartParsing.Symbol

namespace ChartParsing

/-- A number of binary digits that suffices to write `n`. -/
def bitLength (n : Nat) : Nat := n.log2 + 1

theorem lt_pow_bitLength (n : Nat) : n < Nat.pow 2 (bitLength n) := Nat.lt_log2_self

/-- Both sides of an edge after its dot has moved over one more symbol. -/
structure Advance (L : Type) where
  lhs : L
  rhs : List L
  deriving DecidableEq

/-- Labels of edges and productions. -/
class Label (L : Type) where
  /-- The key that edges and productions with this label are filed under. -/
  key : L → Symbol
  /-- The label of the leaf edge over a token. -/
  terminal : String → L
  /-- The written form. -/
  text : L → String
  /-- Moves the dot of `lhs → rhs`, standing at `dot`, over a complete edge
  labelled `found`, if the label fits there. -/
  advance : (lhs : L) → (rhs : List L) → (dot : Nat) → (found : L) → Option (Advance L)
  /-- Whether a tree labelled `found` counts as one for `root`. -/
  acceptsRoot : (root found : L) → Bool
  /-- At most `2 ^ varietyBits ls` labels of one key can arise by advancing
  over edges whose labels are among `ls`. -/
  varietyBits : List L → Nat

namespace Label

variable {L : Type} [Label L]

/-- The token that a label matches, if it is a terminal. -/
def token? (l : L) : Option String := (key l).token?

end Label

namespace Symbol

/-- A plain symbol fills a place that asks for just that symbol. -/
def advance (lhs : Symbol) (rhs : List Symbol) (dot : Nat) (found : Symbol) :
    Option (Advance Symbol) :=
  if rhs[dot]? = some found then some ⟨lhs, rhs⟩ else none

instance : Label Symbol where
  key := id
  terminal := terminal
  text := text
  advance := advance
  acceptsRoot root found := root == found
  varietyBits _ := 0

end Symbol

end ChartParsing
