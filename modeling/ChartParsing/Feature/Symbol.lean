/-
ChartParsing/Feature/Symbol.lean

Labels with feature structures.

A feature symbol is a terminal or a category.  It is filed under its coarse
part, the token or the category's name.  Moving a dot over a complete phrase
unifies the category at the dot with the phrase's, and substitutes what was
bound on both sides of the production, so that agreement reaches the parent
and the places still to be filled.
-/
import ChartParsing.Feature.Unification
import ChartParsing.Label

namespace ChartParsing

/-- A terminal, or a category with features. -/
inductive FeatureSymbol where
  | terminal (token : String)
  | category (c : Category)
  deriving DecidableEq

namespace FeatureSymbol

/-- The token, or the category's name. -/
def key : FeatureSymbol → Symbol
  | terminal t => .terminal t
  | category c => .nonterminal c.name

/-- A terminal in single quotes, or the category. -/
def text : FeatureSymbol → String
  | terminal t => "'" ++ t ++ "'"
  | category c => c.text

/-- Terminals come before categories. -/
def order : FeatureSymbol → FeatureSymbol → Ordering
  | terminal a, terminal b => compare a b
  | terminal _, category _ => .lt
  | category _, terminal _ => .gt
  | category c, category d => compare c d

instance : Ord FeatureSymbol := ⟨order⟩

/-- Puts the atoms bound in `b` for their variables. -/
def substitute (b : Bindings) : FeatureSymbol → FeatureSymbol
  | terminal t => terminal t
  | category c => category (c.substitute b)

/-- The features of a label; none for a terminal. -/
def features : FeatureSymbol → FeatureMap
  | terminal _ => .empty
  | category c => c.features

/-! ### Advancing -/

/-- Moves the dot over a phrase that fits: an equal terminal, or a category
that unifies with the expected one.  The place at the dot takes the merged
category, and the bindings go through all the rest. -/
def advance (lhs : FeatureSymbol) (rhs : List FeatureSymbol) (dot : Nat) (found : FeatureSymbol) :
    Option (Advance FeatureSymbol) :=
  match rhs[dot]?, found with
  | some (terminal a), terminal b => if a = b then some ⟨lhs, rhs⟩ else none
  | some (category expected), category found =>
    match expected.unify found .empty with
    | (b, some merged) =>
      some ⟨lhs.substitute b, (rhs.map (substitute b)).set dot (category merged)⟩
    | (_, none) => none
  | _, _ => none

/-- A root is accepted if it unifies with the one that was asked for. -/
def acceptsRoot : (root found : FeatureSymbol) → Bool
  | category r, category f => (r.unify f .empty).2.isSome
  | r, f => r == f

/-- Advancing over labels makes no new features and no new values, so a label
of a given key is settled by a value, or none, for each feature in sight. -/
def varietyBits (labels : List FeatureSymbol) : Nat :=
  let inSight := labels.foldl (fun n l => n + l.features.entries.length) 0
  inSight * bitLength inSight

instance : Label FeatureSymbol where
  key := key
  terminal := terminal
  text := text
  advance := advance
  acceptsRoot := acceptsRoot
  varietyBits := varietyBits

end FeatureSymbol

end ChartParsing
