/-
ChartParsing/Tree.lean

Parse trees: tokens at the leaves, labels at the nodes.

A node without children stands for a symbol that has not been matched yet, or
for an empty production.
-/
import ChartParsing.Label

namespace ChartParsing

/-- A parse tree, complete or not. -/
inductive Tree (L : Type) where
  | leaf (token : String)
  | node (label : L) (children : List (Tree L))

namespace Tree

variable {L : Type}

/-- The label of a node. -/
def label? : Tree L → Option L
  | leaf _ => none
  | node l _ => some l

/-- The trees right under the root. -/
def children : Tree L → List (Tree L)
  | leaf _ => []
  | node _ ts => ts

mutual

/-- The tokens, from left to right. -/
def leaves : Tree L → List String
  | leaf t => [t]
  | node _ ts => leavesOf ts

/-- The tokens of several trees, from left to right. -/
def leavesOf : List (Tree L) → List String
  | [] => []
  | t :: ts => t.leaves ++ leavesOf ts

end

mutual

/-- A token as it is; a node in parentheses, its label before its children. -/
def text [Label L] : Tree L → String
  | leaf t => t
  | node l [] => "(" ++ Label.text l ++ " )"
  | node l (t :: ts) => "(" ++ Label.text l ++ " " ++ t.text ++ textOf ts ++ ")"

/-- Several trees, each after a space. -/
def textOf [Label L] : List (Tree L) → String
  | [] => ""
  | t :: ts => " " ++ t.text ++ textOf ts

end

end Tree

end ChartParsing
