/-
ChartParsing/Error.lean

What can go wrong when a chart is filled, searched or read, and the messages
that say so.
-/
import ChartParsing.Edge.Attribute
import ChartParsing.Rule
import ChartParsing.Text.Quoted

namespace ChartParsing

/-- Why an operation on a chart failed. -/
inductive ChartError where
  /-- No production matches the token at this position. -/
  | uncoveredToken (token : String) (position : Nat)
  | invalidConstraint (fault : ConstraintFault)
  /-- A child pointer list names an edge that the chart does not have. -/
  | danglingChild (child : EdgeId)
  | edgeNotInChart (edge : EdgeId)
  /-- An axiom was given an edge, or another rule was given none. -/
  | ruleArity (rule : Rule) (given : Nat)
  /-- A span and a dot that make no edge. -/
  | impossibleEdge (fault : EdgeFault)
  deriving DecidableEq

/-- How messages name an edge. -/
def EdgeId.text (id : EdgeId) : String := "edge #" ++ toString id

namespace ChartError

/-- The message for an error. -/
def message : ChartError → String
  | uncoveredToken token position =>
    "grammar does not cover token " ++ Text.quoted token ++ " at position " ++ toString position
  | invalidConstraint fault => "invalid chart constraint: " ++ fault.message
  | danglingChild child =>
    "child pointer list references " ++ EdgeId.text child ++ ", which is not in the chart"
  | edgeNotInChart edge => EdgeId.text edge ++ " is not an edge of this chart"
  | ruleArity rule given =>
    rule.text ++ " takes " ++ toString rule.arity ++ " edge(s), given " ++ toString given
  | impossibleEdge fault => fault.message

end ChartError

end ChartParsing
