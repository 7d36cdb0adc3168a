/-
ChartParsing/Rule.lean

The inference rules of bottom-up left-corner parsing, by name.

Two rules are axioms and take no edge; the other two start from one edge.
What they derive is in `ChartParsing.Rule.Apply`.
-/

namespace ChartParsing

/-- An inference rule. -/
inductive Rule where
  /-- A leaf `[i:i+1] w` for each token `w` at position `i`. -/
  | leafInit
  /-- An edge `[i:i] A → •` for each empty production and each position, the end included. -/
  | emptyPredict
  /-- A complete `[i:j] B → γ •` gives `[i:j] A → B • β` for each production `A → B β`. -/
  | predictCombine
  /-- Two edges `[i:j] A → α • B β` and `[j:k] B → γ •` give `[i:k] A → α B • β`. -/
  | fundamental
  deriving DecidableEq

namespace Rule

/-- How many edges the rule is applied to. -/
def arity : Rule → Nat
  | leafInit | emptyPredict => 0
  | predictCombine | fundamental => 1

/-- The name that traces and messages show. -/
def text : Rule → String
  | leafInit => "Leaf Init"
  | emptyPredict => "Empty Predict"
  | predictCombine => "Bottom Up Predict Combine"
  | fundamental => "Single Edge Fundamental"

end Rule

end ChartParsing
