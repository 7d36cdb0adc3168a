/-
ChartParsing/Parser/Config.lean

How a chart is filled: with which rules, in which order, and under which loop.
-/
import ChartParsing.Rule

namespace ChartParsing

/-- How rules are driven to a fixpoint. -/
inductive LoopMode where
  /-- Axioms once, then each changed edge is offered to the other rules, oldest first. -/
  | agenda
  /-- Every rule over every edge, again and again until a pass changes nothing. -/
  | fullPass
  deriving DecidableEq

/-- The name of a loop mode. -/
def LoopMode.text : LoopMode → String
  | agenda => "agenda"
  | fullPass => "full pass"

/-- The rules of bottom-up left-corner parsing, in their usual order. -/
def bottomUpStrategy : List Rule :=
  [.leafInit, .emptyPredict, .predictCombine, .fundamental]

/-- Which rules to apply and how. -/
structure Config where
  strategy : List Rule := bottomUpStrategy
  loopMode : LoopMode := .agenda
  /-- Characters available for a whole row of a textual trace. -/
  traceWidth : Nat := 50

namespace Config

/-- The rules of the strategy that take no edge, in order. -/
def initialRules (config : Config) : List Rule := config.strategy.filter fun r => r.arity = 0

/-- The rules of the strategy that take an edge, in order. -/
def edgeRules (config : Config) : List Rule := config.strategy.filter fun r => r.arity = 1

end Config

end ChartParsing
