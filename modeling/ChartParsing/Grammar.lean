/-
ChartParsing/Grammar.lean

A grammar: a start label and an ordered list of productions.

The label type settles the kind of grammar: `Grammar Symbol` is a plain
context-free grammar, `Grammar FeatureSymbol` one with feature structures.
-/
import ChartParsing.Error
import ChartParsing.Feature.Symbol

namespace ChartParsing

/-- A start label and productions. -/
structure Grammar (L : Type) where
  start : L
  index : ProductionIndex L

namespace Grammar

variable {L : Type} [Label L]

/-- The grammar with these productions, in this order. -/
def ofList (start : L) (productions : List (Production L)) : Grammar L :=
  ⟨start, .ofList productions⟩

/-- The productions, in grammar order. -/
def productions (g : Grammar L) : List (Production L) := g.index.all

/-- Fails on the first token that no production can match. -/
def checkCoverage (g : Grammar L) (tokens : List String) : Except ChartError Unit :=
  match tokens.zipIdx.find? fun p => !g.index.covers p.1 with
  | some (token, position) => .error (.uncoveredToken token position)
  | none => .ok ()

end Grammar

end ChartParsing
