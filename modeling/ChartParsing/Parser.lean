/-
ChartParsing/Parser.lean

Parsing token lists with a grammar.

`chartParse` first makes sure that the grammar covers every token, and only
then fills a chart; `parse` reads the trees of the start label off it.
-/
import ChartParsing.Parser.Loop
import ChartParsing.Tree.Parses

namespace ChartParsing

/-- What a parse has cost: applications of rules, edges and child pointer lists. -/
structure Stats where
  applications : Nat
  edges : Nat
  pointers : Nat
  deriving DecidableEq

/-- A filled chart with its cost, and the observer's state after the last application. -/
structure Outcome (L σ : Type) [Label L] where
  chart : Chart L
  stats : Stats
  seen : σ

/-- A grammar and a way to fill charts with it. -/
structure Parser (L : Type) where
  grammar : Grammar L
  config : Config

namespace Parser

variable {L σ ε : Type} [Label L] [DecidableEq L]

/-- Fills a chart for the tokens under the eyes of an observer. -/
def chartParseWith (p : Parser L) (observer : Observer L σ ε) (seen : σ) (tokens : List String) :
    Except ChartError (Outcome L σ) := do
  p.grammar.checkCoverage tokens
  let (done, _) ← (Progress.start tokens seen).run p.grammar observer p.config
  .ok
    { chart := done.chart
      stats := ⟨done.applications, done.chart.size, done.chart.countPointers⟩
      seen := done.seen }

/-- Fills a chart for the tokens, unobserved. -/
def chartParse (p : Parser L) (tokens : List String) : Except ChartError (Outcome L Unit) :=
  p.chartParseWith .idle () tokens

/-- The parses of the tokens as the start label. -/
def parse (p : Parser L) (tokens : List String) : Except ChartError (List (Tree L)) := do
  let outcome ← p.chartParse tokens
  let parses ← outcome.chart.parses p.grammar.start
  parses.collect

/-- The parses of several token lists, or the first failure. -/
def parseAll (p : Parser L) (sentences : List (List String)) :
    Except ChartError (List (List (Tree L))) :=
  sentences.mapM p.parse

end Parser

end ChartParsing
