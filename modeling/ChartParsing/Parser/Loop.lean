/-
ChartParsing/Parser/Loop.lean

The two loops that drive the rules to a fixpoint.

Under the agenda the axioms are applied once; then the edge that has waited
longest is offered to every other rule, and what changes waits in turn.  An
edge waits again whenever it gains a child pointer list.

Under full passes every rule is applied to every edge, pass after pass, until
a pass changes nothing.

Each round that changes anything adds a child pointer list, and there are only
so many (`Edge.pointerBits`), so that number bounds the rounds.  Each loop
returns what was left to do, the edges still waiting or those changed by the
last pass.
-/
import ChartParsing.Parser.Config
import ChartParsing.Parser.Progress
import ChartParsing.Queue

namespace ChartParsing

namespace Progress

variable {L σ ε : Type} [Label L] [DecidableEq L]

/-! ### The agenda -/

/-- A progress with the edges that wait to be offered to the rules. -/
structure Agenda (L σ : Type) [Label L] where
  progress : Progress L σ
  waiting : Queue EdgeId

/-- Offers the edge that has waited longest to the rules, and queues what changed. -/
def Agenda.turn (g : Grammar L) (observer : Observer L σ ε) (rules : List Rule)
    (agenda : Agenda L σ) : Except ChartError (Agenda L σ) :=
  match agenda with
  | ⟨p, waiting⟩ =>
    match waiting.next? with
    | none => .ok ⟨p, waiting⟩
    | some (id, waiting) => do
      let (p, changed) ← through (fun p rule => p.apply g observer rule (some id)) rules p
      .ok ⟨p, waiting.join changed⟩

/-- The axioms once, then the agenda until it is empty. -/
def runAgenda (g : Grammar L) (observer : Observer L σ ε) (config : Config) (p : Progress L σ) :
    Except ChartError (Progress L σ × List EdgeId) := do
  let bits := Edge.pointerBits (p.chart.seeds g) + 1
  let (p, changed) ← through (fun p rule => p.apply g observer rule none) config.initialRules p
  let done ← rounds (fun agenda => !agenda.waiting.isEmpty)
    (Agenda.turn g observer config.edgeRules) bits ⟨p, .ofList changed⟩
  .ok (done.progress, done.waiting.toList)

/-! ### Full passes -/

/-- Applies every rule everywhere, in turn. -/
def pass (g : Grammar L) (observer : Observer L σ ε) (rules : List Rule) (p : Progress L σ) :
    Except ChartError (Progress L σ × List EdgeId) :=
  through (fun p rule => p.applyEverywhere g observer rule) rules p

/-- Passes until one changes nothing. -/
def runPasses (g : Grammar L) (observer : Observer L σ ε) (config : Config) (p : Progress L σ) :
    Except ChartError (Progress L σ × List EdgeId) := do
  let bits := Edge.pointerBits (p.chart.seeds g) + 1
  let first ← pass g observer config.strategy p
  rounds (fun s => !s.2.isEmpty) (fun s => pass g observer config.strategy s.1) bits first

/-- Fills the chart under the loop that the configuration names. -/
def run (g : Grammar L) (observer : Observer L σ ε) (config : Config) (p : Progress L σ) :
    Except ChartError (Progress L σ × List EdgeId) :=
  match config.loopMode with
  | .agenda => p.runAgenda g observer config
  | .fullPass => p.runPasses g observer config

end Progress

end ChartParsing
