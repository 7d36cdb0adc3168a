/-
ChartParsing/Parser/Progress.lean

One application of a rule, as a parse goes through it.

Every application is counted and shown to an observer, with the chart as it is
after it and the edges that it changed.  An observer has a state of its own
and may fail; neither has any bearing on the parse.
-/
import ChartParsing.Rule.Apply

namespace ChartParsing

/-- Sees each application of a rule: the chart after it, the rule, and the ids
of the edges that it changed. -/
abbrev Observer (L σ ε : Type) [Label L] := Chart L → Rule → List EdgeId → ExceptT ε (StateM σ) Unit

/-- Sees everything and does nothing. -/
def Observer.idle {L : Type} [Label L] : Observer L Unit Unit := fun _ _ _ => pure ()

/-- How far a parse has come. -/
structure Progress (L σ : Type) [Label L] where
  chart : Chart L
  /-- How often a rule has been applied. -/
  applications : Nat
  /-- The observer's state. -/
  seen : σ

namespace Progress

variable {L σ ε : Type} [Label L]

/-- The start of a parse of the tokens. -/
def start (tokens : List String) (seen : σ) : Progress L σ := ⟨.new tokens, 0, seen⟩

/-- Counts an application that led to `chart`, and shows it to the observer. -/
def record (observer : Observer L σ ε) (applications : Nat) (seen : σ) (rule : Rule)
    (chart : Chart L) (changed : List EdgeId) : Progress L σ where
  chart := chart
  applications := applications + 1
  -- whether the observer failed makes no difference
  seen := (((observer chart rule changed).run).run seen).2

variable [DecidableEq L]

/-- Applies the rule to an edge, or to nothing. -/
def apply (g : Grammar L) (observer : Observer L σ ε) (p : Progress L σ) (rule : Rule)
    (id? : Option EdgeId) : Except ChartError (Progress L σ × List EdgeId) :=
  match p with
  | ⟨chart, applications, seen⟩ => do
    let (chart, changed) ← rule.apply g id? chart
    .ok (record observer applications seen rule chart changed, changed)

/-- Applies the rule wherever it can be, which counts once. -/
def applyEverywhere (g : Grammar L) (observer : Observer L σ ε) (p : Progress L σ) (rule : Rule) :
    Except ChartError (Progress L σ × List EdgeId) :=
  match p with
  | ⟨chart, applications, seen⟩ => do
    let (chart, changed) ← rule.applyEverywhere g chart
    .ok (record observer applications seen rule chart changed, changed)

/-- Takes a progress through the rules one after the other, and collects what they changed. -/
def through (step : Progress L σ → Rule → Except ChartError (Progress L σ × List EdgeId)) :
    List Rule → Progress L σ → Except ChartError (Progress L σ × List EdgeId)
  | [], p => .ok (p, [])
  | rule :: rules, p => do
    let (p, changed) ← step p rule
    let (p, later) ← through step rules p
    .ok (p, changed ++ later)

end Progress

end ChartParsing
