/-
ChartParsing/Proofs/Parser/Correspondence.lean

Parses that go the same way.

A progress may be carried over into another one that shows something else of
the same parse: other labels, or another observer.  If every application of a
rule does to what is carried over what it does to what is there
(`Progress.Carries`), then so do the loops, for all that they go by is which
ids an application reports (`Carries.run`).
-/
import ChartParsing.Parser.Loop
import ChartParsing.Proofs.Relabel.Steps

namespace ChartParsing

namespace Progress

variable {L L' σ σ' ε ε' : Type} [Label L] [Label L'] {h : Progress L σ → Progress L' σ'}

/-- The result of a step, carried over. -/
def carry {α : Type} (h : Progress L σ → Progress L' σ') (r : Progress L σ × α) :
    Progress L' σ' × α :=
  (h r.1, r.2)

/-- Steps that correspond, one rule after the other. -/
theorem through_carry {step : Progress L σ → Rule → Except ChartError (Progress L σ × List EdgeId)}
    {step' : Progress L' σ' → Rule → Except ChartError (Progress L' σ' × List EdgeId)}
    (hstep : ∀ p rule, step' (h p) rule = (step p rule).map (carry h)) (rules : List Rule)
    (p : Progress L σ) : through step' rules (h p) = (through step rules p).map (carry h) := by
  induction rules generalizing p with
  | nil => rfl
  | cons rule rules ih =>
    refine bind_map_comm (hstep p rule) fun r => ?_
    obtain ⟨p, changed⟩ := r
    exact bind_map_comm (ih p) fun r => rfl

variable [DecidableEq L] [DecidableEq L']

/-- Applications, and the bounds on how often there can be any, are carried over. -/
structure Carries (h : Progress L σ → Progress L' σ') (g : Grammar L) (observer : Observer L σ ε)
    (g' : Grammar L') (observer' : Observer L' σ' ε') : Prop where
  apply : ∀ rule id? p,
    (h p).apply g' observer' rule id? = (p.apply g observer rule id?).map (carry h)
  applyEverywhere : ∀ rule p,
    (h p).applyEverywhere g' observer' rule = (p.applyEverywhere g observer rule).map (carry h)
  pointerBits : ∀ p : Progress L σ,
    Edge.pointerBits ((h p).chart.seeds g') = Edge.pointerBits (p.chart.seeds g)

/-- An agenda, carried over. -/
def Agenda.carry (h : Progress L σ → Progress L' σ') (agenda : Agenda L σ) : Agenda L' σ' :=
  ⟨h agenda.progress, agenda.waiting⟩

namespace Carries

variable {g : Grammar L} {observer : Observer L σ ε} {g' : Grammar L'}
  {observer' : Observer L' σ' ε'} (hc : Carries h g observer g' observer')

include hc

/-- One edge, or none, is offered to one rule after the other. -/
theorem offer (id? : Option EdgeId) (rules : List Rule) (p : Progress L σ) :
    through (fun p rule => p.apply g' observer' rule id?) rules (h p) =
      (through (fun p rule => p.apply g observer rule id?) rules p).map (Progress.carry h) :=
  through_carry (fun p rule => hc.apply rule id? p) rules p

theorem pass (rules : List Rule) (p : Progress L σ) :
    Progress.pass g' observer' rules (h p) =
      (Progress.pass g observer rules p).map (Progress.carry h) :=
  through_carry (fun p rule => hc.applyEverywhere rule p) rules p

theorem turn (rules : List Rule) (agenda : Agenda L σ) :
    (agenda.carry h).turn g' observer' rules =
      (agenda.turn g observer rules).map (Agenda.carry h) := by
  obtain ⟨p, waiting⟩ := agenda
  show Agenda.turn g' observer' rules ⟨h p, waiting⟩ = _
  rw [Agenda.turn, Agenda.turn]
  cases waiting.next? with
  | none => rfl
  | some next => exact bind_map_comm (hc.offer (some next.1) rules p) fun r => rfl

theorem runAgenda (config : Config) (p : Progress L σ) :
    (h p).runAgenda g' observer' config =
      (p.runAgenda g observer config).map (Progress.carry h) := by
  rw [Progress.runAgenda, Progress.runAgenda, hc.pointerBits]
  refine bind_map_comm (hc.offer none config.initialRules p) fun r => ?_
  obtain ⟨p, changed⟩ := r
  exact bind_map_comm (rounds_map_comm (h := Agenda.carry h) (fun agenda => rfl)
    (fun agenda => hc.turn config.edgeRules agenda) _ ⟨p, .ofList changed⟩) fun agenda => rfl

theorem runPasses (config : Config) (p : Progress L σ) :
    (h p).runPasses g' observer' config =
      (p.runPasses g observer config).map (Progress.carry h) := by
  rw [Progress.runPasses, Progress.runPasses, hc.pointerBits]
  refine bind_map_comm (hc.pass config.strategy p) fun first => ?_
  exact rounds_map_comm (h := Progress.carry h) (fun s => rfl)
    (fun s => hc.pass config.strategy s.1) _ first

/-- Either loop goes the same way. -/
theorem run (config : Config) (p : Progress L σ) :
    (h p).run g' observer' config = (p.run g observer config).map (Progress.carry h) := by
  rw [Progress.run, Progress.run]
  cases config.loopMode with
  | agenda => exact hc.runAgenda config p
  | fullPass => exact hc.runPasses config p

end Carries

end Progress

end ChartParsing
