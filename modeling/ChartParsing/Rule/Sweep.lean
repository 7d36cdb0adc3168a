/-
ChartParsing/Rule/Sweep.lean

Working through a cursor whose source grows on the way.

A sweep takes the next edge from a cursor, does one step with it, and goes on
until the cursor has nothing left, the edges that the steps themselves have
inserted included.  The number of rounds is bounded (`ChartParsing.Rounds`);
what comes back holds the cursor too, so that it can be said that nothing was
left.
-/
import ChartParsing.Chart.Cursor
import ChartParsing.Rounds

namespace ChartParsing

/-- Where a sweep has arrived: the chart, the cursor, and the ids of the edges
whose insertion changed the chart, in order. -/
structure Sweep (L : Type) [Label L] where
  chart : Chart L
  cursor : Cursor
  changed : Array EdgeId

namespace Sweep

variable {L : Type} [Label L]

/-- What is done with an edge: it may change the chart, and says at which edges. -/
abbrev Act (L : Type) [Label L] := Chart L → EdgeId → Except ChartError (Chart L × List EdgeId)

/-- Whether the cursor has an edge to deliver. -/
def pending (s : Sweep L) : Bool := (s.chart.next? s.cursor).isSome

/-- Does `act` with the next edge, if there is one. -/
def advance (act : Act L) (s : Sweep L) : Except ChartError (Sweep L) :=
  match s with
  | ⟨chart, cursor, changed⟩ =>
    match chart.next? cursor with
    | none => .ok ⟨chart, cursor, changed⟩
    | some (id, cursor) => do
      -- what the step inserts is there for the cursor to reach
      let (chart, more) ← act chart id
      .ok ⟨chart, cursor, changed ++ more⟩

/-- Does `act` with each edge that the cursor delivers, at most `2 ^ bits - 1` times. -/
def run (act : Act L) (bits : Nat) (chart : Chart L) (cursor : Cursor) :
    Except ChartError (Sweep L) :=
  rounds pending (advance act) bits ⟨chart, cursor, #[]⟩

end Sweep

end ChartParsing
