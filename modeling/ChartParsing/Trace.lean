/-
ChartParsing/Trace.lean

The textual trace of a parse: an observer that writes the chart as it grows.

The tokens come once, as a header; then, for each application of a rule that
changed anything, the rule's name if asked for, and a row for each edge that
it changed.  A verbosity of 0 writes nothing.

Rows go into a sink that may have room for only so many.  A row that does not
fit ends the call that would write it, which fails; the header is tried again
by every later call until it has been written.
-/
import ChartParsing.Diagram
import ChartParsing.Parser.Progress

namespace ChartParsing.Trace

/-- The rows written so far, the latest first, and how many more there is room
for, if that is limited. -/
structure Sink where
  written : List String
  room : Option Nat

/-- Why a call of the tracing observer fails. -/
inductive Fault where
  | sinkFull
  | chart (error : ChartError)
  deriving DecidableEq

/-- The sink, and whether the header has been written to it. -/
structure State where
  sink : Sink
  headed : Bool

/-- The state before the first call, with a sink that is still empty. -/
def State.start (room : Option Nat) : State := ⟨⟨[], room⟩, false⟩

/-- The rows written so far, in order. -/
def Sink.rows (s : Sink) : List String := s.written.reverse

/-- What was written, each row ended. -/
def Sink.text (s : Sink) : String := String.join (s.rows.map fun r => r ++ "\n")

/-- Adds a row, if there is room. -/
def Sink.write (s : Sink) (row : String) : Option Sink :=
  match s.room with
  | none => some ⟨row :: s.written, none⟩
  | some (n + 1) => some ⟨row :: s.written, some n⟩
  | some 0 => none

/-- Writes a row, or fails and leaves the sink as it is. -/
def write (row : String) : ExceptT Fault (StateM State) Unit := do
  let s ← get
  match s.sink.write row with
  | some sink => set { s with sink }
  | none => throw .sinkFull

variable {L : Type} [Label L]

/-- Writes the header, unless it has been written. -/
def writeHeader (c : Chart L) (width : Nat) : ExceptT Fault (StateM State) Unit := do
  if (← get).headed then pure ()
  else do
    write (Diagram.header c width)
    modify fun s => { s with headed := true }

/-- Writes a row for each edge. -/
def writeRows (c : Chart L) (width : Nat) : List EdgeId → ExceptT Fault (StateM State) Unit
  | [] => pure ()
  | id :: ids => do
    match c.edge id with
    | .ok e => write (Diagram.row c e width)
    | .error error => throw (.chart error)
    writeRows c width ids

/-- Traces a parse in rows of about `traceWidth` characters. -/
def observer (verbosity traceWidth : Nat) : Observer L State Fault := fun c rule changed =>
  if verbosity = 0 ∨ changed = [] then pure ()
  else do
    let width := traceWidth / (c.tokens.length + 1)
    writeHeader c width
    if 1 < verbosity then write (rule.text ++ ":")
    writeRows c width changed

end ChartParsing.Trace
