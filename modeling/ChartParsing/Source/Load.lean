/-
ChartParsing/Source/Load.lean

Grammars from their textual form.

Loading goes in three rounds, and a fault of an earlier round comes before any
fault of a later one:

* every line is read (`Source.readText`);
* the symbols of the production lines are resolved to labels, line by line;
* the start label is settled: the symbol of the last directive, or else the
  first left-hand side.
-/
import ChartParsing.Grammar
import ChartParsing.Source.Resolve
import ChartParsing.Source.Statement

namespace ChartParsing

namespace Source

/-! ### Resolving all lines -/

variable {L : Type} [Label L] [Resolve L]

/-- The label that a symbol of a line stands for. -/
def resolveAt (number : Nat) (symbol : WrittenSymbol) : Except LoadError L :=
  (Resolve.resolve symbol).mapError (.line number)

/-- The left-hand side of a line and its productions. -/
def resolveLine (number : Nat) (line : WrittenLine) :
    Except LoadError (L × List (Production L)) := do
  let lhs ← resolveAt number line.lhs
  match Label.token? lhs with
  | some token => .error (.line number (.terminalLhs token))
  | none =>
    let productions ← line.alternatives.mapM fun alternative => do
      let rhs ← alternative.mapM (resolveAt number)
      .ok ⟨lhs, rhs⟩
    .ok (lhs, productions)

/-- The start label: of the last directive, or else the left-hand side of the first line. -/
def resolveStart (directive : Option (Nat × WrittenSymbol)) (first : Option L) :
    Except LoadError L :=
  match directive, first with
  | some (number, symbol), _ => resolveAt number symbol
  | none, some lhs => .ok lhs
  | none, none => .error .noProductions

/-- The grammar with that start, if the start can be expanded. -/
def checkStart (start : L) (productions : List (Production L)) : Except LoadError (Grammar L) :=
  if productions.isEmpty then .error .noProductions
  else
    match Label.token? start with
    | some token => .error (.badStart (.terminal token))
    | none =>
      if productions.any fun p => Label.key p.lhs == Label.key start then
        .ok (Grammar.ofList start productions)
      else .error (.badStart (.unexpanded (Label.text start)))

end Source

namespace Grammar

variable {L : Type} [Label L] [Resolve L]

/-- The grammar that a text describes. -/
def ofText (text : String) : Except LoadError (Grammar L) := do
  let statements ← Source.readText text
  let lines ← (Source.productionLines statements).mapM fun p => Source.resolveLine p.1 p.2
  -- only the last directive is ever resolved
  let start ← Source.resolveStart (Source.startSymbol? statements) (lines.head?.map Prod.fst)
  Source.checkStart start (lines.flatMap Prod.snd)

/-- The grammar that a file describes, given its contents, if there is such a file. -/
def ofFile : (contents : Option ByteArray) → Except LoadError (Grammar L)
  | none => .error .noFile
  | some bytes =>
    match String.fromUTF8? bytes with
    | none => .error .notText
    | some text => ofText text

end Grammar

end ChartParsing
