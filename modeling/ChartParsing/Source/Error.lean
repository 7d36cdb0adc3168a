/-
ChartParsing/Source/Error.lean

Why a grammar cannot be loaded, and the messages that say so.
-/
import ChartParsing.Source.Line
import ChartParsing.Symbol

namespace ChartParsing

/-- Why a line of a grammar is refused. -/
inductive LineFault where
  | reading (fault : Source.ReadingFault)
  | featuresInPlainGrammar
  | repeatedFeature (feature name : String)
  | terminalLhs (token : String)
  deriving DecidableEq

/-- Why a start label is refused. -/
inductive StartFault where
  | terminal (token : String)
  | unexpanded (label : String)
  deriving DecidableEq

/-- Why a grammar cannot be loaded; lines are counted from 1. -/
inductive LoadError where
  | noFile
  | notText
  | line (number : Nat) (fault : LineFault)
  | noProductions
  | badStart (fault : StartFault)
  deriving DecidableEq

/-- The message for a refused line. -/
def LineFault.message : LineFault → String
  | reading fault => fault.message
  | featuresInPlainGrammar => "feature structures are not allowed in a plain grammar"
  | repeatedFeature feature name => "feature " ++ feature ++ " given twice on " ++ name
  | terminalLhs token => "left-hand side " ++ (Symbol.terminal token).text ++ " is a terminal"

/-- The message for a refused start label. -/
def StartFault.message : StartFault → String
  | terminal token => (Symbol.terminal token).text ++ " is a terminal"
  | unexpanded label => "no production expands " ++ label

/-- The message for a grammar that cannot be loaded. -/
def LoadError.message : LoadError → String
  | noFile => "no such file"
  | notText => "the file is not UTF-8 text"
  | line number fault => "line " ++ toString number ++ ": " ++ fault.message
  | noProductions => "grammar has no productions"
  | badStart fault => "bad start symbol: " ++ fault.message

end ChartParsing
