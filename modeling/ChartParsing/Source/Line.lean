/-
ChartParsing/Source/Line.lean

The form of a grammar line, read token by token.

    line         ::=  symbol "->" alternative ("|" alternative)*
    alternative  ::=  symbol*
    symbol       ::=  quoted  |  name  |  name "[" features "]"
    features     ::=  (feature ",")* feature?
    feature      ::=  name "=" value  |  "+" name  |  "-" name
    value        ::=  name  |  quoted  |  variable

A reader is a stage that each token moves on.  Every stage can be completed,
so the first token that a stage does not take is the first one that no line
can go on with.  Such a token is the fault, and text without a token only if
no token before it was; a text that ends too early is faulty at its end.
-/
import ChartParsing.Feature.Category
import ChartParsing.Source.Token

namespace ChartParsing.Source

/-! ### What is read -/

/-- A symbol as written, before it is known what labels the grammar has. -/
inductive WrittenSymbol where
  | terminal (token : String)
  | category (name : String) (features : List (String × FeatureValue))
  deriving DecidableEq

/-- A production line: a left-hand side and its alternatives. -/
structure WrittenLine where
  lhs : WrittenSymbol
  alternatives : List (List WrittenSymbol)
  deriving DecidableEq

/-- Why a text cannot be read. -/
inductive ReadingFault where
  | unexpectedToken (lexeme : String) (start stop : Nat)
  | unexpectedEnd (offset : Nat)
  | noToken (offset : Nat)
  deriving DecidableEq

/-- The message for a text that cannot be read: what stands in the way and where.
Which tokens could have stood there in its place is not part of it; that is what
the stages of the reader say. -/
def ReadingFault.message : ReadingFault → String
  | unexpectedToken lexeme start stop =>
    "Unrecognized token `" ++ lexeme ++ "` found at " ++ toString start ++ ":" ++ toString stop
  | unexpectedEnd offset => "Unrecognized EOF found at " ++ toString offset
  | noToken offset => "Invalid token at " ++ toString offset

/-! ### Reading a symbol -/

/-- How far the features in brackets have been read. -/
inductive FeatureStage where
  /-- A feature or the end may follow. -/
  | ready
  /-- A sign has been read; the feature's name must follow. -/
  | signed (sign : String)
  /-- A name has been read; an equals sign must follow. -/
  | named (feature : String)
  /-- An equals sign has been read; a value must follow. -/
  | valued (feature : String)
  /-- A feature has been read; a comma or the end must follow. -/
  | given
  deriving DecidableEq

/-- How far a symbol has been read. -/
inductive SymbolStage where
  | start
  /-- A name, which features may follow. -/
  | named (name : String)
  | features (name : String) (given : List (String × FeatureValue)) (stage : FeatureStage)
  /-- A symbol that nothing can be added to. -/
  | closed (symbol : WrittenSymbol)
  deriving DecidableEq

namespace SymbolStage

/-- The stage after one more token inside the brackets. -/
def feedFeature (name : String) (given : List (String × FeatureValue)) :
    FeatureStage → Token → Option SymbolStage
  | .ready, .name f => some (features name given (.named f))
  | .ready, .plus => some (features name given (.signed "+"))
  | .ready, .minus => some (features name given (.signed "-"))
  | .ready, .closeBracket => some (closed (.category name given))
  | .signed sign, .name f => some (features name (given ++ [(f, .atom sign)]) .given)
  | .named f, .equals => some (features name given (.valued f))
  | .valued f, .name a => some (features name (given ++ [(f, .atom a)]) .given)
  | .valued f, .quoted a => some (features name (given ++ [(f, .atom a)]) .given)
  | .valued f, .var x => some (features name (given ++ [(f, .var x)]) .given)
  | .given, .comma => some (features name given .ready)
  | .given, .closeBracket => some (closed (.category name given))
  | _, _ => none

/-- The stage after one more token, if the symbol can go on with it. -/
def feed : SymbolStage → Token → Option SymbolStage
  | start, .quoted t => some (closed (.terminal t))
  | start, .name n => some (named n)
  | named n, .openBracket => some (features n [] .ready)
  | features n given stage, token => feedFeature n given stage token
  | _, _ => none

/-- The symbol read, if it may end here. -/
def result? : SymbolStage → Option WrittenSymbol
  | named n => some (.category n [])
  | closed symbol => some symbol
  | _ => none

end SymbolStage

/-! ### Reading a line -/

/-- How far a line has been read. -/
inductive LineStage where
  | lhs (stage : SymbolStage)
  /-- Past the arrow: the alternatives ended, the symbols of the current one,
  and the symbol being read. -/
  | rhs (lhs : WrittenSymbol) (ended : List (List WrittenSymbol)) (current : List WrittenSymbol)
      (stage : SymbolStage)
  deriving DecidableEq

namespace LineStage

/-- The symbols of an alternative whose last symbol is at `stage`, if it may end there. -/
def settle (current : List WrittenSymbol) (stage : SymbolStage) : Option (List WrittenSymbol) :=
  match stage with
  | .start => some current
  | stage => stage.result?.map fun symbol => current ++ [symbol]

/-- The stage after one more token that does not belong to the symbol being read. -/
def feedBetween (lhs : WrittenSymbol) (ended : List (List WrittenSymbol))
    (current : List WrittenSymbol) : Token → Option LineStage
  | .bar => some (rhs lhs (ended ++ [current]) [] .start)
  | token => (SymbolStage.start.feed token).map (rhs lhs ended current)

/-- The stage after one more token, if the line can go on with it. -/
def feed : LineStage → Token → Option LineStage
  | lhs stage, token =>
    match stage.feed token, stage.result?, token with
    | some stage, _, _ => some (lhs stage)
    | none, some symbol, .arrow => some (rhs symbol [] [] .start)
    | none, _, _ => none
  | rhs symbol ended current stage, token =>
    match stage.feed token with
    | some stage => some (rhs symbol ended current stage)
    | none => (settle current stage).bind fun current => feedBetween symbol ended current token

/-- The line read, if it may end here. -/
def result? : LineStage → Option WrittenLine
  | lhs _ => none
  | rhs symbol ended current stage =>
    (settle current stage).map fun current => ⟨symbol, ended ++ [current]⟩

end LineStage

/-! ### Reading a text -/

/-- Moves a stage on through the tokens, up to one that it does not take. -/
def feedAll {σ : Type} (feed : σ → Token → Option σ) : σ → List Located → Except ReadingFault σ
  | stage, [] => .ok stage
  | stage, t :: ts =>
    match feed stage t.token with
    | some stage => feedAll feed stage ts
    | none => .error (.unexpectedToken (String.ofList t.lexeme) t.start t.stop)

/-- Where the last token ends; the start of the text if there is none. -/
def lastStop (tokens : List Located) : Nat := (tokens.getLast?.map Located.stop).getD 0

/-- Reads a whole text, from a first stage to a result. -/
def readWith {σ α : Type} (feed : σ → Token → Option σ) (result? : σ → Option α) (start : σ)
    (cs : List Char) : Except ReadingFault α := do
  let lexed := lex cs
  -- the tokens before a place without a token count first
  let stage ← feedAll feed start lexed.tokens
  match lexed.invalidAt, result? stage with
  | some offset, _ => .error (.noToken offset)
  | none, some a => .ok a
  | none, none => .error (.unexpectedEnd (lastStop lexed.tokens))

/-- Reads a symbol. -/
def readSymbol (cs : List Char) : Except ReadingFault WrittenSymbol :=
  readWith SymbolStage.feed SymbolStage.result? .start cs

/-- Reads a production line. -/
def readLine (cs : List Char) : Except ReadingFault WrittenLine :=
  readWith LineStage.feed LineStage.result? (.lhs .start) cs

end ChartParsing.Source
