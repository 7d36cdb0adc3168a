/-
ChartParsing/Source/Statement.lean

The statements of a grammar text: a start directive or a production line on
each line, besides blank lines and comments.  Lines are counted from 1, the
ones that say nothing included.

A line feed ends a line, and belongs with the carriage return right before it,
if there is one, to no line.  Characters after the last line feed make one more
line, as they stand; a text that ends with a line feed has no empty line after
it.

A comment runs from a `#` to the end of its line.  Inside a quoted string a `#`
is an ordinary character; a string ends with the kind of quote that it began
with, and may hold the other kind.  A line whose last quote is not closed has
no comment after that quote.

The directive that names the start symbol is `%start`, white space, and the
symbol, with white space around all of it allowed.  Two blanks after `%start`
and nothing else make a directive too, with nothing where the symbol should be.
After a single one there is no directive.
-/
import ChartParsing.Source.Error

namespace ChartParsing

/-! ### Lines -/

namespace Text

/-- A line as collected before a line feed, last character first, without its carriage return. -/
def finished : List Char → List Char
  | '\r' :: cs => cs.reverse
  | cs => cs.reverse

/-- The lines of a text whose first line has begun with the characters
collected so far, last one first. -/
def linesFrom (collected : List Char) : List Char → List (List Char)
  | [] => if collected.isEmpty then [] else [collected.reverse]
  | c :: cs =>
    if c = '\n' then finished collected :: linesFrom [] cs else linesFrom (c :: collected) cs

/-- The lines of a text, without what ended them. -/
def lines (cs : List Char) : List (List Char) := linesFrom [] cs

end Text

/-! ### Comments -/

namespace Source

/-- What stands before the comment, if there is one; `quote` is the quote that
the first character is inside of. -/
def beforeComment? : (quote : Option Char) → List Char → Option (List Char)
  | _, [] => none
  | none, c :: cs =>
    if c = '#' then some []
    else
      (beforeComment? (if c = '\'' ∨ c = '"' then some c else none) cs).map fun kept => c :: kept
  | some q, c :: cs =>
    (beforeComment? (if c = q then none else some q) cs).map fun kept => c :: kept

/-- The line without its comment. -/
def stripComment (line : List Char) : List Char := (beforeComment? none line).getD line

/-! ### Statements -/

/-- The text where a start directive has its symbol, if the line is one. -/
def startArgument? (line : List Char) : Option (List Char) :=
  match line.dropWhile Text.isBlank with
  | '%' :: 's' :: 't' :: 'a' :: 'r' :: 't' :: rest =>
    let blanks := rest.takeWhile Text.isBlank
    let argument := Text.dropBlankEnd (rest.dropWhile Text.isBlank)
    if blanks.isEmpty then none
    else if argument.isEmpty && blanks.length < 2 then none
    else some argument
  | _ => none

/-- What a line that is not blank says. -/
inductive Statement where
  | start (symbol : WrittenSymbol)
  | productions (line : WrittenLine)
  deriving DecidableEq

/-- Reads a line without its comment; a blank one says nothing. -/
def readStatement? (line : List Char) : Except ReadingFault (Option Statement) :=
  if line.all Text.isBlank then .ok none
  else
    match startArgument? line with
    | some argument => (readSymbol argument).map fun symbol => some (.start symbol)
    | none => (readLine line).map fun line => some (.productions line)

/-- The statements of numbered lines, up to one that cannot be read. -/
def readNumbered : List (List Char × Nat) → Except LoadError (List (Nat × Statement))
  | [] => .ok []
  | (line, number) :: rest =>
    match readStatement? (stripComment line) with
    | .error fault => .error (.line number (.reading fault))
    | .ok statement? => do
      let later ← readNumbered rest
      .ok ((statement?.map fun s => (number, s)).toList ++ later)

/-- The statements of a text with the numbers of their lines. -/
def readText (text : String) : Except LoadError (List (Nat × Statement)) :=
  readNumbered ((Text.lines text.toList).zipIdx 1)

/-- The production lines, in order. -/
def productionLines (statements : List (Nat × Statement)) : List (Nat × WrittenLine) :=
  statements.filterMap fun
    | (number, .productions line) => some (number, line)
    | (_, .start _) => none

/-- The symbol of the last start directive. -/
def startSymbol? (statements : List (Nat × Statement)) : Option (Nat × WrittenSymbol) :=
  (statements.filterMap fun
    | (number, .start symbol) => some (number, symbol)
    | (_, .productions _) => none).getLast?

end Source

end ChartParsing
