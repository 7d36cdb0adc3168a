/-
ChartParsing/Diagram.lean

Charts as text: a header that names the tokens, then a row for each edge.

Every token has a column of the same width.  Position `k` is at character
`1 + k * width` of the header and of each row, so a row shows where its edge
starts and ends under the tokens it spans.  A row is a bar, the part before
the edge, the edge, the part after it, and another bar, with the edge itself
written behind.
-/
import ChartParsing.Chart

namespace ChartParsing.Diagram

variable {L : Type} [Label L]

/-- The same character again and again. -/
def fill (n : Nat) (c : Char) : List Char := List.replicate n c

/-- The same piece again and again. -/
def tile (n : Nat) (piece : List Char) : List Char := (List.replicate n piece).flatten

/-- A text cut or padded to `width`, in the middle.  Of an odd margin the left
side gets the greater part only if the width is odd as well. -/
def centered (s : List Char) (width : Nat) : List Char :=
  let kept := s.take width
  let margin := width - kept.length
  let left := margin / 2 + (if margin % 2 = 1 ∧ width % 2 = 1 then 1 else 0)
  fill left ' ' ++ kept ++ fill (margin - left) ' '

/-- The tokens in their columns; nothing at all for columns too narrow to hold any. -/
def headerChars (c : Chart L) (width : Nat) : List Char :=
  if width ≤ 1 then []
  else
    "|.".toList ++ c.tokens.flatMap (fun t => centered t.toList (width - 1) ++ ['.']) ++ ['|']

/-- The mark of an edge between the dots: `#` or `>` if it spans nothing, and
otherwise a line from its start to its end.  The line is double if the edge is
complete and spans the whole input. -/
def mark (c : Chart L) (e : Edge L) (width : Nat) : List Char :=
  if e.start = e.stop then [if e.isComplete then '#' else '>']
  else
    let whole := e.isComplete && e.start == 0 && e.stop == c.tokens.length
    let line := if whole then '=' else '-'
    ['['] ++ tile (e.stop - e.start - 1) (fill width line) ++ fill (width - 1) line ++
      [if e.isComplete then ']' else '>']

/-- The part of a row that lines up with the header. -/
def bar (c : Chart L) (e : Edge L) (width : Nat) : List Char :=
  let blank := fill (width - 1) ' '
  ['|'] ++ tile e.start ('.' :: blank) ++ mark c e width ++
    tile (c.tokens.length - e.stop) (blank ++ ['.']) ++ ['|']

/-- The header as a text. -/
def header (c : Chart L) (width : Nat) : String := String.ofList (headerChars c width)

/-- The row of an edge. -/
def row (c : Chart L) (e : Edge L) (width : Nat) : String :=
  String.ofList (bar c e width) ++ " " ++ e.text

/-- Shorter edges come first, and of equal length the ones that start earlier. -/
def before (e f : Edge L) : Bool :=
  e.length < f.length || (e.length == f.length && e.start ≤ f.start)

/-- The edges of a chart in the order of their rows; equal ones stay in order of discovery. -/
def sortedEdges (c : Chart L) : List (Edge L) := c.edges.mergeSort before

/-- The header, and a row for each edge, on lines of their own. -/
def text (c : Chart L) (width : Nat) : String :=
  header c width ++ String.join ((sortedEdges c).map fun e => "\n" ++ row c e width)

end ChartParsing.Diagram
