/-
ChartParsing/Edge.lean

Edges: hypotheses that a production matches a stretch of the input.

An edge `[i:j] A → α • β` claims that `α` derives the tokens from `i` up to
`j`.  It is complete once `β` is empty.  The leaf edge over a token has no
right-hand side and spans one position, which no edge from a production does:
one whose right-hand side is empty spans nothing.

A span never runs backwards and a dot never stands past the end; both facts
are part of the type.  `Edge.make` says which of them fails, the span first.
-/
import ChartParsing.Grammar.Production

namespace ChartParsing

/-- The place of an edge in the order in which a chart discovered its edges. -/
abbrev EdgeId := Nat

/-- A span with labels and a dot. -/
structure Edge (L : Type) where
  /-- The position before the first token. -/
  start : Nat
  /-- The position after the last token. -/
  stop : Nat
  lhs : L
  rhs : List L
  /-- How many symbols of the right-hand side have been matched. -/
  dot : Nat
  start_le_stop : start ≤ stop
  dot_le_length : dot ≤ rhs.length
  deriving DecidableEq

/-- Why a span and a dot do not make an edge. -/
inductive EdgeFault where
  | backwards (start stop : Nat)
  | dotPastEnd (dot length : Nat)
  deriving DecidableEq

/-- The message for an impossible edge. -/
def EdgeFault.message : EdgeFault → String
  | backwards start stop =>
    "edge span " ++ toString start ++ ".." ++ toString stop ++ " runs backwards"
  | dotPastEnd dot length =>
    "dot " ++ toString dot ++ " past right-hand side of length " ++ toString length

namespace Edge

variable {L : Type}

/-! ### Making edges -/

/-- The edge with this span, these labels and this dot, if there is one. -/
def make (start stop : Nat) (lhs : L) (rhs : List L) (dot : Nat) : Except EdgeFault (Edge L) :=
  if hspan : start ≤ stop then
    if hdot : dot ≤ rhs.length then .ok ⟨start, stop, lhs, rhs, dot, hspan, hdot⟩
    else .error (.dotPastEnd dot rhs.length)
  else .error (.backwards start stop)

/-- The complete edge over the token at `index`. -/
def leaf [Label L] (token : String) (index : Nat) : Edge L :=
  ⟨index, index + 1, Label.terminal token, [], 0, Nat.le_succ index, Nat.le_refl 0⟩

/-- The edge `[i:i] A → • α`, which has matched nothing yet. -/
def ofProduction (p : Production L) (index : Nat) : Edge L :=
  ⟨index, index, p.lhs, p.rhs, 0, Nat.le_refl index, Nat.zero_le _⟩

/-- The edge with its dot moved over one more symbol, now ending at `stop`. -/
def moveDot (e : Edge L) (stop : Nat) (a : Advance L) : Except EdgeFault (Edge L) :=
  make e.start stop a.lhs a.rhs (e.dot + 1)

/-! ### Reading edges -/

/-- The number of tokens spanned. -/
def length (e : Edge L) : Nat := e.stop - e.start

/-- Whether every symbol of the right-hand side has been matched. -/
def isComplete (e : Edge L) : Bool := e.dot == e.rhs.length

/-- Whether some symbol is still to be matched. -/
def isIncomplete (e : Edge L) : Bool := !e.isComplete

/-- Whether the edge has the shape of a leaf: nothing to match, over one token. -/
def isLeaf (e : Edge L) : Bool := e.rhs.isEmpty && e.length == 1

/-- The symbol after the dot. -/
def next? (e : Edge L) : Option L := e.rhs[e.dot]?

/-- The symbols that are still to be matched. -/
def unmatched (e : Edge L) : List L := e.rhs.drop e.dot

/-- Every label of the edge, the left-hand side first. -/
def labels (e : Edge L) : List L := e.lhs :: e.rhs

/-- The span, the left-hand side and, for all but leaves, the right-hand side with its dot. -/
def text [Label L] (e : Edge L) : String :=
  let head := "[" ++ toString e.start ++ ":" ++ toString e.stop ++ "] " ++ Label.text e.lhs
  let row (ls : List L) := String.join (ls.map fun l => " " ++ Label.text l)
  if e.isLeaf then head else head ++ " ->" ++ row (e.rhs.take e.dot) ++ " *" ++ row e.unmatched

end Edge

end ChartParsing
