/-
ChartParsing/Symbol.lean

Symbols of a context-free grammar: terminals, which match a token verbatim,
and nonterminals, which name a kind of phrase.  A symbol is also the key under
which edges and productions are looked up, whatever their labels carry besides
(`ChartParsing.Label`).

Symbols are ordered: terminals before nonterminals, and texts by code points.
The order is total, and only equal symbols compare as equal.
-/
import Std.Data.TreeMap.Lemmas

namespace ChartParsing

/-- A terminal or a nonterminal of a context-free grammar. -/
inductive Symbol where
  | terminal (token : String)
  | nonterminal (name : String)
  deriving DecidableEq

namespace Symbol

/-- A terminal in single quotes, a nonterminal as its bare name. -/
def text : Symbol → String
  | terminal t => "'" ++ t ++ "'"
  | nonterminal n => n

/-- The token that a terminal matches. -/
def token? : Symbol → Option String
  | terminal t => some t
  | nonterminal _ => none

/-- Terminals come before nonterminals; within each kind the texts decide. -/
def order : Symbol → Symbol → Ordering
  | terminal a, terminal b => compare a b
  | terminal _, nonterminal _ => .lt
  | nonterminal _, terminal _ => .gt
  | nonterminal a, nonterminal b => compare a b

instance : Ord Symbol := ⟨order⟩

instance : Std.TransOrd Symbol where
  eq_swap {a b} :=
    match a, b with
    | terminal a, terminal b => Std.OrientedOrd.eq_swap (a := a) (b := b)
    | terminal _, nonterminal _ => rfl
    | nonterminal _, terminal _ => rfl
    | nonterminal a, nonterminal b => Std.OrientedOrd.eq_swap (a := a) (b := b)
  isLE_trans {a b c} hab hbc :=
    match a, b, c with
    | terminal a, terminal b, terminal _ => Std.TransOrd.isLE_trans (a := a) (b := b) hab hbc
    | terminal _, _, nonterminal _ => rfl
    | terminal _, nonterminal _, terminal _ => Bool.noConfusion hbc
    | nonterminal _, terminal _, _ => Bool.noConfusion hab
    | nonterminal _, nonterminal _, terminal _ => Bool.noConfusion hbc
    | nonterminal a, nonterminal b, nonterminal _ =>
      Std.TransOrd.isLE_trans (a := a) (b := b) hab hbc

instance : Std.LawfulEqOrd Symbol where
  compare_self {a} :=
    match a with
    | terminal a => Std.ReflOrd.compare_self (a := a)
    | nonterminal a => Std.ReflOrd.compare_self (a := a)
  eq_of_compare {a b} h :=
    match a, b with
    | terminal a, terminal b =>
      congrArg terminal (Std.LawfulEqOrd.eq_of_compare (a := a) (b := b) h)
    | terminal _, nonterminal _ => Ordering.noConfusion h
    | nonterminal _, terminal _ => Ordering.noConfusion h
    | nonterminal a, nonterminal b =>
      congrArg nonterminal (Std.LawfulEqOrd.eq_of_compare (a := a) (b := b) h)

end Symbol

end ChartParsing
