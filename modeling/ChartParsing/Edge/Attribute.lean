/-
ChartParsing/Edge/Attribute.lean

The attributes of edges, and constraints on them.

A chart is searched by the values of attributes: spans and dots as numbers,
labels by their keys, completeness as flags.  Attributes have a fixed order,
so that a set of them has one form whatever order it was named in.

A constraint pairs an attribute with a value of the kind that the attribute
takes.  `Constraint.named` checks both, the attribute's name first.
-/
import ChartParsing.Edge

namespace ChartParsing

/-- What an edge can be looked up by. -/
inductive Attribute where
  | start | stop | length | span | lhs | rhs | dot | nextSymbol | isComplete | isIncomplete
  deriving DecidableEq

/-- The value of an attribute, with keys in place of labels. -/
inductive AttributeValue where
  | position (i : Nat)
  | span (start stop : Nat)
  | flag (b : Bool)
  | key (k : Symbol)
  | keys (ks : List Symbol)
  /-- The next symbol of a complete edge. -/
  | noKey
  deriving DecidableEq

/-! ### The order of values -/

namespace AttributeValue

/-- The kind of a value, as a number; the two flags are kinds of their own. -/
def kind : AttributeValue → Nat
  | position _ => 0
  | span _ _ => 1
  | flag false => 2
  | flag true => 3
  | key _ => 4
  | keys _ => 5
  | noKey => 6

/-- The positions in a value. -/
def positions : AttributeValue → List Nat
  | position i => [i]
  | span i j => [i, j]
  | _ => []

/-- The keys in a value. -/
def symbols : AttributeValue → List Symbol
  | key k => [k]
  | keys ks => ks
  | _ => []

theorem eq_of_parts {v w : AttributeValue} (hkind : v.kind = w.kind)
    (hpositions : v.positions = w.positions) (hsymbols : v.symbols = w.symbols) : v = w := by
  rcases v with _ | _ | (_ | _) | _ | _ | _ <;> rcases w with _ | _ | (_ | _) | _ | _ | _ <;>
    simp_all [kind, positions, symbols]

/-- Values are ordered by kind; within a kind the positions or the keys decide. -/
def order : AttributeValue → AttributeValue → Ordering
  | position i, position i' => compare i i'
  | span i j, span i' j' => (compare i i').then (compare j j')
  | key k, key k' => compare k k'
  | keys ks, keys ks' => compare ks ks'
  | v, w => compare v.kind w.kind

instance : Ord AttributeValue := ⟨order⟩

/-- The order by parts: kinds, then positions, then keys. -/
def orderByParts : AttributeValue → AttributeValue → Ordering :=
  compareLex (compareOn kind) (compareLex (compareOn positions) (compareOn symbols))

theorem order_eq_orderByParts (v w : AttributeValue) : order v w = orderByParts v w := by
  rcases v with _ | _ | (_ | _) | _ | _ | _ <;> rcases w with _ | _ | (_ | _) | _ | _ | _ <;>
    simp [order, orderByParts, compareLex, compareOn, kind, positions, symbols,
      List.compare_cons_cons] <;> rfl

instance : Std.TransCmp orderByParts :=
  inferInstanceAs (Std.TransCmp
    (compareLex (compareOn kind) (compareLex (compareOn positions) (compareOn symbols))))

instance : Std.TransOrd AttributeValue :=
  have h : (compare : AttributeValue → AttributeValue → Ordering) = orderByParts :=
    funext fun v => funext fun w => order_eq_orderByParts v w
  show Std.TransCmp compare from h ▸ inferInstance

instance : Std.LawfulEqOrd AttributeValue where
  compare_self := Std.ReflOrd.compare_self
  eq_of_compare {v w} h := by
    have h : orderByParts v w = .eq := order_eq_orderByParts v w ▸ h
    simp only [orderByParts, compareLex_eq_eq, compareOn, Std.LawfulEqOrd.compare_eq_iff_eq] at h
    exact eq_of_parts h.1 h.2.1 h.2.2

end AttributeValue

namespace Attribute

/-- The attributes in their order. -/
def all : List Attribute :=
  [start, stop, length, span, lhs, rhs, dot, nextSymbol, isComplete, isIncomplete]

/-- The name of an attribute. -/
def text : Attribute → String
  | start => "start"
  | stop => "end"
  | length => "length"
  | span => "span"
  | lhs => "lhs"
  | rhs => "rhs"
  | dot => "dot"
  | nextSymbol => "nextsym"
  | isComplete => "is_complete"
  | isIncomplete => "is_incomplete"

/-- The attribute of that name; the next symbol has two names. -/
def ofName? (name : String) : Option Attribute :=
  if name = "next_symbol" then some nextSymbol else all.find? fun a => a.text = name

/-- The place of an attribute in the order. -/
def rank (a : Attribute) : Nat := all.idxOf a

/-- Whether the attribute takes values of this kind. -/
def admits : Attribute → AttributeValue → Bool
  | start, .position _ | stop, .position _ | length, .position _ | dot, .position _ => true
  | span, .span _ _ => true
  | lhs, .key _ => true
  | rhs, .keys _ => true
  | nextSymbol, .key _ | nextSymbol, .noKey => true
  | isComplete, .flag _ | isIncomplete, .flag _ => true
  | _, _ => false

end Attribute

namespace Edge

variable {L : Type} [Label L]

/-- The value of an attribute of an edge. -/
def valueOf (e : Edge L) : Attribute → AttributeValue
  | .start => .position e.start
  | .stop => .position e.stop
  | .length => .position e.length
  | .span => .span e.start e.stop
  | .lhs => .key (Label.key e.lhs)
  | .rhs => .keys (e.rhs.map Label.key)
  | .dot => .position e.dot
  | .nextSymbol =>
    match e.next? with
    | some l => .key (Label.key l)
    | none => .noKey
  | .isComplete => .flag e.isComplete
  | .isIncomplete => .flag e.isIncomplete

/-- Every attribute takes the values that edges have for it. -/
theorem admits_valueOf (e : Edge L) (a : Attribute) : a.admits (e.valueOf a) = true := by
  cases a <;> simp only [valueOf] <;> try rfl
  split <;> rfl

end Edge

/-! ### Constraints -/

/-- Why a search is refused. -/
inductive ConstraintFault where
  | unknownAttribute (name : String)
  | wrongKind (attr : Attribute)
  | repeated (attr : Attribute)
  deriving DecidableEq

/-- The message for a refused search. -/
def ConstraintFault.message : ConstraintFault → String
  | unknownAttribute name => "edges have no attribute `" ++ name ++ "`"
  | wrongKind a => "value of wrong kind for `" ++ a.text ++ "`"
  | repeated a => "`" ++ a.text ++ "` constrained more than once"

/-- An attribute and the value that an edge must have for it. -/
structure Constraint where
  attr : Attribute
  value : AttributeValue
  admitted : attr.admits value = true
  deriving DecidableEq

namespace Constraint

/-- The constraint, if the value is of the kind that the attribute takes. -/
def make (attr : Attribute) (value : AttributeValue) : Except ConstraintFault Constraint :=
  if h : attr.admits value = true then .ok ⟨attr, value, h⟩
  else .error (.wrongKind attr)

/-- The constraint on the attribute of that name. -/
def named (name : String) (value : AttributeValue) : Except ConstraintFault Constraint :=
  match Attribute.ofName? name with
  | some a => make a value
  | none => .error (.unknownAttribute name)

/-- The edge starts at `i`. -/
def start (i : Nat) : Constraint := ⟨.start, .position i, rfl⟩

/-- The edge ends at `j`. -/
def stop (j : Nat) : Constraint := ⟨.stop, .position j, rfl⟩

/-- The left-hand side has key `k`. -/
def lhs (k : Symbol) : Constraint := ⟨.lhs, .key k, rfl⟩

/-- The symbol after the dot has key `k`. -/
def nextSymbol (k : Symbol) : Constraint := ⟨.nextSymbol, .key k, rfl⟩

/-- The edge is complete, or it is not. -/
def isComplete (flag : Bool) : Constraint := ⟨.isComplete, .flag flag, rfl⟩

/-- Whether an edge has the value that the constraint asks for. -/
def holds {L : Type} [Label L] (c : Constraint) (e : Edge L) : Bool :=
  e.valueOf c.attr == c.value

end Constraint

end ChartParsing
