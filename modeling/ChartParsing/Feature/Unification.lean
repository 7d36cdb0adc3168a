/-
ChartParsing/Feature/Unification.lean

Flat unification: does a complete phrase fit the category an edge waits for?

Variables belong to the production that the waiting edge grew from.  Where the
expected category has a variable and the found one an atom, the variable is
bound to the atom.  A variable of the *found* category is a wildcard: it fits
anything, binds nothing, and is not copied into the merged category.

`Category.mergeEntries` goes through the expected features in order.  It binds
as it goes, so a clash leaves the bindings made before it, and it gives each
feature the value that it comes to at that moment.  A variable may be bound
only by a later feature; so the category that comes out, completed by the atoms
of the found one, is put under the final bindings last of all.
-/
import ChartParsing.Feature.Category

namespace ChartParsing

/-! ### Bindings -/

/-- Atoms bound to variables, the latest first. -/
structure Bindings where
  pairs : List (String × String)

namespace Bindings

/-- Nothing bound. -/
def empty : Bindings := ⟨[]⟩

/-- The atom paired with `x` in a list of bindings. -/
def find? (x : String) : List (String × String) → Option String
  | [] => none
  | (y, a) :: rest => if y = x then some a else find? x rest

/-- The atom bound to a variable. -/
def get? (b : Bindings) (x : String) : Option String := find? x b.pairs

/-- Whether nothing is bound. -/
def isEmpty (b : Bindings) : Bool := b.pairs.isEmpty

/-- Binds a variable that is not bound yet. -/
def bind (b : Bindings) (x a : String) : Bindings := ⟨(x, a) :: b.pairs⟩

/-- An atom stands for itself, and so does an unbound variable. -/
def resolve (b : Bindings) : FeatureValue → FeatureValue
  | .atom a => .atom a
  | .var x =>
    match b.get? x with
    | some a => .atom a
    | none => .var x

@[simp] theorem get?_empty (x : String) : empty.get? x = none := rfl

theorem get?_bind (b : Bindings) (x y a : String) :
    (b.bind x a).get? y = if x = y then some a else b.get? y := rfl

@[simp] theorem resolve_atom (b : Bindings) (a : String) : b.resolve (.atom a) = .atom a := rfl

/-! ### Meeting what is found -/

/-- Holds an expected value against what is found, if anything is.  A found atom
must be met by the expected value, and binds it if that is an unbound variable.
The answer is the bindings and the value after that, unless the two clash. -/
def meet (b : Bindings) (value : FeatureValue) (found : Option FeatureValue) :
    Option (Bindings × FeatureValue) :=
  match b.resolve value, found with
  | .atom a, some (.atom c) => if a = c then some (b, .atom a) else none
  | .var x, some (.atom c) => some (b.bind x c, .atom c)
  | v, _ => some (b, v)

end Bindings

/-! ### Unification -/

namespace Category

/-- Puts the atoms bound in `b` for their variables. -/
def substitute (b : Bindings) (c : Category) : Category :=
  { c with features := c.features.map b.resolve }

/-- The pairs of a feature map whose value is an atom. -/
def atoms (c : Category) : List (String × FeatureValue) :=
  c.features.entries.filter fun
    | (_, .atom _) => true
    | (_, .var _) => false

/-- Goes through the expected features in order, and gives each what it and the
found map come to.  The bindings come back in any case. -/
def mergeEntries (found : FeatureMap) :
    List (String × FeatureValue) → FeatureMap → Bindings → Bindings × Option FeatureMap
  | [], merged, b => (b, some merged)
  | (feature, value) :: rest, merged, b =>
    match b.meet value (found.get? feature) with
    | some (b', v) => mergeEntries found rest (merged.insert feature v) b'
    | none => (b, none)

/-- Unifies the category an edge waits for with the label of a complete edge,
starting from the bindings `b`.  The bindings come back in any case; the
merged category only if the two fit. -/
def unify (expected found : Category) (b : Bindings) : Bindings × Option Category :=
  if expected.name = found.name then
    match mergeEntries found.features expected.features.entries .empty b with
    | (b', some merged) =>
      (b', some (substitute b' ⟨expected.name, merged.complete found.atoms⟩))
    | (b', none) => (b', none)
  else (b, none)

end Category

end ChartParsing
