/-
ChartParsing/Feature/Category.lean

Categories: a phrase name with a flat set of features.

The name is the coarse part of a category, under which charts and grammars
file it; the features refine it.
-/
import ChartParsing.Feature.Map

namespace ChartParsing

/-- A phrase name with features. -/
structure Category where
  name : String
  features : FeatureMap
  deriving DecidableEq

namespace Category

/-- The category of that name without features. -/
def bare (name : String) : Category := ⟨name, .empty⟩

/-- The category with one more feature; a feature given before is replaced. -/
def insert (c : Category) (feature : String) (value : FeatureValue) : Category :=
  { c with features := c.features.insert feature value }

/-- The value of a feature, if the category has it. -/
def get? (c : Category) (feature : String) : Option FeatureValue := c.features.get? feature

/-- The name followed by the features. -/
def text (c : Category) : String := c.name ++ c.features.text

/-- Categories are ordered by name, then by their features. -/
def order (c d : Category) : Ordering :=
  (compare c.name d.name).then (FeatureMap.orderEntries c.features.entries d.features.entries)

instance : Ord Category := ⟨order⟩

end Category

end ChartParsing
