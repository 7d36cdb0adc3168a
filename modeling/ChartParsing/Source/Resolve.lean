/-
ChartParsing/Source/Resolve.lean

From symbols as written to labels.

Which symbols a grammar can have depends on its labels: a plain grammar has no
features, and a category has no feature twice.
-/
import ChartParsing.Feature.Symbol
import ChartParsing.Source.Error

namespace ChartParsing

/-- Labels that written symbols can stand for. -/
class Resolve (L : Type) where
  /-- The label that a symbol stands for, or why there is none. -/
  resolve : Source.WrittenSymbol → Except LineFault L

instance : Resolve Symbol where
  resolve
    | .terminal t => .ok (.terminal t)
    | .category n [] => .ok (.nonterminal n)
    | .category _ (_ :: _) => .error .featuresInPlainGrammar

/-- Adds features to a map, up to one that it has already. -/
def FeatureMap.addNew (m : FeatureMap) : List (String × FeatureValue) → Except String FeatureMap
  | [] => .ok m
  | (f, v) :: rest => if (m.get? f).isSome then .error f else (m.insert f v).addNew rest

instance : Resolve FeatureSymbol where
  resolve
    | .terminal t => .ok (.terminal t)
    | .category n features =>
      match FeatureMap.empty.addNew features with
      | .ok m => .ok (.category ⟨n, m⟩)
      | .error f => .error (.repeatedFeature f n)

end ChartParsing
