/-
ChartParsing/Proofs/Source/Form.lean

The grammar of grammar lines, as relations between tokens and what they mean.

    line          ::=  symbol "->" alternatives
    alternatives  ::=  alternative  |  alternatives "|" alternative
    alternative   ::=  symbol*
    symbol        ::=  quoted  |  name  |  name "[" features "]"
    features      ::=  (feature ",")* feature?
    feature       ::=  name "=" value  |  "+" name  |  "-" name
    value         ::=  name  |  quoted  |  variable

Each rule is a constructor: `LineForm ts line` is a derivation of the tokens
`ts` from the first rule, with the line that it stands for.  A sequence of
tokens is viable for a form if some sequence of that form begins with it.
-/
import ChartParsing.Source.Line

namespace ChartParsing.Source

/-- A value: a word, a quoted text or a variable. -/
inductive ValueForm : List Token → FeatureValue → Prop
  | name (a : String) : ValueForm [.name a] (.atom a)
  | quoted (a : String) : ValueForm [.quoted a] (.atom a)
  | var (x : String) : ValueForm [.var x] (.var x)

/-- A feature with its value, or after a sign that is its value. -/
inductive FeatureForm : List Token → String × FeatureValue → Prop
  | valued {f ts v} : ValueForm ts v → FeatureForm (.name f :: .equals :: ts) (f, v)
  | plus (f : String) : FeatureForm [.plus, .name f] (f, .atom "+")
  | minus (f : String) : FeatureForm [.minus, .name f] (f, .atom "-")

/-- Features, each with a comma behind it. -/
inductive EndedFeatures : List Token → List (String × FeatureValue) → Prop
  | nil : EndedFeatures [] []
  | snoc {ts given us p} : EndedFeatures ts given → FeatureForm us p →
      EndedFeatures (ts ++ us ++ [.comma]) (given ++ [p])

/-- Features with commas between them; the last one may have a comma behind it as well. -/
inductive FeaturesForm : List Token → List (String × FeatureValue) → Prop
  | ended {ts given} : EndedFeatures ts given → FeaturesForm ts given
  | last {ts given us p} : EndedFeatures ts given → FeatureForm us p →
      FeaturesForm (ts ++ us) (given ++ [p])

/-- A quoted text, or a name with or without features in brackets. -/
inductive SymbolForm : List Token → WrittenSymbol → Prop
  | quoted (t : String) : SymbolForm [.quoted t] (.terminal t)
  | name (n : String) : SymbolForm [.name n] (.category n [])
  | features {n ts given} : FeaturesForm ts given →
      SymbolForm (.name n :: .openBracket :: ts ++ [.closeBracket]) (.category n given)

/-- Symbols in a row. -/
inductive AlternativeForm : List Token → List WrittenSymbol → Prop
  | nil : AlternativeForm [] []
  | snoc {ts ws us w} : AlternativeForm ts ws → SymbolForm us w →
      AlternativeForm (ts ++ us) (ws ++ [w])

/-- Alternatives with bars between them. -/
inductive AlternativesForm : List Token → List (List WrittenSymbol) → Prop
  | first {ts ws} : AlternativeForm ts ws → AlternativesForm ts [ws]
  | snoc {ts alternatives us ws} : AlternativesForm ts alternatives → AlternativeForm us ws →
      AlternativesForm (ts ++ .bar :: us) (alternatives ++ [ws])

/-- A symbol, an arrow and alternatives. -/
inductive LineForm : List Token → WrittenLine → Prop
  | mk {ts lhs us alternatives} : SymbolForm ts lhs → AlternativesForm us alternatives →
      LineForm (ts ++ .arrow :: us) ⟨lhs, alternatives⟩

/-- Some sequence of the form begins with the tokens. -/
def Viable {α : Type} (Form : List Token → α → Prop) (ts : List Token) : Prop :=
  ∃ more a, Form (ts ++ more) a

/-! ### Lists of features -/

/-- One more feature at the front. -/
theorem EndedFeatures.cons {ts us : List Token} {given : List (String × FeatureValue)}
    {p : String × FeatureValue} (hp : FeatureForm us p) (h : EndedFeatures ts given) :
    EndedFeatures (us ++ .comma :: ts) (p :: given) := by
  induction h with
  | nil => exact .snoc .nil hp
  | snoc _ hq ih =>
    have hall := EndedFeatures.snoc ih hq
    simpa using hall

theorem FeaturesForm.cons {ts us : List Token} {given : List (String × FeatureValue)}
    {p : String × FeatureValue} (hp : FeatureForm us p) (h : FeaturesForm ts given) :
    FeaturesForm (us ++ .comma :: ts) (p :: given) := by
  cases h with
  | ended h => exact .ended (h.cons hp)
  | last h hq =>
    have hall := FeaturesForm.last (h.cons hp) hq
    simpa using hall

end ChartParsing.Source
