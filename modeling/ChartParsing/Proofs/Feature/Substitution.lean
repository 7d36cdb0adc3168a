/-
ChartParsing/Proofs/Feature/Substitution.lean

Substitutions of atoms for variables.

A substitution gives an atom to some of the variables.  It is a function here,
so that substitutions can be compared and joined without a thought to how
bindings are kept: `Bindings.resolve` puts the atoms that the bindings read
(`resolve_eq_under`), and substituting twice is substituting once by both
(`under_under`).  Binding a variable that was free makes a larger substitution
(`le_bind`), and a value that was resolved by the smaller one comes to the same
under the larger (`resolve_resolve`).
-/
import ChartParsing.Feature.Unification

namespace ChartParsing

/-- Atoms for some of the variables. -/
abbrev Substitution := String → Option String

namespace Substitution

/-- No atom for any variable. -/
def empty : Substitution := fun _ => none

/-- The atoms of `σ`, and those of `τ` for all other variables. -/
def orElse (σ τ : Substitution) : Substitution := fun x => (σ x).or (τ x)

/-- Every atom of `σ` is one of `τ`. -/
def Le (σ τ : Substitution) : Prop := ∀ x a, σ x = some a → τ x = some a

/-- A larger substitution adds nothing to what it is joined to below. -/
theorem orElse_eq_of_le {σ τ : Substitution} (h : σ.Le τ) : σ.orElse τ = τ := by
  funext x
  cases hσ : σ x with
  | none => rw [orElse, hσ, Option.none_or]
  | some a => rw [orElse, hσ, Option.some_or, h x a hσ]

end Substitution

/-! ### Values -/

namespace FeatureValue

/-- The atom that `σ` has for a variable; any other value as it is. -/
def under (σ : Substitution) : FeatureValue → FeatureValue
  | atom a => atom a
  | var x =>
    match σ x with
    | some a => atom a
    | none => var x

variable {σ τ : Substitution}

@[simp] theorem under_atom (a : String) : (atom a).under σ = atom a := rfl

theorem under_var_of_some {x a : String} (h : σ x = some a) : (var x).under σ = atom a := by
  rw [under, h]

theorem under_var_of_none {x : String} (h : σ x = none) : (var x).under σ = var x := by
  rw [under, h]

@[simp] theorem under_empty (v : FeatureValue) : v.under .empty = v := by
  cases v <;> rfl

/-- Substituting twice is substituting by both. -/
theorem under_under (v : FeatureValue) : (v.under σ).under τ = v.under (σ.orElse τ) := by
  cases v with
  | atom a => rfl
  | var x =>
    have horElse : (σ.orElse τ) x = (σ x).or (τ x) := rfl
    cases hσ : σ x with
    | some a =>
      rw [hσ, Option.some_or] at horElse
      rw [under_var_of_some hσ, under_var_of_some horElse, under_atom]
    | none =>
      rw [hσ, Option.none_or] at horElse
      rw [under_var_of_none hσ, under, under, horElse]

/-- A value stands for an atom, or it is a variable without one. -/
theorem under_eq_var_iff {v : FeatureValue} {x : String} :
    v.under σ = var x ↔ v = var x ∧ σ x = none := by
  cases v with
  | atom a => simp
  | var y =>
    cases hσ : σ y with
    | some a =>
      rw [under_var_of_some hσ]
      constructor
      · intro h
        cases h
      · rintro ⟨hy, hx⟩
        rw [← FeatureValue.var.inj hy, hσ] at hx
        cases hx
    | none =>
      rw [under_var_of_none hσ]
      constructor
      · rintro h
        exact ⟨h, FeatureValue.var.inj h ▸ hσ⟩
      · exact fun h => h.1

theorem under_var_eq_atom_iff {x a : String} : (var x).under σ = atom a ↔ σ x = some a := by
  cases hσ : σ x with
  | some b =>
    rw [under_var_of_some hσ]
    simp
  | none =>
    rw [under_var_of_none hσ]
    simp

end FeatureValue

/-! ### Bindings -/

namespace Bindings

variable {b b' : Bindings}

/-- Bindings put the atoms that they read for a variable. -/
theorem resolve_eq_under (b : Bindings) (v : FeatureValue) : b.resolve v = v.under b.get? := by
  cases v <;> rfl

theorem le_bind {x : String} (hx : b.get? x = none) (a : String) :
    Substitution.Le b.get? (b.bind x a).get? := by
  intro y c hy
  rw [get?_bind, if_neg, hy]
  rintro rfl
  rw [hx] at hy
  cases hy

/-- Resolving a value on the way does not change what it comes to in the end. -/
theorem resolve_resolve (hle : Substitution.Le b.get? b'.get?) (v : FeatureValue) :
    b'.resolve (b.resolve v) = b'.resolve v := by
  rw [resolve_eq_under, resolve_eq_under, FeatureValue.under_under,
    Substitution.orElse_eq_of_le hle, ← resolve_eq_under]

end Bindings

end ChartParsing
