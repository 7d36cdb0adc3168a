/-
ChartParsing/Proofs/Feature/Ground.lean

Labels under a substitution, and the atoms that they take over.

Substituting twice is substituting by both, for labels as for values
(`FeatureSymbol.under_under`).  A label also takes over what it lacks from the
label that is found for it, and only atoms (`ground`, `extend`).  These stay as
they are under any substitution (`under_extend_ground`).
-/
import ChartParsing.Proofs.Feature.Substitution
import ChartParsing.Proofs.Label.Feature

namespace ChartParsing

namespace FeatureSymbol

/-- The label with the atoms that `σ` has for its variables. -/
def under (σ : Substitution) : FeatureSymbol → FeatureSymbol
  | terminal t => terminal t
  | category c => category ⟨c.name, c.features.map (FeatureValue.under σ)⟩

variable {σ τ : Substitution}

theorem key_under (l : FeatureSymbol) : (l.under σ).key = l.key := by
  cases l <;> rfl

theorem get?_under (l : FeatureSymbol) (f : String) :
    (l.under σ).features.get? f = (l.features.get? f).map (FeatureValue.under σ) := by
  cases l with
  | terminal t => rfl
  | category c => exact FeatureMap.get?_map _ _ _

/-- Substituting twice is substituting by both. -/
theorem under_under (l : FeatureSymbol) : (l.under σ).under τ = l.under (σ.orElse τ) := by
  refine eq_of_key_of_get? (by rw [key_under, key_under, key_under]) fun f => ?_
  rw [get?_under, get?_under, get?_under, Option.map_map]
  exact congrArg (Option.map · _) (funext fun v => v.under_under)

@[simp] theorem under_empty (l : FeatureSymbol) : l.under .empty = l := by
  refine eq_of_key_of_get? (key_under l) fun f => ?_
  rw [get?_under, show FeatureValue.under .empty = id from funext FeatureValue.under_empty,
    Option.map_id, id]

theorem substitute_eq_under (b : Bindings) (l : FeatureSymbol) :
    l.substitute b = l.under b.get? := by
  cases l with
  | terminal t => rfl
  | category c =>
    rw [substitute, Category.substitute, under,
      show b.resolve = FeatureValue.under b.get? from funext b.resolve_eq_under]

/-! ### Atoms that a label adds to another -/

/-- The label without the features that have a variable for their value. -/
def ground : FeatureSymbol → FeatureSymbol
  | terminal t => terminal t
  | category c => category ⟨c.name, ⟨c.atoms, c.features.sorted.filter _⟩⟩

/-- The label with those features of `found` that it does not have itself. -/
def extend : (l found : FeatureSymbol) → FeatureSymbol
  | terminal t, _ => terminal t
  | category c, found => category ⟨c.name, c.features.complete found.features.entries⟩

theorem key_ground (l : FeatureSymbol) : l.ground.key = l.key := by
  cases l <;> rfl

theorem get?_ground_eq_some_iff {l : FeatureSymbol} {f : String} {v : FeatureValue} :
    l.ground.features.get? f = some v ↔ l.features.get? f = some v ∧ ∃ a, v = .atom a := by
  cases l with
  | terminal t => exact ⟨fun h => (nomatch h), fun h => nomatch h.1⟩
  | category c =>
    rw [FeatureMap.get?_eq_some_iff, FeatureMap.get?_eq_some_iff]
    refine List.mem_filter.trans (and_congr_right fun _ => ?_)
    cases v with
    | atom a => simp
    | var x => simp

/-- Only atoms matter to what a label does to the one that it fills. -/
theorem get?_ground_eq_atom_iff {l : FeatureSymbol} {f a : String} :
    l.ground.features.get? f = some (.atom a) ↔ l.features.get? f = some (.atom a) :=
  get?_ground_eq_some_iff.trans ⟨fun h => h.1, fun h => ⟨h, a, rfl⟩⟩

@[simp] theorem ground_ground (l : FeatureSymbol) : l.ground.ground = l.ground := by
  refine eq_of_key_of_get? (key_ground _) fun f => Option.ext fun v => ?_
  rw [get?_ground_eq_some_iff]
  exact ⟨fun h => h.1, fun h => ⟨h, (get?_ground_eq_some_iff.1 h).2⟩⟩

theorem get?_extend (c : Category) (found : FeatureSymbol) (f : String) :
    ((category c).extend found).features.get? f =
      (c.features.get? f).or (found.features.get? f) :=
  c.features.get?_complete _ _

/-- Substitution passes by the atoms that a label has taken over. -/
theorem under_extend_ground (l found : FeatureSymbol) :
    (l.extend found.ground).under σ = (l.under σ).extend found.ground := by
  cases l with
  | terminal t => rfl
  | category c =>
    refine eq_of_key_of_get? rfl fun f => ?_
    rw [get?_under, get?_extend, Option.map_or]
    refine Eq.trans ?_ (get?_extend ⟨c.name, c.features.map (FeatureValue.under σ)⟩ _ f).symm
    rw [FeatureMap.get?_map]
    cases hget : found.ground.features.get? f with
    | none => rfl
    | some v =>
      obtain ⟨a, rfl⟩ := (get?_ground_eq_some_iff.1 hget).2
      rfl

/-- A variable of an extended label comes from the label that was extended. -/
theorem get?_under_extend_ground_eq_var {l found : FeatureSymbol} {f x : String}
    (h : ((l.under σ).extend found.ground).features.get? f = some (.var x)) :
    (l.under σ).features.get? f = some (.var x) := by
  cases l with
  | terminal t => exact h
  | category c =>
    rcases Option.or_eq_some_iff.1 ((get?_extend _ _ _).symm.trans h) with h | ⟨-, h⟩
    · exact h
    · obtain ⟨a, ha⟩ := (get?_ground_eq_some_iff.1 h).2
      cases ha

/-- A variable that is left was there before, and `σ` has no atom for it. -/
theorem get?_under_eq_var_iff {l : FeatureSymbol} {f x : String} :
    (l.under σ).features.get? f = some (.var x) ↔
      l.features.get? f = some (.var x) ∧ σ x = none := by
  rw [get?_under, Option.map_eq_some_iff]
  constructor
  · rintro ⟨v, hv, hvar⟩
    obtain ⟨rfl, hnone⟩ := FeatureValue.under_eq_var_iff.1 hvar
    exact ⟨hv, hnone⟩
  · rintro ⟨hv, hnone⟩
    exact ⟨_, hv, FeatureValue.under_var_of_none hnone⟩

end FeatureSymbol

end ChartParsing
