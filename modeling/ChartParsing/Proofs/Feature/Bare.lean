/-
ChartParsing/Proofs/Feature/Bare.lean

Plain symbols as labels with features.

A nonterminal stands for the category of its name without features.  Among
such categories nothing is ever bound and nothing is merged in: they unify
exactly if they are equal.  So a chart cannot tell them from plain symbols
(`FeatureSymbol.relabelling_bare`).
-/
import ChartParsing.Proofs.Relabel.Label

namespace ChartParsing

/-- Categories without features fit if they have the same name. -/
theorem Category.unify_bare (m n : String) :
    (bare m).unify (bare n) .empty =
      (.empty, if m = n then some (bare m) else none) := by
  rw [unify]
  show (if m = n then _ else _) = _
  split
  · rfl
  · rfl

namespace FeatureSymbol

/-- The label without features that stands for a plain symbol. -/
def bare : Symbol → FeatureSymbol
  | .terminal t => terminal t
  | .nonterminal n => category (.bare n)

theorem bare_injective : Function.Injective bare := by
  intro s s' h
  cases s with
  | terminal t =>
    cases s' with
    | terminal t' => exact congrArg Symbol.terminal (FeatureSymbol.terminal.inj h)
    | nonterminal n' => cases h
  | nonterminal n =>
    cases s' with
    | terminal t' => cases h
    | nonterminal n' =>
      have hname := congrArg Category.name (FeatureSymbol.category.inj h)
      exact congrArg Symbol.nonterminal hname

/-- The labels without features are those that stand for plain symbols. -/
theorem features_eq_empty_iff {l : FeatureSymbol} : l.features = .empty ↔ ∃ s, l = bare s := by
  constructor
  · intro h
    cases l with
    | terminal t => exact ⟨.terminal t, rfl⟩
    | category c =>
      obtain ⟨name, features⟩ := c
      obtain rfl : features = .empty := h
      exact ⟨.nonterminal name, rfl⟩
  · rintro ⟨s, rfl⟩
    cases s <;> rfl

@[simp] theorem substitute_empty_bare (s : Symbol) : (bare s).substitute .empty = bare s := by
  cases s <;> rfl

theorem map_substitute_bare (ls : List Symbol) :
    (ls.map bare).map (substitute .empty) = ls.map bare := by
  rw [List.map_map]
  exact List.map_congr_left fun s _ => substitute_empty_bare s

/-- Moving a dot over a label without features that stands there changes nothing. -/
theorem advance_bare_of_getElem? {rhs : List Symbol} {dot : Nat} {found : Symbol}
    (h : rhs[dot]? = some found) (lhs : Symbol) :
    advance (bare lhs) (rhs.map bare) dot (bare found) = some ⟨bare lhs, rhs.map bare⟩ := by
  cases found with
  | terminal t =>
    have hdot : (rhs.map bare)[dot]? = some (terminal t) := by
      rw [List.getElem?_map, h]
      rfl
    rw [advance.eq_def, hdot]
    exact if_pos rfl
  | nonterminal n =>
    have hdot : (rhs.map bare)[dot]? = some (category (.bare n)) := by
      rw [List.getElem?_map, h]
      rfl
    have hfits : (Category.bare n).unify (Category.bare n) .empty = (.empty, some (.bare n)) := by
      rw [Category.unify_bare, if_pos rfl]
    -- the place at the dot takes what it has
    have hset : (rhs.map bare).set dot (category (.bare n)) = rhs.map bare := by
      obtain ⟨hlt, heq⟩ := List.getElem?_eq_some_iff.1 hdot
      rw [← heq, List.set_getElem_self]
    have hbare : bare (.nonterminal n) = category (.bare n) := rfl
    rw [advance.eq_def, hdot, hbare]
    simp only [hfits, substitute_empty_bare, map_substitute_bare, hset]

/-- A label without features fits nowhere else. -/
theorem advance_bare_of_ne {rhs : List Symbol} {dot : Nat} {found : Symbol}
    (h : rhs[dot]? ≠ some found) (lhs : Symbol) :
    advance (bare lhs) (rhs.map bare) dot (bare found) = none := by
  rw [advance.eq_def, List.getElem?_map]
  cases hnext : rhs[dot]? with
  | none => rfl
  | some next =>
    rw [hnext] at h
    have hne : next ≠ found := fun heq => h (congrArg some heq)
    cases next with
    | terminal t =>
      cases found with
      | terminal t' => exact if_neg fun ht => hne (congrArg Symbol.terminal ht)
      | nonterminal n => rfl
    | nonterminal m =>
      cases found with
      | terminal t => rfl
      | nonterminal n =>
        have hmn : m ≠ n := fun hmn => hne (congrArg Symbol.nonterminal hmn)
        have hclash : (Category.bare m).unify (Category.bare n) .empty = (.empty, none) := by
          rw [Category.unify_bare, if_neg hmn]
        have hbare : bare (.nonterminal n) = category (.bare n) := rfl
        rw [Option.map_some, hbare]
        simp only [bare, hclash]

/-- Moving a dot over labels without features is moving it over plain symbols. -/
theorem advance_bare (lhs : Symbol) (rhs : List Symbol) (dot : Nat) (found : Symbol) :
    advance (bare lhs) (rhs.map bare) dot (bare found) =
      (Symbol.advance lhs rhs dot found).map (Advance.relabel bare) := by
  rw [Symbol.advance]
  split
  · rename_i h
    exact advance_bare_of_getElem? h lhs
  · rename_i h
    exact advance_bare_of_ne h lhs

theorem acceptsRoot_bare (root found : Symbol) :
    acceptsRoot (bare root) (bare found) = (root == found) := by
  cases root with
  | terminal t =>
    cases found with
    | terminal t' =>
      show (FeatureSymbol.terminal t == FeatureSymbol.terminal t') = _
      rw [Bool.eq_iff_iff, beq_iff_eq, beq_iff_eq]
      simp
    | nonterminal n => rfl
  | nonterminal m =>
    cases found with
    | terminal t => rfl
    | nonterminal n =>
      show ((Category.bare m).unify (Category.bare n) .empty).2.isSome = _
      rw [Category.unify_bare, Bool.eq_iff_iff, beq_iff_eq]
      split
      · rename_i h
        simp [h]
      · rename_i h
        simp [h]

theorem varietyBits_bare (ls : List Symbol) : varietyBits (ls.map bare) = 0 := by
  have hsight : (ls.map bare).foldl (fun n l => n + l.features.entries.length) 0 = 0 := by
    induction ls with
    | nil => rfl
    | cons s ls ih =>
      have hnone : (bare s).features = .empty := features_eq_empty_iff.2 ⟨s, rfl⟩
      rw [List.map_cons, List.foldl_cons, hnone]
      exact ih
  show _ * bitLength _ = 0
  rw [hsight, Nat.zero_mul]

/-- A chart cannot tell labels without features from plain symbols. -/
theorem relabelling_bare : Relabelling bare where
  injective := bare_injective
  key := fun s => by cases s <;> rfl
  terminal := fun _ => rfl
  advance := advance_bare
  acceptsRoot := acceptsRoot_bare
  varietyBits := varietyBits_bare

end FeatureSymbol

end ChartParsing
