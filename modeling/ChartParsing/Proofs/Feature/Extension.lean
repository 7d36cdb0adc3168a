/-
ChartParsing/Proofs/Feature/Extension.lean

Unification from bindings that are there already.

An advance unifies from scratch, but `Category.unify` starts from any bindings.
It goes through just when some extension of these meets the demands of what is
found, and comes out with the least one: what was bound, and the variables that
the demands force (`Category.Unified`).  Reading the demands again under the
final bindings binds nothing (`Bindings.absorb_eq_self`), so unification is
idempotent, from the expected category and from the merged one.
-/
import ChartParsing.Proofs.Feature.Unification

namespace ChartParsing

/-! ### What absorbing leaves alone -/

namespace Bindings

variable {found : FeatureMap} {entries : List (String × FeatureValue)} {b : Bindings}

/-- Entries that come to what is found already bind nothing. -/
theorem absorb_eq_self (h : ∀ feature v a, (feature, v) ∈ entries →
    found.get? feature = some (.atom a) → v.under b.get? = .atom a) :
    b.absorb found entries = (b, true) := by
  induction entries with
  | nil => rfl
  | cons entry rest ih =>
    obtain ⟨feature, v⟩ := entry
    have hfirst := fun a => h feature v a List.mem_cons_self
    have hrest := ih fun f w a hmem => h f w a (List.mem_cons_of_mem _ hmem)
    rcases absorb_cons_cases found feature v rest b with
      ⟨a, -, -, heq⟩ | ⟨a, x, ha, rfl, hx, -⟩ | ⟨a, c, ha, hv, hne, -⟩ | ⟨-, heq⟩
    · rw [heq, hrest]
    · -- a variable without an atom does not come to one
      have hbound := FeatureValue.under_var_eq_atom_iff.1 (hfirst a ha)
      simp [hx] at hbound
    · exact absurd (FeatureValue.atom.inj (hv.symm.trans (hfirst a ha))) hne
    · rw [heq, hrest]

end Bindings

/-! ### The merged category -/

namespace Category

variable {expected found merged : Category} {b b' : Bindings}

/-- The merged category has the expected value, else the atom that is found. -/
theorem get?_merge (b : Bindings) (expected found : Category) (f : String) :
    (merge b expected found).get? f = ((expected.get? f).map b.resolve).or
      ((FeatureSymbol.category found).ground.features.get? f) := by
  rw [get?, merge, FeatureMap.get?_complete, substitute, FeatureMap.get?_map]
  rfl

theorem get?_merge_of_some {f : String} {v : FeatureValue} (h : expected.get? f = some v) :
    (merge b expected found).get? f = some (b.resolve v) := by
  simp [get?_merge, h]

theorem get?_merge_eq_atom {f a : String} (hnone : expected.get? f = none)
    (ha : found.get? f = some (.atom a)) : (merge b expected found).get? f = some (.atom a) := by
  simp only [get?_merge, hnone, Option.map_none, Option.none_or]
  exact FeatureSymbol.get?_ground_eq_atom_iff.2 ha

theorem get?_merge_eq_none {f : String} (hnone : expected.get? f = none)
    (hatom : ∀ a, found.get? f ≠ some (.atom a)) : (merge b expected found).get? f = none := by
  simp only [get?_merge, hnone, Option.map_none, Option.none_or]
  refine Option.eq_none_iff_forall_ne_some.2 fun v hv => ?_
  obtain ⟨hfound, a, rfl⟩ := FeatureSymbol.get?_ground_eq_some_iff.1 hv
  exact hatom a hfound

/-- Every value of a merged category is settled: the bindings do not change it. -/
theorem resolve_of_get?_merge {f : String} {v : FeatureValue}
    (h : (merge b expected found).get? f = some v) : b.resolve v = v := by
  rw [get?_merge, Option.or_eq_some_iff, Option.map_eq_some_iff] at h
  rcases h with ⟨w, -, rfl⟩ | ⟨-, h⟩
  · cases hw : b.resolve w with
    | atom a => rfl
    | var x =>
      rw [Bindings.resolve_eq_under] at hw
      rw [Bindings.resolve_eq_under]
      exact FeatureValue.under_var_of_none (FeatureValue.under_eq_var_iff.1 hw).2
  · obtain ⟨-, a, rfl⟩ := FeatureSymbol.get?_ground_eq_some_iff.1 h
    rfl

/-- Merging once more changes nothing. -/
theorem merge_merge (b : Bindings) (expected found : Category) :
    merge b (merge b expected found) found = merge b expected found := by
  suffices h : (merge b (merge b expected found) found).features =
      (merge b expected found).features from congrArg (Category.mk expected.name) h
  refine FeatureMap.ext_get? fun f => ?_
  show (merge b (merge b expected found) found).get? f = (merge b expected found).get? f
  rw [get?_merge]
  cases h : (merge b expected found).get? f with
  | some v =>
    rw [Option.map_some, Option.some_or, resolve_of_get?_merge h]
  | none =>
    rw [get?_merge, Option.or_eq_none_iff] at h
    rw [h.2]
    rfl

/-- The merged category meets what the expected one meets. -/
theorem meets_merge (h : expected.features.Meets b.get? found.features) :
    (merge b expected found).features.Meets b.get? found.features := by
  intro f v a hv ha
  have hvalue : b.resolve v = v := resolve_of_get?_merge hv
  rw [← Bindings.resolve_eq_under, hvalue]
  cases hexpected : expected.get? f with
  | some w =>
    have hw : some v = some (b.resolve w) := hv.symm.trans (get?_merge_of_some hexpected)
    rw [Option.some.inj hw, Bindings.resolve_eq_under]
    exact h f w a hexpected ha
  | none => exact Option.some.inj (hv.symm.trans (get?_merge_eq_atom hexpected ha))

/-! ### Unification -/

/-- Under bindings that meet the demands already, unification only merges. -/
theorem unify_eq_merge (hname : expected.name = found.name)
    (h : expected.features.Meets b.get? found.features) :
    expected.unify found b = (b, some (merge b expected found)) := by
  have habsorb : b.absorb found.features expected.features.entries = (b, true) :=
    Bindings.absorb_eq_self fun f v a hmem ha =>
      h f v a (expected.features.get?_eq_some_iff.2 hmem) ha
  rw [unify_eq, if_pos hname, habsorb]

/-- Everything that is so when `expected` unifies with `found`: the final
bindings `b'` are the least extension of `b` that meets the demands, `merged` is
the expected category under `b'` with the atoms that it lacks, and another
unification changes neither. -/
structure Unified (expected found : Category) (b b' : Bindings) (merged : Category) : Prop where
  keeps : Substitution.Le b.get? b'.get?
  meets : expected.features.Meets b'.get? found.features
  least : ∀ σ : Substitution, Substitution.Le b.get? σ →
    expected.features.Meets σ found.features → Substitution.Le b'.get? σ
  forced : ∀ x a, b'.get? x = some a ↔ b.get? x = some a ∨
    b.get? x = none ∧ expected.features.Binds found.features x a
  name : merged.name = expected.name
  expected_value : ∀ f v, expected.get? f = some v → merged.get? f = some (b'.resolve v)
  found_atom : ∀ f a, expected.get? f = none → found.get? f = some (.atom a) →
    merged.get? f = some (.atom a)
  nothing_else : ∀ f, expected.get? f = none → (∀ a, found.get? f ≠ some (.atom a)) →
    merged.get? f = none
  again : expected.unify found b' = (b', some merged)
  merged_again : merged.unify found b' = (b', some merged)

theorem unified_of_absorb (hname : expected.name = found.name)
    (h : b.absorb found.features expected.features.entries = (b', true)) :
    Unified expected found b b' (merge b' expected found) := by
  have habsorbed := Bindings.absorbed_of_absorb h
  have hmeets : expected.features.Meets b'.get? found.features := fun f v a hv ha =>
    habsorbed.meets f v a (expected.features.get?_eq_some_iff.1 hv) ha
  -- what is bound was bound before, or a demand forces it
  have hbinds : ∀ x a, b'.get? x = some a → b.get? x = some a ∨
      expected.features.Binds found.features x a := by
    intro x a hx
    refine (habsorbed.binds x a hx).imp_right ?_
    rintro ⟨f, hmem, ha⟩
    exact ⟨f, expected.features.get?_eq_some_iff.2 hmem, ha⟩
  exact
    { keeps := habsorbed.keeps
      meets := hmeets
      least := fun σ hle hσ x a hx =>
        (hbinds x a hx).elim (hle x a) fun hforced => hforced.of_meets hσ
      forced := by
        intro x a
        constructor
        · intro hx
          cases hb : b.get? x with
          | some c => exact .inl ((habsorbed.keeps x c hb).symm.trans hx)
          | none =>
            rcases hbinds x a hx with hx | hforced
            · simp [hb] at hx
            · exact .inr ⟨rfl, hforced⟩
        · rintro (hx | ⟨-, hforced⟩)
          · exact habsorbed.keeps x a hx
          · exact hforced.of_meets hmeets
      name := rfl
      expected_value := fun f v => get?_merge_of_some
      found_atom := fun f a => get?_merge_eq_atom
      nothing_else := fun f => get?_merge_eq_none
      again := unify_eq_merge hname hmeets
      merged_again := by
        have hmerged : (merge b' expected found).name = found.name := hname
        have hagain := unify_eq_merge hmerged (meets_merge hmeets)
        rwa [merge_merge] at hagain }

/-- Unification succeeds just when the names agree and the bindings have an
extension that meets the demands.  It comes out with the least one and what the
two categories merge to under it, and in any case with an extension. -/
theorem unify_eq_least_extension (expected found : Category) (b : Bindings) :
    ((∃ merged, (expected.unify found b).2 = some merged) ↔
        expected.name = found.name ∧ ∃ b' : Bindings,
          Substitution.Le b.get? b'.get? ∧ expected.features.Meets b'.get? found.features) ∧
      (∀ merged, (expected.unify found b).2 = some merged →
        Unified expected found b (expected.unify found b).1 merged) ∧
      Substitution.Le b.get? (expected.unify found b).1.get? := by
  by_cases hname : expected.name = found.name
  · cases h : b.absorb found.features expected.features.entries with
    | mk b' met =>
      have hle : Substitution.Le b.get? b'.get? := by
        have := Bindings.le_absorb found.features expected.features.entries b
        rwa [h] at this
      cases met with
      | true =>
        have hunify : expected.unify found b = (b', some (merge b' expected found)) := by
          rw [unify_eq, if_pos hname, h]
        have hunified := unified_of_absorb hname h
        rw [hunify]
        refine ⟨⟨fun _ => ⟨hname, b', hle, hunified.meets⟩, fun _ => ⟨_, rfl⟩⟩, ?_, hle⟩
        intro merged hmerged
        exact Option.some.inj hmerged ▸ hunified
      | false =>
        have hunify : expected.unify found b = (b', none) := by
          rw [unify_eq, if_pos hname, h]
        rw [hunify]
        refine ⟨iff_of_false (by simp) ?_, by simp, hle⟩
        -- an extension that meets the demands would have been found
        rintro ⟨-, ρ, hρ, hmeets⟩
        obtain ⟨b'', hb''⟩ := Bindings.absorb_of_meets hρ fun f v a hmem ha =>
          hmeets f v a (expected.features.get?_eq_some_iff.2 hmem) ha
        rw [h] at hb''
        simp at hb''
  · have hunify : expected.unify found b = (b, none) := by
      rw [unify, if_neg hname]
    rw [hunify]
    exact ⟨iff_of_false (by simp) fun h => hname h.1, by simp, fun _ _ h => h⟩

/-- A phrase with the number of its agreement, and a case and a person of its own. -/
def agreeingPhrase : Category :=
  ⟨"NP", .ofList [("agr", .var "n"), ("case", .var "c"), ("num", .var "n"), ("per", .var "p")]⟩

/-- A plural of any case, in the third person, definite, of a gender that is left open. -/
def definitePlural : Category :=
  ⟨"NP", .ofList [("case", .var "n"), ("def", .atom "+"), ("gen", .var "g"),
    ("num", .atom "pl"), ("per", .atom "3")]⟩

theorem unify_eq_least_extension_later_binding :
    (∃ b', agreeingPhrase.unify definitePlural (Bindings.empty.bind "p" "3") =
        (b', some ⟨"NP", .ofList [("agr", .atom "pl"), ("case", .var "c"), ("def", .atom "+"),
          ("num", .atom "pl"), ("per", .atom "3")]⟩) ∧
      b'.get? "n" = some "pl" ∧ b'.get? "c" = none ∧
      agreeingPhrase.unify definitePlural b' =
        agreeingPhrase.unify definitePlural (Bindings.empty.bind "p" "3")) ∧
    ¬ ∃ b' : Bindings, Substitution.Le (Bindings.empty.bind "p" "1").get? b'.get? ∧
      agreeingPhrase.features.Meets b'.get? definitePlural.features := by
  constructor
  · obtain ⟨b', hb'⟩ : ∃ b', agreeingPhrase.unify definitePlural (Bindings.empty.bind "p" "3") =
        (b', some ⟨"NP", .ofList [("agr", .atom "pl"), ("case", .var "c"), ("def", .atom "+"),
          ("num", .atom "pl"), ("per", .atom "3")]⟩) := ⟨_, by rfl⟩
    have hunified := (unify_eq_least_extension agreeingPhrase definitePlural
      (Bindings.empty.bind "p" "3")).2.1 _ (by rw [hb'])
    rw [hb'] at hunified
    have hn : b'.get? "n" = some "pl" :=
      (hunified.forced "n" "pl").2 (.inr ⟨rfl, "num", rfl, rfl⟩)
    have hc : (agreeingPhrase.unify definitePlural (Bindings.empty.bind "p" "3")).1.get? "c" =
        none := rfl
    rw [hb'] at hc
    exact ⟨b', hb', hn, hc, hunified.again.trans hb'.symm⟩
  · intro hex
    obtain ⟨merged, hmerged⟩ := (unify_eq_least_extension agreeingPhrase definitePlural
      (Bindings.empty.bind "p" "1")).1.2 ⟨rfl, hex⟩
    have hnone : (agreeingPhrase.unify definitePlural (Bindings.empty.bind "p" "1")).2 = none := by
      rfl
    rw [hnone] at hmerged
    simp at hmerged

end Category

end ChartParsing
