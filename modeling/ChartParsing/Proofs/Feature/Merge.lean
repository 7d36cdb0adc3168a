/-
ChartParsing/Proofs/Feature/Merge.lean

Unification in two steps: first the bindings, then the category.

`Category.unify` goes once through the expected features and builds the merged
category as it binds.  Taken apart it is easier to reason about.
`Bindings.absorb` reads the demands of what is found and only binds, and
`Category.merge` is the expected category under the final bindings with the
atoms that it lacks.  Both ways come to the same (`Category.unify_eq`): a value
that was resolved on the way comes to what it would come to in the end, since
no binding is lost (`Bindings.of_meet`).
-/
import ChartParsing.Feature.Unification
import ChartParsing.Proofs.Feature.Map
import ChartParsing.Proofs.Feature.Substitution

namespace ChartParsing

/-! ### Only binding -/

namespace Bindings

variable {b b₁ : Bindings}

/-- Holds the expected features, in order, against the found map.  Each atom
of the found map must be met by the expected value, and binds it if that is an
unbound variable.  The answer is the bindings made and whether all was well. -/
def absorb (found : FeatureMap) : List (String × FeatureValue) → Bindings → Bindings × Bool
  | [], b => (b, true)
  | (feature, value) :: rest, b =>
    match b.resolve value, found.get? feature with
    | .atom a, some (.atom c) => if a = c then absorb found rest b else (b, false)
    | .var x, some (.atom c) => absorb found rest (b.bind x c)
    | _, _ => absorb found rest b

/-- Absorbing is meeting one demand after the other. -/
theorem absorb_cons (found : FeatureMap) (feature : String) (v : FeatureValue)
    (rest : List (String × FeatureValue)) (b : Bindings) :
    b.absorb found ((feature, v) :: rest) =
      match b.meet v (found.get? feature) with
      | some (b₁, _) => b₁.absorb found rest
      | none => (b, false) := by
  rw [absorb.eq_def, meet.eq_def]
  dsimp only
  generalize b.resolve v = value
  generalize found.get? feature = demand
  rcases value with a | x
  · rcases demand with _ | c | y
    · rfl
    · dsimp only
      split <;> rfl
    · rfl
  · rcases demand with _ | c | y <;> rfl

/-- Meeting a demand keeps what is bound; and in the end the expected value
comes to what it was given. -/
theorem of_meet {v w : FeatureValue} {found : Option FeatureValue}
    (h : b.meet v found = some (b₁, w)) : Substitution.Le b.get? b₁.get? ∧
      ∀ b' : Bindings, Substitution.Le b₁.get? b'.get? → b'.resolve w = b'.resolve v := by
  rw [meet.eq_def] at h
  split at h
  · rename_i a c ha
    split at h
    · obtain ⟨rfl, rfl⟩ := Prod.mk.inj (Option.some.inj h)
      exact ⟨fun _ _ hx => hx, fun b' hle => ha ▸ resolve_resolve hle v⟩
    · cases h
  · rename_i x c hx
    obtain ⟨rfl, rfl⟩ := Prod.mk.inj (Option.some.inj h)
    rw [resolve_eq_under] at hx
    obtain ⟨rfl, hnone⟩ := FeatureValue.under_eq_var_iff.1 hx
    refine ⟨le_bind hnone c, fun b' hle => ?_⟩
    have hbound : (b.bind x c).get? x = some c := by rw [get?_bind, if_pos rfl]
    rw [resolve_atom, resolve_eq_under, FeatureValue.under_var_of_some (hle x c hbound)]
  · obtain ⟨rfl, rfl⟩ := Prod.mk.inj (Option.some.inj h)
    exact ⟨fun _ _ hx => hx, fun b' hle => resolve_resolve hle v⟩

/-- Absorbing only ever adds bindings, also when it gives up on the way. -/
theorem le_absorb (found : FeatureMap) (entries : List (String × FeatureValue)) (b : Bindings) :
    Substitution.Le b.get? (b.absorb found entries).1.get? := by
  induction entries generalizing b with
  | nil => exact fun _ _ hx => hx
  | cons entry rest ih =>
    rw [absorb_cons]
    split
    · rename_i b₁ w hmeet
      exact fun x a hx => ih b₁ x a ((of_meet hmeet).1 x a hx)
    · exact fun _ _ hx => hx

end Bindings

/-! ### Merging afterwards -/

namespace Category

/-- The expected category under `b`, with those atoms of the found one that it does not mention. -/
def merge (b : Bindings) (expected found : Category) : Category :=
  { name := expected.name
    features := (expected.substitute b).features.complete found.atoms }

/-- Merging on the way makes the bindings of absorbing, and gives up where that does. -/
theorem mergeEntries_absorb (found : FeatureMap) (entries : List (String × FeatureValue))
    (merged : FeatureMap) (b : Bindings) :
    (mergeEntries found entries merged b).1 = (b.absorb found entries).1 ∧
      (mergeEntries found entries merged b).2.isSome = (b.absorb found entries).2 := by
  induction entries generalizing merged b with
  | nil => exact ⟨rfl, rfl⟩
  | cons entry rest ih =>
    rw [mergeEntries, Bindings.absorb_cons]
    cases b.meet entry.2 (found.get? entry.1) with
    | none => exact ⟨rfl, rfl⟩
    | some met => exact ih _ _

/-- What was merged on the way comes in the end to what the expected values come to. -/
theorem get?_mergeEntries {found : FeatureMap} {entries : List (String × FeatureValue)}
    (hsorted : entries.Pairwise fun p q => p.1 < q.1) {merged merged' : FeatureMap}
    {b b' : Bindings} (h : mergeEntries found entries merged b = (b', some merged')) (f : String) :
    (merged'.get? f).map b'.resolve =
      ((FeatureMap.find? f entries).or (merged.get? f)).map b'.resolve := by
  induction entries generalizing merged b with
  | nil =>
    obtain ⟨rfl, hmerged⟩ := Prod.mk.inj h
    obtain rfl := Option.some.inj hmerged
    rfl
  | cons entry rest ih =>
    obtain ⟨feature, v⟩ := entry
    obtain ⟨hfirst, hrest⟩ := List.pairwise_cons.1 hsorted
    rw [mergeEntries] at h
    split at h
    · rename_i b₁ w hmeet
      have hle : Substitution.Le b₁.get? b'.get? := by
        have hb' := (mergeEntries_absorb found rest (merged.insert feature w) b₁).1
        rw [h] at hb'
        rw [show b' = _ from hb']
        exact Bindings.le_absorb found rest b₁
      have hvalue : b'.resolve w = b'.resolve v := (Bindings.of_meet hmeet).2 b' hle
      rw [ih hrest h, FeatureMap.find?, FeatureMap.get?_insert]
      by_cases hf : feature = f
      · -- the names are distinct, so no later entry is about this feature
        have hnone : FeatureMap.find? f rest = none := by
          refine Option.eq_none_iff_forall_ne_some.2 fun u hu => ?_
          have hlt := hfirst _ (FeatureMap.mem_of_find? hu)
          exact String.lt_irrefl f (hf ▸ hlt)
        rw [if_pos hf, if_pos hf, hnone, Option.none_or, Option.some_or, Option.map_some,
          Option.map_some, hvalue]
      · rw [if_neg hf, if_neg hf]
    · cases (Prod.mk.inj h).2

/-- An atom that is found is settled. -/
theorem resolve_of_find?_atoms {c : Category} {f : String} {v : FeatureValue}
    (h : FeatureMap.find? f c.atoms = some v) (b : Bindings) : b.resolve v = v := by
  have hatom := (List.mem_filter.1 (FeatureMap.mem_of_find? h)).2
  cases v with
  | atom a => rfl
  | var x => cases hatom

/-- So the merged map, completed and put under the final bindings, is the
expected one under these bindings, completed. -/
theorem map_complete_of_mergeEntries {expected found : Category} {b b' : Bindings}
    {merged : FeatureMap}
    (h : mergeEntries found.features expected.features.entries .empty b = (b', some merged)) :
    (merged.complete found.atoms).map b'.resolve =
      (expected.features.map b'.resolve).complete found.atoms := by
  refine FeatureMap.ext_get? fun f => ?_
  have hexpected : (merged.get? f).map b'.resolve = (expected.features.get? f).map b'.resolve := by
    rw [get?_mergeEntries expected.features.sorted h f]
    exact congrArg (Option.map b'.resolve) Option.or_none
  have hatom : (FeatureMap.find? f found.atoms).map b'.resolve =
      FeatureMap.find? f found.atoms := by
    cases hv : FeatureMap.find? f found.atoms with
    | none => rfl
    | some v => rw [Option.map_some, resolve_of_find?_atoms hv]
  rw [FeatureMap.get?_map, FeatureMap.get?_complete, FeatureMap.get?_complete,
    FeatureMap.get?_map, Option.map_or, hexpected, hatom]

/-- Unifying in one step is absorbing and then merging. -/
theorem unify_eq (expected found : Category) (b : Bindings) :
    expected.unify found b =
      if expected.name = found.name then
        match b.absorb found.features expected.features.entries with
        | (b', true) => (b', some (merge b' expected found))
        | (b', false) => (b', none)
      else (b, none) := by
  rw [unify]
  split
  · obtain ⟨hbindings, hsome⟩ :=
      mergeEntries_absorb found.features expected.features.entries .empty b
    cases hmerge : mergeEntries found.features expected.features.entries .empty b with
    | mk b' merged? =>
      rw [hmerge] at hbindings hsome
      have habsorb : b.absorb found.features expected.features.entries = (b', merged?.isSome) :=
        Prod.ext hbindings.symm hsome.symm
      rw [habsorb]
      cases merged? with
      | none => rfl
      | some merged =>
        exact congrArg (fun features => (b', some (Category.mk expected.name features)))
          (map_complete_of_mergeEntries hmerge)
  · rfl

end Category

end ChartParsing
