/-
ChartParsing/Proofs/Feature/Map.lean

Feature maps are settled by what their features read.

`m.get? f = some v` is membership of the pair in the map (`get?_eq_some_iff`),
two maps that read alike are equal (`ext_get?`), and completing a map with
pairs changes no feature that it has (`get?_complete`).
-/
import ChartParsing.Feature.Map
import Mathlib.Data.List.Nodup
import Mathlib.Data.List.Perm.Basic

namespace ChartParsing

namespace FeatureMap

/-! ### Reading -/

theorem mem_of_find? {f : String} {v : FeatureValue} {entries : List (String × FeatureValue)}
    (h : find? f entries = some v) : (f, v) ∈ entries := by
  induction entries with
  | nil => cases h
  | cons entry rest ih =>
    rw [find?] at h
    split at h
    · rename_i heq
      obtain rfl := Option.some.inj h
      rw [← heq]
      exact List.mem_cons_self
    · exact List.mem_cons_of_mem _ (ih h)

theorem find?_of_mem {f : String} {v : FeatureValue} {entries : List (String × FeatureValue)}
    (hsorted : entries.Pairwise (fun p q => p.1 < q.1)) (h : (f, v) ∈ entries) :
    find? f entries = some v := by
  induction entries with
  | nil => cases h
  | cons entry rest ih =>
    obtain ⟨hfirst, hrest⟩ := List.pairwise_cons.1 hsorted
    rw [find?]
    rcases List.mem_cons.1 h with rfl | h
    · simp
    · have hlt := hfirst _ h
      have hne : entry.1 ≠ f := fun heq => String.lt_irrefl f (heq ▸ hlt)
      rw [if_neg hne, ih hrest h]

theorem get?_eq_some_iff (m : FeatureMap) {f : String} {v : FeatureValue} :
    m.get? f = some v ↔ (f, v) ∈ m.entries :=
  ⟨mem_of_find?, find?_of_mem m.sorted⟩

theorem nodup_entries (m : FeatureMap) : m.entries.Nodup := by
  refine m.sorted.imp ?_
  rintro p q hlt rfl
  exact String.lt_irrefl _ hlt

/-- Maps that read alike are equal. -/
theorem ext_get? {m m' : FeatureMap} (h : ∀ f, m.get? f = m'.get? f) : m = m' := by
  have hmem : ∀ p, p ∈ m.entries ↔ p ∈ m'.entries := by
    rintro ⟨f, v⟩
    rw [← get?_eq_some_iff, ← get?_eq_some_iff, h]
  -- sorted lists with the same members are equal
  have hperm : m.entries.Perm m'.entries :=
    (List.perm_ext_iff_of_nodup m.nodup_entries m'.nodup_entries).2 hmem
  have hentries : m.entries = m'.entries :=
    hperm.eq_of_pairwise
      (fun p q _ _ hlt hgt => absurd (String.lt_trans hlt hgt) (String.lt_irrefl _))
      m.sorted m'.sorted
  obtain ⟨entries, _⟩ := m
  obtain ⟨entries', _⟩ := m'
  obtain rfl : entries = entries' := hentries
  rfl

/-! ### Completing -/

/-- Completing keeps what there is, and takes the first pair for a feature that is missing. -/
theorem get?_complete (m : FeatureMap) (pairs : List (String × FeatureValue)) (f : String) :
    (m.complete pairs).get? f = (m.get? f).or (find? f pairs) := by
  induction pairs generalizing m with
  | nil => simp [complete, find?]
  | cons p pairs ih =>
    have hstep : m.complete (p :: pairs) =
        (if (m.get? p.1).isSome then m else m.insert p.1 p.2).complete pairs := rfl
    rw [hstep, ih, find?]
    by_cases hsome : (m.get? p.1).isSome = true
    · rw [if_pos hsome]
      by_cases hf : p.1 = f
      · subst hf
        obtain ⟨v, hv⟩ := Option.isSome_iff_exists.1 hsome
        simp [hv]
      · rw [if_neg hf]
    · rw [if_neg hsome, get?_insert]
      by_cases hf : p.1 = f
      · subst hf
        rw [Option.not_isSome_iff_eq_none] at hsome
        simp [hsome]
      · rw [if_neg hf, if_neg hf]

end FeatureMap

end ChartParsing
