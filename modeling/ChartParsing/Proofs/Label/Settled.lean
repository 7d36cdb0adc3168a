/-
ChartParsing/Proofs/Label/Settled.lean

Advancing once more over a label that has been found.

When the dot has moved over some labels, both sides have taken in all that
these labels ask for.  So each of them still fits the place that it was found
for, and to put it there again changes nothing (`SettledLabel`): with plain
symbols because advancing never does, with features because the symbol of a
filled place has come to every atom of the label that fills it.
-/
import ChartParsing.Proofs.Feature.Solution
import ChartParsing.Proofs.Plain.Edges

namespace ChartParsing

/-- Labels that fit, and change nothing, where they have been advanced over before. -/
class SettledLabel (L : Type) [Label L] : Prop where
  advance_again : ∀ {lhs : L} {rhs founds : List L} {a : Advance L} {k : Nat} {found : L},
    Label.advanceAll 0 ⟨lhs, rhs⟩ founds = some a → founds[k]? = some found →
      Label.advance a.lhs a.rhs k found = some a

/-- The dot never moves past the end. -/
theorem LawfulLabel.length_le_of_advanceAll {L : Type} [Label L] [LawfulLabel L]
    {a a' : Advance L} {dot : Nat} {founds : List L}
    (h : Label.advanceAll dot a founds = some a') (hdot : dot ≤ a.rhs.length) :
    dot + founds.length ≤ a.rhs.length := by
  induction founds generalizing dot a with
  | nil => exact hdot
  | cons found founds ih =>
    obtain ⟨b, hfirst, hothers⟩ := Option.bind_eq_some_iff.1 h
    have hlt := dot_lt_of_advance hfirst
    rw [← advance_length hfirst] at hlt ⊢
    have hle := ih hothers hlt
    rw [List.length_cons]
    omega

/-! ### Plain symbols -/

instance : SettledLabel Symbol where
  advance_again := by
    intro lhs rhs founds a k found h hk
    obtain ⟨⟨rest, hrest⟩, rfl⟩ := Symbol.advanceAll_eq_some_iff.1 h
    refine Symbol.advance_eq_some_iff.2 ⟨?_, rfl⟩
    show rhs[k]? = some found
    rw [← rhs.drop_zero, ← hrest, List.getElem?_append_left (List.getElem?_eq_some_iff.1 hk).1, hk]

/-! ### Feature symbols -/

namespace FeatureSymbol

variable {σ : Substitution} {lhs expected found : FeatureSymbol} {rhs : List FeatureSymbol}
  {dot : Nat}

theorem key_extend (l found : FeatureSymbol) : (l.extend found).key = l.key := by
  cases l <;> rfl

/-- What has been taken over is not taken over again. -/
theorem extend_extend (l found : FeatureSymbol) :
    (l.extend found).extend found = l.extend found := by
  cases l with
  | terminal t => rfl
  | category c =>
    refine eq_of_key_of_get? rfl fun f => ?_
    show ((c.features.complete _).complete _).get? f = (c.features.complete _).get? f
    rw [FeatureMap.get?_complete, FeatureMap.get?_complete, Option.or_assoc, Option.or_self]

/-- The features of a filled place come from the symbol there, or are atoms of the label found. -/
theorem get?_filled {f : String} {v : FeatureValue}
    (h : (expected.filled σ (some found)).features.get? f = some v) :
    (expected.under σ).features.get? f = some v ∨ found.ground.features.get? f = some v := by
  cases expected with
  | terminal t => exact .inl h
  | category c =>
    rw [filled, under, get?_extend, Option.or_eq_some_iff] at h
    exact h.imp_right And.right

/-- The symbol of a filled place has come to every atom of the label that fills it. -/
theorem settles_filled (h : expected.features.Meets σ found.features) :
    Settles .empty (expected.filled σ (some found)) found where
  meets := by
    intro f v a hv ha
    rw [FeatureValue.under_empty]
    rcases get?_filled hv with hv | hv
    · rw [get?_under, Option.map_eq_some_iff] at hv
      obtain ⟨w, hw, rfl⟩ := hv
      exact h f w a hw ha
    · rw [get?_ground_eq_atom_iff.2 ha] at hv
      exact (Option.some.inj hv).symm
  binds := fun _ _ hx => nomatch hx

/-- Where there is nothing to substitute or to take over, both sides stay as they are. -/
theorem settled_of_extend (hnext : rhs[dot]? = some expected)
    (hextend : expected.extend found.ground = expected) :
    settled .empty lhs rhs dot expected found = ⟨lhs, rhs⟩ := by
  obtain ⟨hlt, heq⟩ := List.getElem?_eq_some_iff.1 hnext
  have hmap : rhs.map (under .empty) = rhs := by
    rw [show under .empty = id from funext under_empty, List.map_id]
  rw [settled, under_empty, hmap, under_empty, hextend, ← heq, List.set_getElem_self]

instance : SettledLabel FeatureSymbol where
  advance_again := by
    intro lhs rhs founds a k found h hk
    obtain ⟨halike, σ, hσ, rfl⟩ := solution_of_advanceAll h
    have hlt : k < rhs.length := by
      have hfounds := (List.getElem?_eq_some_iff.1 hk).1
      have hle : 0 + founds.length ≤ rhs.length :=
        LawfulLabel.length_le_of_advanceAll h (Nat.zero_le _)
      omega
    have hpaired : Paired rhs founds rhs[k] found := ⟨k, List.getElem?_eq_getElem hlt, hk⟩
    have hnext : (solved σ lhs rhs founds).rhs[k]? = some (rhs[k].filled σ (some found)) := by
      rw [getElem?_solved, List.getElem?_eq_getElem hlt, hk]
      rfl
    refine advance_eq_some_iff.2 ⟨_, .empty, hnext, ?_, settles_filled (hσ.solves _ _ hpaired), ?_⟩
    · apply alike_iff_key.2
      rw [filled, key_extend, key_under, alike_iff_key.1 (halike _ _ hpaired)]
    · exact (settled_of_extend hnext (extend_extend _ _)).symm

end FeatureSymbol

end ChartParsing
