/-
ChartParsing/Proofs/Label/Lawful.lean

What labels owe to the chart that they are used in.

A chart finds edges and productions by the keys of labels, so labels that can
fit must share a key, and advancing must not change any key
(`advance_next`, `advance_keys`, `advance_key_lhs`).  And a chart is filled
until nothing new comes, so labels must not be made up without end: over given
labels, advancing stays within a finite set of them (`variety`).

Plain symbols are lawful because advancing changes nothing at all.
-/
import ChartParsing.Label
import Mathlib.Data.Finset.Card
import Mathlib.Data.Finset.Dedup

namespace ChartParsing

/-- A set of labels that advancing does not lead out of. -/
def ClosedUnderAdvance {L : Type} [Label L] (s : Finset L) : Prop :=
  ∀ {lhs rhs dot found a}, lhs ∈ s → (∀ l ∈ rhs, l ∈ s) → found ∈ s →
    Label.advance lhs rhs dot found = some a → a.lhs ∈ s ∧ ∀ l ∈ a.rhs, l ∈ s

/-- Labels that can be looked up by their keys and are not made up without end. -/
class LawfulLabel (L : Type) [Label L] : Prop where
  key_terminal : ∀ t, Label.key (Label.terminal t : L) = .terminal t
  /-- Only a label with the key of the one at the dot fits there. -/
  advance_next : ∀ {lhs rhs dot} {found : L} {a}, Label.advance lhs rhs dot found = some a →
    ∃ next, rhs[dot]? = some next ∧ Label.key next = Label.key found
  advance_keys : ∀ {lhs rhs dot} {found : L} {a}, Label.advance lhs rhs dot found = some a →
    a.rhs.map Label.key = rhs.map Label.key
  advance_key_lhs : ∀ {lhs rhs dot} {found : L} {a}, Label.advance lhs rhs dot found = some a →
    Label.key a.lhs = Label.key lhs
  key_of_acceptsRoot : ∀ {root found : L}, Label.acceptsRoot root found = true →
    Label.key found = Label.key root
  /-- Advancing over given labels leads to so many labels and no more. -/
  variety : ∀ labels : List L, ∃ s : Finset L,
    s.card ≤ labels.length * Nat.pow 2 (Label.varietyBits labels) ∧
      (∀ l ∈ labels, l ∈ s) ∧ ClosedUnderAdvance s

namespace LawfulLabel

variable {L : Type} [Label L] [LawfulLabel L] {lhs found : L} {rhs : List L} {dot : Nat}
  {a : Advance L}

theorem advance_length (h : Label.advance lhs rhs dot found = some a) :
    a.rhs.length = rhs.length := by
  have hkeys := congrArg List.length (advance_keys h)
  simpa using hkeys

theorem dot_lt_of_advance (h : Label.advance lhs rhs dot found = some a) : dot < rhs.length := by
  obtain ⟨next, hnext, -⟩ := advance_next h
  exact (List.getElem?_eq_some_iff.1 hnext).1

variable (L) in
/-- The labels that advancing over the given ones can lead to. -/
noncomputable def reach (labels : List L) : Finset L := (variety labels).choose

theorem card_reach_le (labels : List L) :
    (reach L labels).card ≤ labels.length * Nat.pow 2 (Label.varietyBits labels) :=
  (variety labels).choose_spec.1

theorem mem_reach {labels : List L} {l : L} (h : l ∈ labels) : l ∈ reach L labels :=
  (variety labels).choose_spec.2.1 l h

theorem closedUnderAdvance_reach (labels : List L) : ClosedUnderAdvance (reach L labels) :=
  (variety labels).choose_spec.2.2

end LawfulLabel

/-! ### Plain symbols -/

namespace Symbol

/-- A plain symbol fits where it stands, and leaves everything as it is. -/
theorem advance_eq_some_iff {lhs found : Symbol} {rhs : List Symbol} {dot : Nat}
    {a : Advance Symbol} :
    Label.advance lhs rhs dot found = some a ↔ rhs[dot]? = some found ∧ a = ⟨lhs, rhs⟩ := by
  show Symbol.advance lhs rhs dot found = some a ↔ _
  rw [advance]
  split
  · rename_i h
    simp [h, eq_comm]
  · rename_i h
    simp [h]

instance : LawfulLabel Symbol where
  key_terminal := fun _ => rfl
  advance_next := by
    intro lhs rhs dot found a h
    exact ⟨found, (advance_eq_some_iff.1 h).1, rfl⟩
  advance_keys := by
    intro lhs rhs dot found a h
    rw [(advance_eq_some_iff.1 h).2]
  advance_key_lhs := by
    intro lhs rhs dot found a h
    rw [(advance_eq_some_iff.1 h).2]
  key_of_acceptsRoot := by
    intro root found h
    exact (eq_of_beq (show (root == found) = true from h)).symm
  variety := by
    intro labels
    refine ⟨labels.toFinset, ?_, fun l hl => List.mem_toFinset.2 hl, ?_⟩
    · have hcard := labels.toFinset_card_le
      have hbits : Nat.pow 2 (Label.varietyBits labels) = 1 := rfl
      rw [hbits, Nat.mul_one]
      exact hcard
    · intro lhs rhs dot found a hlhs hrhs hfound h
      rw [(advance_eq_some_iff.1 h).2]
      exact ⟨hlhs, hrhs⟩

end Symbol

end ChartParsing
