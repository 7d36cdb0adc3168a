/-
ChartParsing/Proofs/Label/Feature.lean

Labels with features are lawful.

Unification compares names, and substitution changes values only, so keys stay
as they are.  What remains is that labels are not made up without end although
a matched place takes features over from the label that is found there.  Every
feature of an advanced edge is a feature of a label that it was made from, and
every value a value of one of them (`Drawn`); so a label of a given key is
settled by a value, or none, for each feature in sight (`card_drawn_le`).
-/
import ChartParsing.Feature.Symbol
import ChartParsing.Proofs.Feature.Merge
import ChartParsing.Proofs.Feature.Map
import ChartParsing.Proofs.Label.Lawful
import Mathlib.Data.Finset.Option
import Mathlib.Data.Finset.Prod
import Mathlib.Data.Fintype.Pi
import Mathlib.Data.Fintype.BigOperators
import Mathlib.Data.Set.Card

namespace ChartParsing

/-! ### Where values come from -/

/-- Every feature is among `names`, and every value among `values`. -/
def FeatureMap.DrawnFrom (names : List String) (values : List FeatureValue) (m : FeatureMap) :
    Prop :=
  ∀ f v, m.get? f = some v → f ∈ names ∧ v ∈ values

/-- Every bound atom is among `values`. -/
def Bindings.DrawnFrom (values : List FeatureValue) (b : Bindings) : Prop :=
  ∀ x a, b.get? x = some a → .atom a ∈ values

namespace Bindings

variable {values : List FeatureValue} {names : List String}

theorem DrawnFrom.empty : DrawnFrom values Bindings.empty := fun _ _ h => nomatch h

theorem DrawnFrom.resolve {b : Bindings} (h : b.DrawnFrom values) {v : FeatureValue}
    (hv : v ∈ values) : b.resolve v ∈ values := by
  cases v with
  | atom a => exact hv
  | var x =>
    rw [Bindings.resolve]
    split
    · rename_i a ha
      exact h x a ha
    · exact hv

/-- Absorbing binds atoms of the found map only. -/
theorem DrawnFrom.absorb {found : FeatureMap} (hfound : found.DrawnFrom names values)
    (entries : List (String × FeatureValue)) {b : Bindings} (h : b.DrawnFrom values) :
    (b.absorb found entries).1.DrawnFrom values := by
  induction entries generalizing b with
  | nil => exact h
  | cons entry rest ih =>
    rw [Bindings.absorb]
    split
    · split
      · exact ih h
      · exact h
    · rename_i x a _ hget
      refine ih fun y a' hy => ?_
      rw [get?_bind] at hy
      split at hy
      · obtain rfl := Option.some.inj hy
        exact (hfound _ _ hget).2
      · exact h y a' hy
    · exact ih h

end Bindings

namespace Category

variable {values : List FeatureValue} {names : List String}

theorem drawnFrom_substitute {c : Category} {b : Bindings} (hb : b.DrawnFrom values)
    (hc : c.features.DrawnFrom names values) :
    (c.substitute b).features.DrawnFrom names values := by
  intro f v h
  rw [substitute, FeatureMap.get?_map, Option.map_eq_some_iff] at h
  obtain ⟨w, hw, rfl⟩ := h
  obtain ⟨hname, hvalue⟩ := hc f w hw
  exact ⟨hname, hb.resolve hvalue⟩

theorem mem_entries_of_find?_atoms {c : Category} {f : String} {v : FeatureValue}
    (h : FeatureMap.find? f c.atoms = some v) : c.features.get? f = some v :=
  (c.features.get?_eq_some_iff).2 (List.mem_filter.1 (FeatureMap.mem_of_find? h)).1

theorem drawnFrom_merge {expected found : Category} {b : Bindings} (hb : b.DrawnFrom values)
    (he : expected.features.DrawnFrom names values)
    (hf : found.features.DrawnFrom names values) :
    (merge b expected found).features.DrawnFrom names values := by
  intro f v h
  rw [merge, FeatureMap.get?_complete, Option.or_eq_some_iff] at h
  rcases h with h | ⟨-, h⟩
  · exact drawnFrom_substitute hb he f v h
  · exact hf f v (mem_entries_of_find?_atoms h)

/-- What a successful unification returns. -/
theorem unify_eq_some {expected found merged : Category} {b b' : Bindings}
    (h : expected.unify found b = (b', some merged)) :
    expected.name = found.name ∧
      (b.absorb found.features expected.features.entries).1 = b' ∧
      merged = merge b' expected found := by
  rw [unify_eq] at h
  split at h
  · rename_i hname
    split at h
    · rename_i b'' hb''
      obtain ⟨rfl, hmerged⟩ := Prod.mk.inj h
      exact ⟨hname, by rw [hb''], (Option.some.inj hmerged).symm⟩
    · cases (Prod.mk.inj h).2
  · cases (Prod.mk.inj h).2

end Category

namespace FeatureSymbol

/-! ### Keys -/

theorem key_substitute (b : Bindings) (l : FeatureSymbol) : (l.substitute b).key = l.key := by
  cases l <;> rfl

/-- How an advance over a feature label can come about. -/
theorem advance_cases {lhs found : FeatureSymbol} {rhs : List FeatureSymbol} {dot : Nat}
    {a : Advance FeatureSymbol} (h : FeatureSymbol.advance lhs rhs dot found = some a) :
    (∃ t, rhs[dot]? = some (terminal t) ∧ found = terminal t ∧ a = ⟨lhs, rhs⟩) ∨
      ∃ expected phrase b merged, rhs[dot]? = some (category expected) ∧
        found = category phrase ∧ expected.unify phrase .empty = (b, some merged) ∧
        a = ⟨lhs.substitute b, (rhs.map (substitute b)).set dot (category merged)⟩ := by
  unfold FeatureSymbol.advance at h
  split at h
  · rename_i t t' hnext
    split at h
    · rename_i heq
      exact .inl ⟨t, hnext, by rw [heq], (Option.some.inj h).symm⟩
    · cases h
  · rename_i expected phrase hnext
    split at h
    · rename_i b merged hunify
      exact .inr ⟨expected, phrase, b, merged, hnext, rfl, hunify, (Option.some.inj h).symm⟩
    · cases h
  · cases h

theorem advance_keys {lhs found : FeatureSymbol} {rhs : List FeatureSymbol} {dot : Nat}
    {a : Advance FeatureSymbol} (h : FeatureSymbol.advance lhs rhs dot found = some a) :
    a.rhs.map key = rhs.map key := by
  rcases advance_cases h with ⟨t, -, -, rfl⟩ | ⟨expected, phrase, b, merged, hnext, -, hu, rfl⟩
  · rfl
  · obtain ⟨-, -, rfl⟩ := Category.unify_eq_some hu
    have hmap : (rhs.map (substitute b)).map key = rhs.map key := by
      rw [List.map_map]
      exact List.map_congr_left fun l _ => key_substitute b l
    -- merging puts another label at the dot, but with the key that was there
    have hslot : (rhs.map key)[dot]? = some (key (category expected)) := by
      rw [List.getElem?_map, hnext]
      rfl
    obtain ⟨hlt, heq⟩ := List.getElem?_eq_some_iff.1 hslot
    rw [List.map_set, hmap]
    show (rhs.map key).set dot (key (category expected)) = rhs.map key
    rw [← heq, List.set_getElem_self]

/-! ### Variety -/

/-- The features and values that occur in some labels. -/
def entriesOf (labels : List FeatureSymbol) : List (String × FeatureValue) :=
  labels.flatMap fun l => l.features.entries

/-- Labels with a key and with features and values that occur in the given ones. -/
def Drawn (labels : List FeatureSymbol) (l : FeatureSymbol) : Prop :=
  l.key ∈ labels.map key ∧
    l.features.DrawnFrom ((entriesOf labels).map Prod.fst) ((entriesOf labels).map Prod.snd)

theorem drawn_of_mem {labels : List FeatureSymbol} {l : FeatureSymbol} (h : l ∈ labels) :
    Drawn labels l := by
  refine ⟨List.mem_map_of_mem h, fun f v hv => ?_⟩
  have hmem : (f, v) ∈ entriesOf labels :=
    List.mem_flatMap.2 ⟨l, h, (l.features.get?_eq_some_iff).1 hv⟩
  exact ⟨List.mem_map.2 ⟨(f, v), hmem, rfl⟩, List.mem_map.2 ⟨(f, v), hmem, rfl⟩⟩

theorem features_substitute_drawn {names : List String} {values : List FeatureValue}
    {b : Bindings} (hb : b.DrawnFrom values) {l : FeatureSymbol}
    (h : l.features.DrawnFrom names values) :
    (l.substitute b).features.DrawnFrom names values := by
  cases l with
  | terminal t => exact h
  | category c => exact Category.drawnFrom_substitute hb h

/-- Advancing over drawn labels leads to drawn labels. -/
theorem drawn_advance {labels rhs : List FeatureSymbol} {lhs found : FeatureSymbol} {dot : Nat}
    {a : Advance FeatureSymbol} (hlhs : Drawn labels lhs) (hrhs : ∀ l ∈ rhs, Drawn labels l)
    (hfound : Drawn labels found) (h : FeatureSymbol.advance lhs rhs dot found = some a) :
    Drawn labels a.lhs ∧ ∀ l ∈ a.rhs, Drawn labels l := by
  rcases advance_cases h with ⟨t, -, -, rfl⟩ | ⟨expected, phrase, b, merged, hnext, rfl, hu, rfl⟩
  · exact ⟨hlhs, hrhs⟩
  · obtain ⟨-, hb, rfl⟩ := Category.unify_eq_some hu
    have hexpected := hrhs _ (List.mem_of_getElem? hnext)
    -- the bindings come from the label that was found
    have hdrawn : b.DrawnFrom ((entriesOf labels).map Prod.snd) := by
      rw [← hb]
      exact Bindings.DrawnFrom.absorb hfound.2 _ .empty
    have hsubst : ∀ l, Drawn labels l → Drawn labels (l.substitute b) := by
      intro l hl
      exact ⟨key_substitute b l ▸ hl.1, features_substitute_drawn hdrawn hl.2⟩
    refine ⟨hsubst lhs hlhs, fun l hl => ?_⟩
    rcases List.mem_or_eq_of_mem_set hl with hl | rfl
    · obtain ⟨l', hl', rfl⟩ := List.mem_map.1 hl
      exact hsubst l' (hrhs l' hl')
    · exact ⟨hexpected.1, Category.drawnFrom_merge hdrawn hexpected.2 hfound.2⟩

/-- A label is settled by its key and by what its features read. -/
theorem eq_of_key_of_get? {l l' : FeatureSymbol} (hkey : l.key = l'.key)
    (hget : ∀ f, l.features.get? f = l'.features.get? f) : l = l' := by
  cases l with
  | terminal t =>
    cases l' with
    | terminal t' => rw [Symbol.terminal.inj hkey]
    | category c' => cases hkey
  | category c =>
    cases l' with
    | terminal t' => cases hkey
    | category c' =>
      obtain ⟨name, features⟩ := c
      obtain ⟨name', features'⟩ := c'
      obtain rfl : name = name' := Symbol.nonterminal.inj hkey
      obtain rfl : features = features' := FeatureMap.ext_get? hget
      rfl

/-- The key of a label, and what it reads for the features in sight. -/
def reading (names : List String) (l : FeatureSymbol) :
    Symbol × ({f // f ∈ names.toFinset} → Option FeatureValue) :=
  (l.key, fun f => l.features.get? f.1)

/-- The readings that drawn labels can have. -/
def readings (labels : List FeatureSymbol) :
    Finset (Symbol × ({f // f ∈ ((entriesOf labels).map Prod.fst).toFinset} →
      Option FeatureValue)) :=
  (labels.map key).toFinset ×ˢ
    Fintype.piFinset fun _ => Finset.insertNone ((entriesOf labels).map Prod.snd).toFinset

theorem reading_mem_readings {labels : List FeatureSymbol} {l : FeatureSymbol}
    (h : Drawn labels l) :
    reading ((entriesOf labels).map Prod.fst) l ∈ readings labels := by
  refine Finset.mem_product.2 ⟨List.mem_toFinset.2 h.1, Fintype.mem_piFinset.2 fun f => ?_⟩
  refine Finset.mem_insertNone.2 fun v hv => List.mem_toFinset.2 ?_
  exact (h.2 f.1 v hv).2

theorem reading_injective {labels : List FeatureSymbol} {l l' : FeatureSymbol}
    (h : Drawn labels l) (h' : Drawn labels l')
    (heq : reading ((entriesOf labels).map Prod.fst) l =
      reading ((entriesOf labels).map Prod.fst) l') : l = l' := by
  refine eq_of_key_of_get? (congrArg Prod.fst heq) fun f => ?_
  by_cases hf : f ∈ (entriesOf labels).map Prod.fst
  · exact congrFun (congrArg Prod.snd heq) ⟨f, List.mem_toFinset.2 hf⟩
  · -- a feature out of sight is one that neither label has
    have hnone : ∀ {l : FeatureSymbol}, Drawn labels l → l.features.get? f = none := by
      intro l hl
      cases hget : l.features.get? f with
      | none => rfl
      | some v => exact absurd (hl.2 f v hget).1 hf
    rw [hnone h, hnone h']

theorem varietyBits_eq (labels : List FeatureSymbol) :
    Label.varietyBits labels =
      (entriesOf labels).length * bitLength (entriesOf labels).length := by
  have hfold : ∀ (labels : List FeatureSymbol) (n : Nat),
      labels.foldl (fun n l => n + l.features.entries.length) n =
        n + (entriesOf labels).length := by
    intro labels
    induction labels with
    | nil => exact fun _ => rfl
    | cons l rest ih =>
      intro n
      rw [List.foldl_cons, ih, entriesOf, entriesOf, List.flatMap_cons, List.length_append,
        Nat.add_assoc]
  have hsum := hfold labels 0
  rw [Nat.zero_add] at hsum
  show varietyBits labels = _
  rw [varietyBits, hsum]

theorem card_readings_le (labels : List FeatureSymbol) :
    (readings labels).card ≤ labels.length * Nat.pow 2 (Label.varietyBits labels) := by
  have hnames := List.toFinset_card_le ((entriesOf labels).map Prod.fst)
  have hvalues := List.toFinset_card_le ((entriesOf labels).map Prod.snd)
  have hkeys := List.toFinset_card_le (labels.map key)
  rw [List.length_map] at hnames hvalues hkeys
  have hlt := lt_pow_bitLength (entriesOf labels).length
  rw [readings, Finset.card_product, Fintype.card_piFinset, Finset.prod_const,
    Finset.card_insertNone, Finset.card_univ, Fintype.card_coe]
  refine Nat.mul_le_mul hkeys ?_
  calc (((entriesOf labels).map Prod.snd).toFinset.card + 1) ^
        ((entriesOf labels).map Prod.fst).toFinset.card
      ≤ (2 ^ bitLength (entriesOf labels).length) ^
          ((entriesOf labels).map Prod.fst).toFinset.card :=
        Nat.pow_le_pow_left (Nat.lt_of_le_of_lt hvalues hlt) _
    _ ≤ (2 ^ bitLength (entriesOf labels).length) ^ (entriesOf labels).length :=
        Nat.pow_le_pow_right (Nat.two_pow_pos _) hnames
    _ = 2 ^ Label.varietyBits labels := by
        rw [varietyBits_eq, ← Nat.pow_mul, Nat.mul_comm]

/-- There are only so many drawn labels. -/
theorem exists_finset_drawn (labels : List FeatureSymbol) :
    ∃ s : Finset FeatureSymbol,
      s.card ≤ labels.length * Nat.pow 2 (Label.varietyBits labels) ∧
        ∀ l, l ∈ s ↔ Drawn labels l := by
  -- readings tell drawn labels apart, and there are finitely many readings
  have hmaps : Set.MapsTo (reading ((entriesOf labels).map Prod.fst)) {l | Drawn labels l}
      (readings labels) := fun l hl => reading_mem_readings hl
  have hinj : Set.InjOn (reading ((entriesOf labels).map Prod.fst)) {l | Drawn labels l} :=
    fun l hl l' hl' heq => reading_injective hl hl' heq
  have hfinite : {l | Drawn labels l}.Finite :=
    Set.Finite.of_injOn hmaps hinj (readings labels).finite_toSet
  refine ⟨hfinite.toFinset, ?_, fun l => hfinite.mem_toFinset⟩
  refine le_trans ?_ (card_readings_le labels)
  exact Finset.card_le_card_of_injOn _ (fun l hl => hmaps (hfinite.mem_toFinset.1 hl))
    fun l hl l' hl' => hinj (hfinite.mem_toFinset.1 hl) (hfinite.mem_toFinset.1 hl')

instance : LawfulLabel FeatureSymbol where
  key_terminal := fun _ => rfl
  advance_next := by
    intro lhs rhs dot found a h
    rcases advance_cases h with ⟨t, hnext, rfl, -⟩ | ⟨expected, phrase, b, m, hnext, rfl, hu, -⟩
    · exact ⟨_, hnext, rfl⟩
    · exact ⟨_, hnext, congrArg Symbol.nonterminal (Category.unify_eq_some hu).1⟩
  advance_keys := advance_keys
  advance_key_lhs := by
    intro lhs rhs dot found a h
    rcases advance_cases h with ⟨t, -, -, rfl⟩ | ⟨expected, phrase, b, merged, -, -, -, rfl⟩
    · rfl
    · exact key_substitute b lhs
  key_of_acceptsRoot := by
    intro root found h
    change FeatureSymbol.acceptsRoot root found = true at h
    unfold FeatureSymbol.acceptsRoot at h
    split at h
    · rename_i r f
      obtain ⟨merged, hmerged⟩ := Option.isSome_iff_exists.1 h
      have hu : r.unify f .empty = ((r.unify f .empty).1, some merged) := by rw [← hmerged]
      exact congrArg Symbol.nonterminal (Category.unify_eq_some hu).1.symm
    · rw [eq_of_beq h]
  variety := by
    intro labels
    obtain ⟨s, hcard, hmem⟩ := exists_finset_drawn labels
    refine ⟨s, hcard, fun l hl => (hmem l).2 (drawn_of_mem hl), ?_⟩
    intro lhs rhs dot found a hlhs hrhs hfound h
    obtain ⟨hl, hr⟩ := drawn_advance ((hmem lhs).1 hlhs) (fun l hl => (hmem l).1 (hrhs l hl))
      ((hmem found).1 hfound) h
    exact ⟨(hmem _).2 hl, fun l hmem' => (hmem l).2 (hr l hmem')⟩

end FeatureSymbol

end ChartParsing
