/-
ChartParsing/Proofs/Feature/Unification.lean

What one advance settles.

The atoms of a label that is found are demands on the symbol that waits for
it: each feature that the two share must come to the found atom
(`FeatureSymbol.Meets`).  `Bindings.absorb` reads the demands one by one, and
comes out with nothing more than they ask for (`Bindings.Absorbed`); it gives
up only when no substitution meets them all (`Bindings.absorb_of_meets`).  So
an advance is the least substitution that meets the demands, put everywhere
(`FeatureSymbol.advance_eq_some_iff`).
-/
import ChartParsing.Proofs.Feature.Ground

namespace ChartParsing

/-! ### Demands -/

/-- Every feature of `expected` that has an atom in `found` comes to that atom under `σ`. -/
def FeatureMap.Meets (σ : Substitution) (expected found : FeatureMap) : Prop :=
  ∀ feature v a, expected.get? feature = some v → found.get? feature = some (.atom a) →
    v.under σ = .atom a

/-- The variable `x` stands in `expected` where `found` has the atom `a`. -/
def FeatureMap.Binds (expected found : FeatureMap) (x a : String) : Prop :=
  ∃ feature, expected.get? feature = some (.var x) ∧ found.get? feature = some (.atom a)

namespace FeatureMap

variable {σ τ ρ : Substitution} {expected found : FeatureMap}

theorem Meets.mono (h : expected.Meets σ found) (hle : σ.Le τ) : expected.Meets τ found := by
  intro feature v a hv ha
  have hvalue := h feature v a hv ha
  cases v with
  | atom b => exact hvalue
  | var x =>
    rw [FeatureValue.under_var_eq_atom_iff] at hvalue ⊢
    exact hle x a hvalue

/-- What meets the demands has every atom that they bind. -/
theorem Binds.of_meets {x a : String} (h : expected.Binds found x a)
    (hmeets : expected.Meets ρ found) : ρ x = some a := by
  obtain ⟨feature, hx, ha⟩ := h
  exact FeatureValue.under_var_eq_atom_iff.1 (hmeets feature _ a hx ha)

end FeatureMap

/-! ### Absorbing the demands -/

namespace Bindings

variable {found : FeatureMap} {entries : List (String × FeatureValue)} {b b' : Bindings}
  {ρ : Substitution}

/-- `b'` is `b` with what it takes to meet `found` in each of the entries, and no more. -/
structure Absorbed (found : FeatureMap) (entries : List (String × FeatureValue))
    (b b' : Bindings) : Prop where
  keeps : Substitution.Le b.get? b'.get?
  meets : ∀ feature v a, (feature, v) ∈ entries → found.get? feature = some (.atom a) →
    v.under b'.get? = .atom a
  binds : ∀ x a, b'.get? x = some a → b.get? x = some a ∨
    ∃ feature, (feature, .var x) ∈ entries ∧ found.get? feature = some (.atom a)

/-- How the first of several entries is read: its feature is as it should be
already, or binds a variable, or clashes, or is none that anything is asked of. -/
theorem absorb_cons_cases (found : FeatureMap) (feature : String) (v : FeatureValue)
    (rest : List (String × FeatureValue)) (b : Bindings) :
    (∃ a, found.get? feature = some (.atom a) ∧ v.under b.get? = .atom a ∧
      b.absorb found ((feature, v) :: rest) = b.absorb found rest) ∨
    (∃ a x, found.get? feature = some (.atom a) ∧ v = .var x ∧ b.get? x = none ∧
      b.absorb found ((feature, v) :: rest) = (b.bind x a).absorb found rest) ∨
    (∃ a c, found.get? feature = some (.atom a) ∧ v.under b.get? = .atom c ∧ c ≠ a ∧
      b.absorb found ((feature, v) :: rest) = (b, false)) ∨
    ((∀ a, found.get? feature ≠ some (.atom a)) ∧
      b.absorb found ((feature, v) :: rest) = b.absorb found rest) := by
  rw [absorb, ← resolve_eq_under]
  split
  · rename_i c a hc ha
    split
    · rename_i heq
      exact .inl ⟨a, ha, heq ▸ hc, rfl⟩
    · rename_i hne
      exact .inr (.inr (.inl ⟨a, c, ha, hc, hne, rfl⟩))
  · rename_i x a hx ha
    rw [resolve_eq_under] at hx
    obtain ⟨hv, hnone⟩ := FeatureValue.under_eq_var_iff.1 hx
    exact .inr (.inl ⟨a, x, ha, hv, hnone, rfl⟩)
  · rename_i hatom hvar
    refine .inr (.inr (.inr ⟨fun a ha => ?_, rfl⟩))
    cases hv : b.resolve v with
    | atom c => exact hatom c a hv ha
    | var x => exact hvar x a hv ha

theorem Absorbed.nil : Absorbed found [] b b where
  keeps := fun _ _ h => h
  meets := fun _ _ _ h => nomatch h
  binds := fun _ _ h => .inl h

/-- An entry comes to what is found in the end, if it does when it is read. -/
theorem Absorbed.cons {feature : String} {v : FeatureValue} {b₁ : Bindings}
    (h : Absorbed found entries b₁ b') (hle : Substitution.Le b.get? b₁.get?)
    (hmeets : ∀ a, found.get? feature = some (.atom a) → v.under b₁.get? = .atom a)
    (hbinds : ∀ x a, b₁.get? x = some a → b.get? x = some a ∨
      v = .var x ∧ found.get? feature = some (.atom a)) :
    Absorbed found ((feature, v) :: entries) b b' where
  keeps := fun x a hx => h.keeps x a (hle x a hx)
  meets := by
    intro f w a hmem ha
    rcases List.mem_cons.1 hmem with heq | hmem
    · obtain ⟨rfl, rfl⟩ := Prod.mk.inj heq
      have hvalue := hmeets a ha
      cases w with
      | atom c => exact hvalue
      | var x =>
        rw [FeatureValue.under_var_eq_atom_iff] at hvalue ⊢
        exact h.keeps x a hvalue
    · exact h.meets f w a hmem ha
  binds := by
    intro x a hx
    rcases h.binds x a hx with hx | ⟨f, hmem, ha⟩
    · rcases hbinds x a hx with hx | ⟨rfl, ha⟩
      · exact .inl hx
      · exact .inr ⟨feature, List.mem_cons_self, ha⟩
    · exact .inr ⟨f, List.mem_cons_of_mem _ hmem, ha⟩

theorem absorbed_of_absorb (h : b.absorb found entries = (b', true)) :
    Absorbed found entries b b' := by
  induction entries generalizing b with
  | nil =>
    obtain ⟨rfl, -⟩ := Prod.mk.inj h
    exact .nil
  | cons entry rest ih =>
    obtain ⟨feature, v⟩ := entry
    rcases absorb_cons_cases found feature v rest b with
      ⟨a, ha, hv, heq⟩ | ⟨a, x, ha, rfl, hx, heq⟩ | ⟨a, c, ha, hv, hne, heq⟩ | ⟨hnone, heq⟩ <;>
      rw [heq] at h
    · -- the entry has come to the atom already
      refine (ih h).cons (fun _ _ h => h) (fun c hc => ?_) fun x c hx => .inl hx
      rw [ha] at hc
      rw [hv, FeatureValue.atom.inj (Option.some.inj hc)]
    · -- the entry is a variable, which is bound now
      refine (ih h).cons (le_bind hx a) (fun c hc => ?_) fun y c hy => ?_
      · rw [ha] at hc
        rw [FeatureValue.under_var_eq_atom_iff, get?_bind, if_pos rfl,
          FeatureValue.atom.inj (Option.some.inj hc)]
      · rw [get?_bind] at hy
        split at hy
        · rename_i hxy
          exact .inr ⟨congrArg _ hxy, by rw [ha, Option.some.inj hy]⟩
        · exact .inl hy
    · cases (Prod.mk.inj h).2
    · -- nothing is asked of the entry
      exact (ih h).cons (fun _ _ h => h) (fun c hc => absurd hc (hnone c)) fun x c hx => .inl hx

/-- Absorbing gives up only where there is no substitution to be found. -/
theorem absorb_of_meets (hle : Substitution.Le b.get? ρ)
    (hmeets : ∀ feature v a, (feature, v) ∈ entries → found.get? feature = some (.atom a) →
      v.under ρ = .atom a) :
    ∃ b', b.absorb found entries = (b', true) := by
  induction entries generalizing b with
  | nil => exact ⟨b, rfl⟩
  | cons entry rest ih =>
    obtain ⟨feature, v⟩ := entry
    have hfirst := hmeets feature v
    have hrest := fun f w a hmem => hmeets f w a (List.mem_cons_of_mem _ hmem)
    rcases absorb_cons_cases found feature v rest b with
      ⟨a, ha, hv, heq⟩ | ⟨a, x, ha, rfl, hx, heq⟩ | ⟨a, c, ha, hv, hne, heq⟩ | ⟨hnone, heq⟩ <;>
      rw [heq]
    · exact ih hle hrest
    · refine ih (fun y c hy => ?_) hrest
      rw [get?_bind] at hy
      split at hy
      · rename_i hxy
        rw [← hxy, ← Option.some.inj hy]
        exact FeatureValue.under_var_eq_atom_iff.1 (hfirst a List.mem_cons_self ha)
      · exact hle y c hy
    · -- an atom that clashes under `b` clashes under anything above `b`
      have hvalue := hfirst a List.mem_cons_self ha
      cases v with
      | atom d => exact absurd (FeatureValue.atom.inj (hv.symm.trans hvalue)) hne
      | var x =>
        rw [FeatureValue.under_var_eq_atom_iff] at hv hvalue
        rw [hle x c hv] at hvalue
        exact absurd (Option.some.inj hvalue) hne
    · exact ih hle hrest

end Bindings

/-! ### One advance -/

namespace FeatureSymbol

/-- Two equal terminals, or two categories of one name. -/
inductive Alike : (expected found : FeatureSymbol) → Prop where
  | terminal (t : String) : Alike (.terminal t) (.terminal t)
  | category (name : String) (m m' : FeatureMap) :
    Alike (.category ⟨name, m⟩) (.category ⟨name, m'⟩)

theorem alike_iff_key {e f : FeatureSymbol} : Alike e f ↔ e.key = f.key := by
  constructor
  · rintro (t | ⟨name, m, m'⟩) <;> rfl
  · intro h
    cases e with
    | terminal t =>
      cases f with
      | terminal t' => exact Symbol.terminal.inj h ▸ .terminal t
      | category c => cases h
    | category c =>
      cases f with
      | terminal t => cases h
      | category c' =>
        obtain ⟨name, m⟩ := c
        obtain ⟨name', m'⟩ := c'
        obtain rfl : name = name' := Symbol.nonterminal.inj h
        exact .category name m m'

/-- `σ` meets what `found` asks of the features of `expected`, and does nothing else. -/
structure Settles (σ : Substitution) (expected found : FeatureSymbol) : Prop where
  meets : expected.features.Meets σ found.features
  binds : ∀ x a, σ x = some a → expected.features.Binds found.features x a

variable {σ : Substitution} {lhs expected found : FeatureSymbol} {rhs : List FeatureSymbol}
  {dot : Nat} {a : Advance FeatureSymbol}

/-- There is only one substitution that meets the demands and does nothing else. -/
theorem Settles.unique {τ : Substitution} (h : Settles σ expected found)
    (h' : Settles τ expected found) : σ = τ := by
  funext x
  refine Option.ext fun a => ⟨fun ha => ?_, fun ha => ?_⟩
  · exact (h.binds x a ha).of_meets h'.meets
  · exact (h'.binds x a ha).of_meets h.meets

/-- Both sides after the advance over `found` that `τ` settles. -/
def settled (τ : Substitution) (lhs : FeatureSymbol) (rhs : List FeatureSymbol) (dot : Nat)
    (expected found : FeatureSymbol) : Advance FeatureSymbol :=
  ⟨lhs.under τ, (rhs.map (under τ)).set dot ((expected.under τ).extend found.ground)⟩

/-- A terminal has no features, so it asks for nothing. -/
theorem settles_terminal (t : String) : Settles .empty (terminal t) (terminal t) where
  meets := fun _ _ _ h => nomatch h
  binds := fun _ _ h => nomatch h

theorem settled_terminal {t : String} (h : rhs[dot]? = some (terminal t)) :
    settled .empty lhs rhs dot (terminal t) (terminal t) = ⟨lhs, rhs⟩ := by
  obtain ⟨hlt, heq⟩ := List.getElem?_eq_some_iff.1 h
  have hmap : rhs.map (under .empty) = rhs := by
    rw [show under .empty = id from funext under_empty, List.map_id]
  have hslot : ((terminal t).under .empty).extend (terminal t).ground = rhs[dot] := heq.symm
  rw [settled, under_empty, hmap, hslot, List.set_getElem_self]

/-- Unifying from scratch settles the two categories. -/
theorem settles_of_absorb {e f : Category} {b : Bindings}
    (h : Bindings.empty.absorb f.features e.features.entries = (b, true)) :
    Settles b.get? (category e) (category f) := by
  have habsorbed := Bindings.absorbed_of_absorb h
  refine ⟨fun feature v a hv ha => ?_, fun x a hx => ?_⟩
  · exact habsorbed.meets feature v a ((e.features.get?_eq_some_iff).1 hv) ha
  · rcases habsorbed.binds x a hx with hx | ⟨feature, hmem, ha⟩
    · cases hx
    · exact ⟨feature, (e.features.get?_eq_some_iff).2 hmem, ha⟩

theorem merge_eq_extend (e f : Category) (b : Bindings) :
    category (Category.merge b e f) = ((category e).under b.get?).extend (category f).ground := by
  rw [← substitute_eq_under]
  rfl

theorem advance_category {e f : Category} {b : Bindings} (hname : e.name = f.name)
    (h : Bindings.empty.absorb f.features e.features.entries = (b, true))
    (hnext : rhs[dot]? = some (category e)) :
    FeatureSymbol.advance lhs rhs dot (category f) =
      some (settled b.get? lhs rhs dot (category e) (category f)) := by
  have hunify : e.unify f .empty = (b, some (Category.merge b e f)) := by
    rw [Category.unify_eq, if_pos hname, h]
  unfold FeatureSymbol.advance
  rw [hnext]
  simp only [hunify]
  rw [merge_eq_extend, substitute_eq_under,
    show substitute b = under b.get? from funext (substitute_eq_under b)]
  rfl

/-- If demands can be met at all, the advance meets them. -/
theorem exists_advance (lhs : FeatureSymbol) (hnext : rhs[dot]? = some expected)
    (halike : Alike expected found) (hmeets : expected.features.Meets σ found.features) :
    ∃ τ, Settles τ expected found ∧ FeatureSymbol.advance lhs rhs dot found =
      some (settled τ lhs rhs dot expected found) := by
  cases halike with
  | terminal t =>
    refine ⟨.empty, settles_terminal t, ?_⟩
    unfold FeatureSymbol.advance
    rw [hnext, settled_terminal hnext]
    exact if_pos rfl
  | category name m m' =>
    obtain ⟨b, hb⟩ := Bindings.absorb_of_meets (b := .empty) (ρ := σ)
      (fun _ _ h => nomatch h) fun feature v a hv ha =>
        hmeets feature v a ((m.get?_eq_some_iff).2 hv) ha
    exact ⟨b.get?, settles_of_absorb hb, advance_category rfl hb hnext⟩

/-- An advance goes through if the label is like the symbol at the dot and
some substitution meets it; what comes out is settled by the least one. -/
theorem advance_eq_some_iff :
    FeatureSymbol.advance lhs rhs dot found = some a ↔
      ∃ expected τ, rhs[dot]? = some expected ∧ Alike expected found ∧
        Settles τ expected found ∧ a = settled τ lhs rhs dot expected found := by
  constructor
  · intro h
    rcases advance_cases h with ⟨t, hnext, rfl, rfl⟩ | ⟨e, f, b, merged, hnext, rfl, hu, -⟩
    · exact ⟨_, .empty, hnext, .terminal t, settles_terminal t, (settled_terminal hnext).symm⟩
    · obtain ⟨hname, -, -⟩ := Category.unify_eq_some hu
      have habsorb : Bindings.empty.absorb f.features e.features.entries = (b, true) := by
        rw [Category.unify_eq, if_pos hname] at hu
        split at hu
        · rename_i b' hb'
          rw [hb', (Prod.mk.inj hu).1]
        · cases (Prod.mk.inj hu).2
      refine ⟨_, b.get?, hnext, alike_iff_key.2 (congrArg Symbol.nonterminal hname),
        settles_of_absorb habsorb, ?_⟩
      exact Option.some.inj (h.symm.trans (advance_category hname habsorb hnext))
  · rintro ⟨expected, τ, hnext, halike, hsettles, rfl⟩
    obtain ⟨τ', hsettles', hadvance⟩ := exists_advance lhs hnext halike hsettles.meets
    rw [hadvance, hsettles.unique hsettles']

end FeatureSymbol

end ChartParsing
