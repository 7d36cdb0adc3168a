/-
ChartParsing/Proofs/Feature/Solution.lean

Filling the places of a production one by one solves it as a whole.

Each advance starts with nothing bound, and knows of earlier ones only by what
they have put into both sides.  That is enough: the substitution that settles
the next place (`Settles`) joins those that settled the places before it, and
the joined one is the least that meets the demands of all labels found so far
(`Solution.concat`).  So the order in which variables are met does not
matter, and what comes out can be read off one substitution (`solved`).
-/
import ChartParsing.Grammar.Production
import ChartParsing.Proofs.Feature.Unification
import ChartParsing.Proofs.Label.Series
import Mathlib.Data.List.Induction

namespace ChartParsing

namespace FeatureSymbol

/-! ### Labels in the places that they fill -/

/-- `found` is the label found for a place where `rhs` has `expected`. -/
def Paired (rhs founds : List FeatureSymbol) (expected found : FeatureSymbol) : Prop :=
  ∃ i : Nat, rhs[i]? = some expected ∧ founds[i]? = some found

/-- `σ` meets the demands of every label found. -/
def Solves (σ : Substitution) (rhs founds : List FeatureSymbol) : Prop :=
  ∀ expected found, Paired rhs founds expected found →
    expected.features.Meets σ found.features

/-- `σ` solves the places, and gives an atom only to a variable that a label
found has that atom for. -/
structure Solution (σ : Substitution) (rhs founds : List FeatureSymbol) : Prop where
  solves : Solves σ rhs founds
  constrained : ∀ x a, σ x = some a → ∃ expected found, Paired rhs founds expected found ∧
    expected.features.Binds found.features x a

/-- The symbol of a place under `σ`, with the atoms of the label found for it, if there is one. -/
def filled (σ : Substitution) (expected : FeatureSymbol) : Option FeatureSymbol → FeatureSymbol
  | none => expected.under σ
  | some found => (expected.under σ).extend found.ground

/-- Both sides of a production under `σ`, with the labels found so far in their places. -/
def solved (σ : Substitution) (lhs : FeatureSymbol) (rhs founds : List FeatureSymbol) :
    Advance FeatureSymbol :=
  ⟨lhs.under σ, rhs.mapIdx fun i expected => expected.filled σ founds[i]?⟩

variable {σ τ : Substitution} {lhs expected found : FeatureSymbol}
  {rhs founds : List FeatureSymbol} {a : Advance FeatureSymbol}

theorem getElem?_concat (founds : List FeatureSymbol) (found : FeatureSymbol) (i : Nat) :
    (founds ++ [found])[i]? = if i = founds.length then some found else founds[i]? := by
  split
  · rename_i h
    rw [h, List.getElem?_append_right (Nat.le_refl _), Nat.sub_self]
    rfl
  · rename_i h
    rcases Nat.lt_or_gt_of_ne h with hlt | hgt
    · exact List.getElem?_append_left hlt
    · rw [List.getElem?_eq_none (Nat.le_of_lt hgt), List.getElem?_eq_none]
      rw [List.length_append, List.length_singleton]
      exact hgt

/-- One more label is paired with the symbol of the place after all others. -/
theorem paired_concat_iff (hnext : rhs[founds.length]? = some expected) {e f : FeatureSymbol} :
    Paired rhs (founds ++ [found]) e f ↔
      Paired rhs founds e f ∨ e = expected ∧ f = found := by
  constructor
  · rintro ⟨i, he, hf⟩
    rw [getElem?_concat] at hf
    split at hf
    · rename_i hi
      rw [hi, hnext] at he
      exact .inr ⟨(Option.some.inj he).symm, (Option.some.inj hf).symm⟩
    · exact .inl ⟨i, he, hf⟩
  · rintro (⟨i, he, hf⟩ | ⟨rfl, rfl⟩)
    · refine ⟨i, he, ?_⟩
      have hlt := (List.getElem?_eq_some_iff.1 hf).1
      rw [getElem?_concat, if_neg (Nat.ne_of_lt hlt), hf]
    · exact ⟨founds.length, hnext, by rw [getElem?_concat, if_pos rfl]⟩

/-! ### Solutions -/

theorem solution_nil (rhs : List FeatureSymbol) : Solution .empty rhs [] where
  solves := fun _ _ ⟨_, _, h⟩ => nomatch h
  constrained := fun _ _ h => nomatch h

/-- A solution has no atom that another substitution could do without. -/
theorem Solution.le (h : Solution σ rhs founds) (hsolves : Solves τ rhs founds) : σ.Le τ := by
  intro x a hx
  obtain ⟨e, f, hpaired, hbinds⟩ := h.constrained x a hx
  exact hbinds.of_meets (hsolves e f hpaired)

theorem under_filled (e : FeatureSymbol) (f : Option FeatureSymbol) :
    (e.filled σ f).under τ = e.filled (σ.orElse τ) f := by
  cases f with
  | none => exact e.under_under
  | some f => rw [filled, filled, under_extend_ground, under_under]

theorem getElem?_solved (i : Nat) :
    (solved σ lhs rhs founds).rhs[i]? = rhs[i]?.map fun e => e.filled σ founds[i]? :=
  List.getElem?_mapIdx

/-- The symbol after the filled places has been substituted in, and no more. -/
theorem getElem?_solved_length (lhs : FeatureSymbol)
    (hnext : rhs[founds.length]? = some expected) :
    (solved σ lhs rhs founds).rhs[founds.length]? = some (expected.under σ) := by
  rw [getElem?_solved, hnext, List.getElem?_eq_none (Nat.le_refl _)]
  rfl

theorem solved_nil (lhs : FeatureSymbol) (rhs : List FeatureSymbol) :
    solved .empty lhs rhs [] = ⟨lhs, rhs⟩ := by
  have hrhs : (solved .empty lhs rhs []).rhs = rhs := by
    refine List.ext_getElem? fun i => ?_
    rw [getElem?_solved]
    show rhs[i]?.map (fun e => e.under .empty) = rhs[i]?
    rw [show (fun e : FeatureSymbol => e.under .empty) = id from funext under_empty,
      Option.map_id, id]
  show Advance.mk (lhs.under .empty) (solved .empty lhs rhs []).rhs = ⟨lhs, rhs⟩
  rw [hrhs, under_empty]

/-- What settles the next place joins what solved the places before it. -/
theorem Solution.concat (h : Solution σ rhs founds)
    (hnext : rhs[founds.length]? = some expected)
    (hsettles : Settles τ (expected.under σ) found) :
    Solution (σ.orElse τ) rhs (founds ++ [found]) where
  solves := by
    intro e f hpaired
    rcases (paired_concat_iff hnext).1 hpaired with hpaired | ⟨rfl, rfl⟩
    · -- earlier demands stay met
      refine (h.solves e f hpaired).mono fun x a hx => ?_
      rw [Substitution.orElse, hx, Option.some_or]
    · intro feature v a hv ha
      have hvalue : (e.under σ).features.get? feature = some (v.under σ) := by
        rw [get?_under, hv, Option.map_some]
      rw [← FeatureValue.under_under]
      exact hsettles.meets feature _ a hvalue ha
  constrained := by
    intro x a hx
    rcases Option.or_eq_some_iff.1 hx with hx | ⟨-, hx⟩
    · obtain ⟨e, f, hpaired, hbinds⟩ := h.constrained x a hx
      exact ⟨e, f, (paired_concat_iff hnext).2 (.inl hpaired), hbinds⟩
    · obtain ⟨feature, hvar, ha⟩ := hsettles.binds x a hx
      exact ⟨expected, found, (paired_concat_iff hnext).2 (.inr ⟨rfl, rfl⟩), feature,
        (get?_under_eq_var_iff.1 hvar).1, ha⟩

/-- Settling the next place of a solved production solves it for one label more. -/
theorem settled_solved (hnext : rhs[founds.length]? = some expected) :
    settled τ (solved σ lhs rhs founds).lhs (solved σ lhs rhs founds).rhs founds.length
      (expected.under σ) found = solved (σ.orElse τ) lhs rhs (founds ++ [found]) := by
  have hlhs : (lhs.under σ).under τ = lhs.under (σ.orElse τ) := lhs.under_under
  have hrhs : ((solved σ lhs rhs founds).rhs.map (under τ)).set founds.length
        (((expected.under σ).under τ).extend found.ground) =
      (solved (σ.orElse τ) lhs rhs (founds ++ [found])).rhs := by
    refine List.ext_getElem? fun i => ?_
    rw [getElem?_solved, getElem?_concat, List.getElem?_set', List.getElem?_map,
      getElem?_solved, Option.map_map]
    by_cases hi : founds.length = i
    · subst hi
      rw [if_pos rfl, if_pos rfl, hnext, under_under]
      rfl
    · rw [if_neg hi, if_neg (Ne.symm hi)]
      exact congrArg (Option.map · rhs[i]?) (funext fun e => under_filled e _)
  exact congrArg₂ Advance.mk hlhs hrhs

/-! ### Advancing all along -/

/-- An advance past the filled places goes on from their solution. -/
theorem advance_solved {a' : Advance FeatureSymbol} (h : Solution σ rhs founds)
    (hadvance : Label.advance (solved σ lhs rhs founds).lhs (solved σ lhs rhs founds).rhs
      (0 + founds.length) found = some a') :
    ∃ expected τ, rhs[founds.length]? = some expected ∧ Alike expected found ∧
      Solution τ rhs (founds ++ [found]) ∧ a' = solved τ lhs rhs (founds ++ [found]) := by
  rw [Nat.zero_add] at hadvance
  obtain ⟨e, τ, he, halike, hsettles, rfl⟩ := advance_eq_some_iff.1 hadvance
  rw [getElem?_solved, List.getElem?_eq_none (Nat.le_refl _), Option.map_eq_some_iff] at he
  obtain ⟨expected, hnext, rfl⟩ := he
  refine ⟨expected, σ.orElse τ, hnext, ?_, h.concat hnext hsettles, settled_solved hnext⟩
  exact alike_iff_key.2 ((key_under expected).symm.trans (alike_iff_key.1 halike))

/-- What successive advances lead to is the production under their solution. -/
theorem solution_of_advanceAll (h : Label.advanceAll 0 ⟨lhs, rhs⟩ founds = some a) :
    (∀ expected found, Paired rhs founds expected found → Alike expected found) ∧
      ∃ σ, Solution σ rhs founds ∧ a = solved σ lhs rhs founds := by
  induction founds using List.reverseRecOn generalizing a with
  | nil =>
    obtain rfl := Option.some.inj h
    exact ⟨fun _ _ ⟨_, _, h⟩ => (nomatch h), .empty, solution_nil rhs, (solved_nil lhs rhs).symm⟩
  | append_singleton founds found ih =>
    rw [Label.advanceAll_concat, Option.bind_eq_some_iff] at h
    obtain ⟨a', ha', hadvance⟩ := h
    obtain ⟨halike, σ, hσ, rfl⟩ := ih ha'
    obtain ⟨expected, τ, hnext, hlast, hτ, rfl⟩ := advance_solved hσ hadvance
    refine ⟨fun e f hpaired => ?_, τ, hτ, rfl⟩
    rcases (paired_concat_iff hnext).1 hpaired with hpaired | ⟨rfl, rfl⟩
    · exact halike e f hpaired
    · exact hlast

/-- Successive advances go through wherever one substitution solves all places. -/
theorem exists_advanceAll (hle : founds.length ≤ rhs.length)
    (halike : ∀ expected found, Paired rhs founds expected found → Alike expected found)
    (hsolves : Solves τ rhs founds) :
    ∃ a, Label.advanceAll 0 ⟨lhs, rhs⟩ founds = some a := by
  induction founds using List.reverseRecOn with
  | nil => exact ⟨_, rfl⟩
  | append_singleton founds found ih =>
    rw [List.length_append, List.length_singleton] at hle
    obtain ⟨expected, hnext⟩ : ∃ expected, rhs[founds.length]? = some expected :=
      ⟨_, List.getElem?_eq_getElem hle⟩
    have hearlier : ∀ e f, Paired rhs founds e f → Paired rhs (founds ++ [found]) e f :=
      fun e f hpaired => (paired_concat_iff hnext).2 (.inl hpaired)
    have hlast : Paired rhs (founds ++ [found]) expected found :=
      (paired_concat_iff hnext).2 (.inr ⟨rfl, rfl⟩)
    obtain ⟨a, ha⟩ := ih (Nat.le_of_succ_le hle) (fun e f h => halike e f (hearlier e f h))
      fun e f h => hsolves e f (hearlier e f h)
    obtain ⟨-, σ, hσ, rfl⟩ := solution_of_advanceAll ha
    -- `τ` has all the atoms put in so far, so it can still meet what is left to ask
    have hle : σ.Le τ := hσ.le fun e f h => hsolves e f (hearlier e f h)
    have hmeets : (expected.under σ).features.Meets τ found.features := by
      intro feature v b hv hb
      rw [get?_under, Option.map_eq_some_iff] at hv
      obtain ⟨w, hw, rfl⟩ := hv
      rw [FeatureValue.under_under, Substitution.orElse_eq_of_le hle]
      exact hsolves expected found hlast feature w b hw hb
    have hlike : Alike (expected.under σ) found :=
      alike_iff_key.2 ((key_under expected).trans (alike_iff_key.1 (halike _ _ hlast)))
    obtain ⟨τ', -, hadvance⟩ := exists_advance (solved σ lhs rhs founds).lhs
      (getElem?_solved_length lhs hnext) hlike hmeets
    rw [Label.advanceAll_concat, ha, Option.bind_some, Nat.zero_add]
    exact ⟨_, hadvance⟩

/-! ### Variables of the labels found -/

theorem features_meets_ground_iff {m : FeatureMap} :
    m.Meets σ found.ground.features ↔ m.Meets σ found.features := by
  refine forall₄_congr fun feature v b _ => ?_
  rw [get?_ground_eq_atom_iff]

theorem settles_ground_iff : Settles σ expected found.ground ↔ Settles σ expected found := by
  have hbinds : ∀ x b, expected.features.Binds found.ground.features x b ↔
      expected.features.Binds found.features x b := fun x b =>
    exists_congr fun feature => and_congr_right fun _ => by rw [get?_ground_eq_atom_iff]
  constructor
  · rintro ⟨hmeets, hb⟩
    exact ⟨features_meets_ground_iff.1 hmeets, fun x b hx => (hbinds x b).1 (hb x b hx)⟩
  · rintro ⟨hmeets, hb⟩
    exact ⟨features_meets_ground_iff.2 hmeets, fun x b hx => (hbinds x b).2 (hb x b hx)⟩

/-- To an advance, a label is its key and its atoms. -/
theorem advance_ground (a : Advance FeatureSymbol) (dot : Nat) (found : FeatureSymbol) :
    Label.advance a.lhs a.rhs dot found.ground = Label.advance a.lhs a.rhs dot found := by
  refine Option.ext fun a' => ?_
  refine Iff.trans advance_eq_some_iff (Iff.trans ?_ advance_eq_some_iff.symm)
  refine exists₂_congr fun expected τ => and_congr_right fun _ => ?_
  rw [alike_iff_key, alike_iff_key, key_ground, settles_ground_iff, settled, settled,
    ground_ground]

theorem advanceAll_ground (dot : Nat) (a : Advance FeatureSymbol)
    (founds : List FeatureSymbol) :
    Label.advanceAll dot a (founds.map ground) = Label.advanceAll dot a founds := by
  induction founds generalizing dot a with
  | nil => rfl
  | cons found founds ih =>
    rw [List.map_cons, Label.advanceAll, Label.advanceAll, advance_ground]
    exact Option.bind_congr fun a' _ => ih _ _

/-- A variable that a solution leaves stands where the production has it. -/
theorem get?_filled_eq_var {e : FeatureSymbol} {f : Option FeatureSymbol} {feature x : String}
    (h : (e.filled σ f).features.get? feature = some (.var x)) :
    e.features.get? feature = some (.var x) ∧ σ x = none := by
  cases f with
  | none => exact get?_under_eq_var_iff.1 h
  | some f => exact get?_under_eq_var_iff.1 (get?_under_extend_ground_eq_var h)

/-! ### The production as a whole -/

/-- Every variable of `a` stands where the production has it. -/
structure KeepsVariables (p : Production FeatureSymbol) (a : Advance FeatureSymbol) : Prop where
  lhs : ∀ feature x, a.lhs.features.get? feature = some (.var x) →
    p.lhs.features.get? feature = some (.var x)
  rhs : ∀ (i : Nat) r feature x, a.rhs[i]? = some r →
    r.features.get? feature = some (.var x) →
      ∃ e, p.rhs[i]? = some e ∧ e.features.get? feature = some (.var x)

theorem keepsVariables_solved (p : Production FeatureSymbol) (σ : Substitution)
    (founds : List FeatureSymbol) : KeepsVariables p (solved σ p.lhs p.rhs founds) where
  lhs := fun _ _ h => (get?_under_eq_var_iff.1 h).1
  rhs := by
    intro i r feature x hr hx
    rw [getElem?_solved, Option.map_eq_some_iff] at hr
    obtain ⟨e, he, rfl⟩ := hr
    exact ⟨e, he, (get?_filled_eq_var hx).1⟩

/-- Filling the first places of a production one by one is solving them at
once: it goes through where the labels found are like the symbols of their
places and some substitution meets them all, it leads to the production under
the least such substitution, and the variables of the labels found are as good
as absent. -/
theorem advanceAll_eq_least_solution (p : Production FeatureSymbol)
    (founds : List FeatureSymbol) (hle : founds.length ≤ p.rhs.length) :
    ((∃ a, Label.advanceAll 0 ⟨p.lhs, p.rhs⟩ founds = some a) ↔
        (∀ e f, Paired p.rhs founds e f → Alike e f) ∧ ∃ σ, Solves σ p.rhs founds) ∧
      (∀ a, Label.advanceAll 0 ⟨p.lhs, p.rhs⟩ founds = some a →
        ∃ σ, Solution σ p.rhs founds ∧ (∀ τ, Solves τ p.rhs founds → σ.Le τ) ∧
          a = solved σ p.lhs p.rhs founds ∧ KeepsVariables p a) ∧
      Label.advanceAll 0 ⟨p.lhs, p.rhs⟩ (founds.map ground) =
        Label.advanceAll 0 ⟨p.lhs, p.rhs⟩ founds := by
  refine ⟨⟨?_, ?_⟩, ?_, advanceAll_ground 0 _ founds⟩
  · rintro ⟨a, ha⟩
    obtain ⟨halike, σ, hσ, -⟩ := solution_of_advanceAll ha
    exact ⟨halike, σ, hσ.solves⟩
  · rintro ⟨halike, σ, hsolves⟩
    exact exists_advanceAll hle halike hsolves
  · intro a ha
    obtain ⟨-, σ, hσ, rfl⟩ := solution_of_advanceAll ha
    exact ⟨σ, hσ, fun τ hτ => hσ.le hτ, rfl, keepsVariables_solved p σ founds⟩

/-- A clause whose subject, verb and complement agree in number, with the
person of subject and verb the same. -/
def agreeingClause (num per : FeatureValue) : Production FeatureSymbol :=
  ⟨.category ⟨"S", .ofList [("num", num), ("per", per)]⟩,
    [.category ⟨"NP", .ofList [("num", num), ("per", per)]⟩,
      .category ⟨"VP", .ofList [("num", num), ("per", per)]⟩,
      .category ⟨"AP", .ofList [("num", num)]⟩]⟩

/-- A definite subject of any person, under a variable that the clause uses for
the number, and a verb in the third. -/
def definiteSubject (per : FeatureValue) : List FeatureSymbol :=
  [.category ⟨"NP", .ofList [("num", .atom "sg"), ("per", per), ("def", .atom "+")]⟩,
    .category ⟨"VP", .ofList [("per", .atom "3")]⟩]

theorem advanceAll_eq_least_solution_agreement :
    let clause := agreeingClause (.var "n") (.var "p")
    let founds := definiteSubject (.var "n")
    founds.length ≤ clause.rhs.length ∧
      ∃ a σ, Label.advanceAll 0 ⟨clause.lhs, clause.rhs⟩ founds = some a ∧
        Solution σ clause.rhs founds ∧ a = solved σ clause.lhs clause.rhs founds ∧
        a.lhs = (agreeingClause (.atom "sg") (.atom "3")).lhs := by
  intro clause founds
  have hle : founds.length ≤ clause.rhs.length := by decide
  obtain ⟨a, ha, hlhs⟩ : ∃ a, Label.advanceAll 0 ⟨clause.lhs, clause.rhs⟩ founds = some a ∧
      a.lhs = (agreeingClause (.atom "sg") (.atom "3")).lhs := ⟨_, rfl, by decide +kernel⟩
  obtain ⟨σ, hσ, -, hsolved, -⟩ := (advanceAll_eq_least_solution clause founds hle).2.1 a ha
  exact ⟨hle, a, σ, ha, hσ, hsolved, hlhs⟩

end FeatureSymbol

end ChartParsing
