/-
ChartParsing/Proofs/Source/Resolving.lean

What symbols and lines mean, whether they are resolved or refused.

`Means` says which label a written symbol stands for, or why for none; each
kind of label has a meaning of its own (`Symbol.Means`, `FeatureSymbol.Means`).
`Expands` goes on to lines: the productions that a line stands for, or the
first fault in it.  Both are relations that leave no choice, and resolving
computes them (`Denotes.resolve_eq_iff`, `resolveLine_eq_ok_iff`,
`resolveLine_eq_error_iff`).
-/
import ChartParsing.Proofs.Feature.Map
import ChartParsing.Proofs.Steps
import ChartParsing.Source.Load

namespace ChartParsing

/-! ### Features one by one -/

namespace FeatureMap

variable {m m' : FeatureMap} {pairs : List (String × FeatureValue)}

/-- All features are new, and they are what the map has besides. -/
theorem addNew_eq_ok_iff :
    m.addNew pairs = .ok m' ↔ (pairs.map Prod.fst).Nodup ∧ (∀ p ∈ pairs, m.get? p.1 = none) ∧
      ∀ f v, m'.get? f = some v ↔ m.get? f = some v ∨ (f, v) ∈ pairs := by
  induction pairs generalizing m with
  | nil =>
    refine ⟨fun h => ?_, fun ⟨_, _, hget⟩ => ?_⟩
    · obtain rfl := Except.ok.inj h
      simp
    · have heq : m = m' := ext_get? fun f => Option.ext fun v => by simp [hget]
      rw [heq]
      rfl
  | cons p ps ih =>
    obtain ⟨f, v⟩ := p
    rw [addNew]
    cases hf : m.get? f with
    | some u =>
      refine iff_of_false (fun h => nomatch h) ?_
      rintro ⟨-, hnew, -⟩
      have hnone := hnew (f, v) List.mem_cons_self
      rw [hf] at hnone
      cases hnone
    | none =>
      have hnew : (∀ p ∈ ps, (m.insert f v).get? p.1 = none) ↔
          f ∉ ps.map Prod.fst ∧ ∀ p ∈ ps, m.get? p.1 = none := by
        rw [List.mem_map, not_exists]
        constructor
        · intro h
          refine ⟨fun p hp => ?_, fun p hp => ?_⟩
          · have hnone := h p hp.1
            rw [get?_insert, if_pos hp.2.symm] at hnone
            cases hnone
          · have hnone := h p hp
            rw [get?_insert] at hnone
            split at hnone
            · cases hnone
            · exact hnone
        · rintro ⟨hf, h⟩ p hp
          rw [get?_insert, if_neg fun heq => hf p ⟨hp, heq.symm⟩]
          exact h p hp
      have hget : ∀ f' v', (m.insert f v).get? f' = some v' ↔
          m.get? f' = some v' ∨ (f', v') = (f, v) := by
        intro f' v'
        rw [get?_insert, Prod.mk.injEq]
        by_cases heq : f = f'
        · subst heq
          simp [hf, eq_comm]
        · simp [heq, Ne.symm heq]
      rw [Option.isSome_none, if_neg Bool.false_ne_true, ih, hnew, List.map_cons, List.nodup_cons,
        List.forall_mem_cons]
      simp only [hget, or_assoc, List.mem_cons]
      constructor
      · rintro ⟨hps, ⟨hmem, hnone⟩, h⟩
        exact ⟨⟨hmem, hps⟩, ⟨hf, hnone⟩, h⟩
      · rintro ⟨⟨hmem, hps⟩, ⟨-, hnone⟩, h⟩
        exact ⟨hps, ⟨hmem, hnone⟩, h⟩

/-- The first feature that is there already is the one refused. -/
theorem addNew_eq_error_iff {f : String} :
    m.addNew pairs = .error f ↔ ∃ before v after m', pairs = before ++ (f, v) :: after ∧
      m.addNew before = .ok m' ∧ (m'.get? f).isSome = true := by
  induction pairs generalizing m with
  | nil =>
    refine ⟨(fun h => nomatch h), ?_⟩
    rintro ⟨before, v, after, m', h, -⟩
    cases before <;> cases h
  | cons p ps ih =>
    obtain ⟨g, w⟩ := p
    constructor
    · intro h
      rw [addNew] at h
      split at h
      · rename_i hsome
        obtain rfl := Except.error.inj h
        exact ⟨[], w, ps, m, rfl, rfl, hsome⟩
      · rename_i hnone
        obtain ⟨before, v, after, m', rfl, hbefore, hsome⟩ := ih.1 h
        refine ⟨(g, w) :: before, v, after, m', rfl, ?_, hsome⟩
        rw [addNew, if_neg hnone]
        exact hbefore
    · rintro ⟨before, v, after, m', heq, hbefore, hsome⟩
      cases before with
      | nil =>
        obtain ⟨hp, rfl⟩ := List.cons.inj heq
        obtain ⟨rfl, rfl⟩ := Prod.mk.inj hp
        obtain rfl := Except.ok.inj hbefore
        rw [addNew, if_pos hsome]
      | cons b before =>
        obtain ⟨rfl, rfl⟩ := List.cons.inj heq
        rw [addNew] at hbefore ⊢
        split at hbefore
        · cases hbefore
        · rename_i hnone
          rw [if_neg hnone]
          exact ih.2 ⟨before, v, after, m', rfl, hbefore, hsome⟩

end FeatureMap

/-! ### Symbols -/

/-- What a symbol means as a plain label: a terminal is itself, a category is its
name, and features mean nothing. -/
inductive Symbol.Means : Source.WrittenSymbol → Except LineFault Symbol → Prop
  | terminal (t : String) : Means (.terminal t) (.ok (.terminal t))
  | name (n : String) : Means (.category n []) (.ok (.nonterminal n))
  | features {n features} : features ≠ [] →
      Means (.category n features) (.error .featuresInPlainGrammar)

/-- What a symbol means as a label with features: a category has just those
that are written, unless some feature is written twice. -/
inductive FeatureSymbol.Means : Source.WrittenSymbol → Except LineFault FeatureSymbol → Prop
  | terminal (t : String) : Means (.terminal t) (.ok (.terminal t))
  | category {n features m} : (features.map Prod.fst).Nodup →
      (∀ f v, m.get? f = some v ↔ (f, v) ∈ features) →
      Means (.category n features) (.ok (.category ⟨n, m⟩))
  | repeated {n before f v after} : (before.map Prod.fst).Nodup → f ∈ before.map Prod.fst →
      Means (.category n (before ++ (f, v) :: after)) (.error (.repeatedFeature f n))

/-- Labels with a meaning of symbols that resolving comes to. -/
class Denotes (L : Type) [Resolve L] where
  /-- The label that a symbol stands for, or why there is none. -/
  Means : Source.WrittenSymbol → Except LineFault L → Prop
  resolve_eq_iff : ∀ w r, Resolve.resolve w = r ↔ Means w r

instance : Denotes Symbol where
  Means := Symbol.Means
  resolve_eq_iff := by
    intro w r
    constructor
    · rintro rfl
      cases w with
      | terminal t => exact .terminal t
      | category n features =>
        cases features with
        | nil => exact .name n
        | cons p ps => exact .features (List.cons_ne_nil p ps)
    · intro h
      cases h with
      | terminal t => rfl
      | name n => rfl
      | features hne =>
        obtain ⟨p, ps, rfl⟩ := List.exists_cons_of_ne_nil hne
        rfl

namespace FeatureMap

variable {features : List (String × FeatureValue)}

theorem addNew_empty_eq_ok_iff {m : FeatureMap} :
    empty.addNew features = .ok m ↔
      (features.map Prod.fst).Nodup ∧ ∀ f v, m.get? f = some v ↔ (f, v) ∈ features := by
  have hnone : ∀ f, empty.get? f = none := fun _ => rfl
  simp [addNew_eq_ok_iff, hnone]

theorem isSome_get?_of_addNew_empty {m : FeatureMap} (h : empty.addNew features = .ok m)
    (f : String) : (m.get? f).isSome = true ↔ f ∈ features.map Prod.fst := by
  simp [Option.isSome_iff_exists, (addNew_empty_eq_ok_iff.1 h).2]

theorem addNew_empty_eq_error_iff {f : String} :
    empty.addNew features = .error f ↔ ∃ before v after, features = before ++ (f, v) :: after ∧
      (before.map Prod.fst).Nodup ∧ f ∈ before.map Prod.fst := by
  rw [addNew_eq_error_iff]
  constructor
  · rintro ⟨before, v, after, m, rfl, hbefore, hsome⟩
    exact ⟨before, v, after, rfl, (addNew_empty_eq_ok_iff.1 hbefore).1,
      (isSome_get?_of_addNew_empty hbefore f).1 hsome⟩
  · rintro ⟨before, v, after, rfl, hnodup, hf⟩
    cases hbefore : empty.addNew before with
    | ok m =>
      exact ⟨before, v, after, m, rfl, hbefore, (isSome_get?_of_addNew_empty hbefore f).2 hf⟩
    | error g =>
      -- nothing before the feature is repeated
      obtain ⟨first, u, later, m, rfl, hfirst, hsome⟩ := addNew_eq_error_iff.1 hbefore
      have hg := (isSome_get?_of_addNew_empty hfirst g).1 hsome
      rw [List.map_append, List.map_cons] at hnodup
      exact absurd rfl ((List.nodup_append.1 hnodup).2.2 g hg g List.mem_cons_self)

end FeatureMap

theorem resolve_category (n : String) (features : List (String × FeatureValue)) :
    (Resolve.resolve (.category n features) : Except LineFault FeatureSymbol) =
      ((FeatureMap.empty.addNew features).mapError fun f => .repeatedFeature f n).map
        fun m => .category ⟨n, m⟩ := by
  simp only [Resolve.resolve]
  cases FeatureMap.empty.addNew features with
  | error f => rfl
  | ok m => rfl

instance : Denotes FeatureSymbol where
  Means := FeatureSymbol.Means
  resolve_eq_iff := by
    intro w r
    constructor
    · rintro rfl
      cases w with
      | terminal t => exact .terminal t
      | category n features =>
        rw [resolve_category]
        cases hadd : FeatureMap.empty.addNew features with
        | ok m =>
          obtain ⟨hnodup, hget⟩ := FeatureMap.addNew_empty_eq_ok_iff.1 hadd
          exact .category hnodup hget
        | error f =>
          obtain ⟨before, v, after, rfl, hnodup, hf⟩ := FeatureMap.addNew_empty_eq_error_iff.1 hadd
          exact .repeated hnodup hf
    · intro h
      cases h with
      | terminal t => rfl
      | category hnodup hget =>
        rw [resolve_category, FeatureMap.addNew_empty_eq_ok_iff.2 ⟨hnodup, hget⟩]
        rfl
      | repeated hnodup hf =>
        rw [resolve_category, FeatureMap.addNew_empty_eq_error_iff.2 ⟨_, _, _, rfl, hnodup, hf⟩]
        rfl

namespace Source

open Denotes (Means)

variable {L : Type} [Resolve L] [Denotes L]

theorem resolveAt_eq_ok_iff {number : Nat} {w : WrittenSymbol} {l : L} :
    resolveAt number w = .ok l ↔ Means w (.ok l) := by
  rw [resolveAt, mapError_eq_ok_iff, Denotes.resolve_eq_iff]

theorem resolveAt_eq_error_iff {number : Nat} {w : WrittenSymbol} {e : LoadError} :
    (resolveAt number w : Except LoadError L) = .error e ↔
      ∃ fault, Means w (.error fault : Except LineFault L) ∧ .line number fault = e := by
  simp only [resolveAt, mapError_eq_error_iff, Denotes.resolve_eq_iff]

/-! ### Alternatives -/

theorem mapM_resolveAt_eq_ok_iff {number : Nat} {ws : List WrittenSymbol} {ls : List L} :
    ws.mapM (resolveAt number) = .ok ls ↔ List.Forall₂ (fun w l => Means w (.ok l)) ws ls := by
  rw [mapM_eq_ok_iff]
  simp only [resolveAt_eq_ok_iff]

theorem exists_mapM_resolveAt_iff {number : Nat} {ws : List WrittenSymbol} :
    (∃ ls : List L, ws.mapM (resolveAt number) = .ok ls) ↔
      ∀ w ∈ ws, ∃ l : L, Means w (.ok l) := by
  simp only [mapM_resolveAt_eq_ok_iff]
  induction ws with
  | nil => simp
  | cons w ws ih =>
    rw [List.forall_mem_cons, ← ih]
    constructor
    · rintro ⟨ls, h⟩
      obtain ⟨l, ls', hl, hls, -⟩ := List.forall₂_cons_left_iff.1 h
      exact ⟨⟨l, hl⟩, ls', hls⟩
    · rintro ⟨⟨l, hl⟩, ls, hls⟩
      exact ⟨l :: ls, .cons hl hls⟩

/-- The production for one alternative of a line. -/
theorem resolveAlternative_eq_ok_iff {number : Nat} {lhs : L} {ws : List WrittenSymbol}
    {p : Production L} :
    (do
      let rhs ← ws.mapM (resolveAt number)
      .ok ⟨lhs, rhs⟩ : Except LoadError (Production L)) = .ok p ↔
      p.lhs = lhs ∧ List.Forall₂ (fun w l => Means w (.ok l)) ws p.rhs := by
  rw [bind_eq_ok_iff]
  simp only [mapM_resolveAt_eq_ok_iff]
  constructor
  · rintro ⟨ls, hls, h⟩
    obtain rfl := Except.ok.inj h
    exact ⟨rfl, hls⟩
  · rintro ⟨rfl, hls⟩
    exact ⟨p.rhs, hls, rfl⟩

theorem resolveAlternative_eq_error_iff {number : Nat} {lhs : L} {ws : List WrittenSymbol}
    {e : LoadError} :
    (do
      let rhs ← ws.mapM (resolveAt number)
      .ok ⟨lhs, rhs⟩ : Except LoadError (Production L)) = .error e ↔
      ∃ before w after fault, ws = before ++ w :: after ∧
        (∀ b ∈ before, ∃ l : L, Means b (.ok l)) ∧
        Means w (.error fault : Except LineFault L) ∧ .line number fault = e := by
  have hbind : (∃ ls : List L, ws.mapM (resolveAt number) = .ok ls ∧
      (Except.ok ⟨lhs, ls⟩ : Except LoadError (Production L)) = .error e) ↔ False :=
    iff_of_false (fun ⟨_, _, h⟩ => nomatch h) id
  rw [bind_eq_error_iff, hbind, or_false, mapM_eq_error_iff]
  simp only [resolveAt_eq_ok_iff, resolveAt_eq_error_iff, exists_and_left]

/-! ### Lines -/

variable [Label L]

/-- What a production line means: a production for each alternative, label by
label, unless the left-hand side is refused, or is a terminal, or some symbol
further on is refused. -/
inductive Expands (line : WrittenLine) : Except LineFault (L × List (Production L)) → Prop
  | productions {lhs : L} {productions : List (Production L)} :
      Means line.lhs (.ok lhs) → Label.token? lhs = none →
      List.Forall₂ (fun alternative p => p.lhs = lhs ∧
        List.Forall₂ (fun w l => Means w (.ok l)) alternative p.rhs) line.alternatives productions →
      Expands line (.ok (lhs, productions))
  | lhs {fault} : Means line.lhs (.error fault : Except LineFault L) → Expands line (.error fault)
  | terminal {lhs : L} {token} : Means line.lhs (.ok lhs) → Label.token? lhs = some token →
      Expands line (.error (.terminalLhs token))
  | rhs {lhs : L} {earlier before w after later fault} :
      Means line.lhs (.ok lhs) → Label.token? lhs = none →
      line.alternatives = earlier ++ (before ++ w :: after) :: later →
      (∀ alternative ∈ earlier, ∀ b ∈ alternative, ∃ l : L, Means b (.ok l)) →
      (∀ b ∈ before, ∃ l : L, Means b (.ok l)) →
      Means w (.error fault : Except LineFault L) → Expands line (.error fault)

theorem resolveLine_eq_ok_iff {number : Nat} {line : WrittenLine} {r : L × List (Production L)} :
    resolveLine number line = .ok r ↔ Expands line (.ok r) := by
  rw [resolveLine, bind_eq_ok_iff]
  constructor
  · rintro ⟨lhs, hlhs, h⟩
    cases htoken : Label.token? lhs with
    | some token =>
      rw [htoken] at h
      cases h
    | none =>
      rw [htoken] at h
      obtain ⟨productions, hproductions, h⟩ := bind_eq_ok_iff.1 h
      obtain rfl := Except.ok.inj h
      rw [mapM_eq_ok_iff] at hproductions
      simp only [resolveAlternative_eq_ok_iff] at hproductions
      exact .productions (resolveAt_eq_ok_iff.1 hlhs) htoken hproductions
  · intro h
    cases h with
    | @productions lhs productions hlhs htoken hproductions =>
      refine ⟨lhs, resolveAt_eq_ok_iff.2 hlhs, ?_⟩
      rw [htoken]
      refine bind_eq_ok_iff.2 ⟨productions, mapM_eq_ok_iff.2 ?_, rfl⟩
      simp only [resolveAlternative_eq_ok_iff]
      exact hproductions

theorem resolveLine_eq_error_iff {number : Nat} {line : WrittenLine} {e : LoadError} :
    (resolveLine number line : Except LoadError (L × List (Production L))) = .error e ↔
      ∃ fault, Expands line (.error fault : Except LineFault (L × List (Production L))) ∧
        .line number fault = e := by
  rw [resolveLine, bind_eq_error_iff]
  constructor
  · rintro (h | ⟨lhs, hlhs, h⟩)
    · obtain ⟨fault, hfault, rfl⟩ := resolveAt_eq_error_iff.1 h
      exact ⟨fault, .lhs hfault, rfl⟩
    · have hlhs := resolveAt_eq_ok_iff.1 hlhs
      cases htoken : Label.token? lhs with
      | some token =>
        rw [htoken] at h
        obtain rfl := Except.error.inj h
        exact ⟨_, .terminal hlhs htoken, rfl⟩
      | none =>
        rw [htoken] at h
        obtain h | ⟨productions, -, h⟩ := bind_eq_error_iff.1 h
        · obtain ⟨earlier, alternative, later, halternatives, hearlier, h⟩ := mapM_eq_error_iff.1 h
          obtain ⟨before, w, after, fault, rfl, hbefore, hw, rfl⟩ :=
            resolveAlternative_eq_error_iff.1 h
          refine ⟨fault, .rhs hlhs htoken halternatives (fun ws hws => ?_) hbefore hw, rfl⟩
          obtain ⟨p, hp⟩ := hearlier ws hws
          obtain ⟨rhs, hrhs, -⟩ := exists_of_bind_eq_ok hp
          exact exists_mapM_resolveAt_iff.1 ⟨rhs, hrhs⟩
        · cases h
  · rintro ⟨fault, h, rfl⟩
    cases h with
    | lhs h => exact .inl (resolveAt_eq_error_iff.2 ⟨fault, h, rfl⟩)
    | @terminal lhs token hlhs htoken =>
      refine .inr ⟨lhs, resolveAt_eq_ok_iff.2 hlhs, ?_⟩
      rw [htoken]
    | @rhs lhs earlier before w after later _ hlhs htoken halternatives hearlier hbefore hw =>
      refine .inr ⟨lhs, resolveAt_eq_ok_iff.2 hlhs, ?_⟩
      rw [htoken]
      refine bind_eq_error_iff.2 (.inl (mapM_eq_error_iff.2
        ⟨earlier, before ++ w :: after, later, halternatives, fun ws hws => ?_, ?_⟩))
      · obtain ⟨rhs, hrhs⟩ := exists_mapM_resolveAt_iff.2 (hearlier ws hws)
        exact ⟨⟨lhs, rhs⟩, bind_eq_ok_iff.2 ⟨rhs, hrhs, rfl⟩⟩
      · exact resolveAlternative_eq_error_iff.2 ⟨before, w, after, fault, rfl, hbefore, hw, rfl⟩

end Source

end ChartParsing
