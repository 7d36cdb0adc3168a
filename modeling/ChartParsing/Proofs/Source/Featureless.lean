/-
ChartParsing/Proofs/Source/Featureless.lean

Loading a text as a plain grammar, and as one with features.

Which labels a text has is settled symbol by symbol, and differently for the
two kinds of grammar: a plain grammar takes no features at all, and features
given twice are only refused where there can be some.  Still the one grammar
is the other where that has no features (`Grammar.restricts_ofText`).  Step by
step, the plain way to load is the other way restricted to results without
features (`Restricts`); for whole lines this needs that a line has some
alternative, since nothing else keeps its left-hand side.
-/
import ChartParsing.Proofs.Feature.Bare
import ChartParsing.Proofs.Source.Resolving

namespace ChartParsing

/-! ### Steps restricted to some of their results -/

section Restricts

variable {ε α α' β β' : Type}

/-- `x` succeeds where `x'` does with a result that is kept, and with the same
result; `g` says which results are the same. -/
def Restricts (kept : α' → Prop) (g : α → α') (x : Except ε α) (x' : Except ε α') : Prop :=
  ∀ a', x' = .ok a' ∧ kept a' ↔ ∃ a, x = .ok a ∧ a' = g a

variable {kept : α' → Prop} {kept' : β' → Prop} {g : α → α'} {h : β → β'}

theorem Restricts.ok {a : α} (ha : kept (g a)) :
    Restricts kept g (.ok a : Except ε α) (.ok (g a)) := by
  intro a'
  constructor
  · rintro ⟨heq, -⟩
    exact ⟨a, rfl, (Except.ok.inj heq).symm⟩
  · rintro ⟨b, hb, rfl⟩
    obtain rfl := Except.ok.inj hb
    exact ⟨rfl, ha⟩

theorem Restricts.error (x x' : ε) : Restricts kept g (.error x) (.error x') := by
  intro a'
  constructor
  · rintro ⟨heq, -⟩
    cases heq
  · rintro ⟨a, ha, -⟩
    cases ha

theorem Restricts.mapError {ε' : Type} {x : Except ε α} {x' : Except ε α'}
    (hx : Restricts kept g x x') (k : ε → ε') :
    Restricts kept g (x.mapError k) (x'.mapError k) := by
  intro a'
  simp only [mapError_eq_ok_iff]
  exact hx a'

/-- One step after the other, if a kept result in the end tells of one before. -/
theorem Restricts.bind {x : Except ε α} {x' : Except ε α'} {k : α → Except ε β}
    {k' : α' → Except ε β'} (hx : Restricts kept g x x')
    (hk : ∀ a, kept (g a) → Restricts kept' h (k a) (k' (g a)))
    (hkept : ∀ a' b', k' a' = .ok b' → kept' b' → kept a') :
    Restricts kept' h (x >>= k) (x' >>= k') := by
  intro b'
  constructor
  · rintro ⟨hrun, hb'⟩
    obtain ⟨a', ha', hrest⟩ := exists_of_bind_eq_ok hrun
    have hkept := hkept a' b' hrest hb'
    obtain ⟨a, rfl, rfl⟩ := (hx a').1 ⟨ha', hkept⟩
    exact (hk a hkept b').1 ⟨hrest, hb'⟩
  · rintro ⟨b, hrun, rfl⟩
    obtain ⟨a, rfl, hrest⟩ := exists_of_bind_eq_ok hrun
    obtain ⟨rfl, hkept⟩ := (hx (g a)).2 ⟨a, rfl, rfl⟩
    exact (hk a hkept (h b)).2 ⟨b, hrest, rfl⟩

theorem Restricts.mapM {γ : Type} {k : γ → Except ε α} {k' : γ → Except ε α'} {cs : List γ}
    (hk : ∀ c ∈ cs, Restricts kept g (k c) (k' c)) :
    Restricts (fun as' => ∀ a' ∈ as', kept a') (List.map g) (cs.mapM k) (cs.mapM k') := by
  induction cs with
  | nil => exact .ok (fun a' ha' => nomatch ha')
  | cons c cs ih =>
    have hcs := ih fun c hc => hk c (List.mem_cons_of_mem _ hc)
    rw [List.mapM_cons, List.mapM_cons]
    refine .bind (hk c List.mem_cons_self) (fun a ha => ?_) fun a' as' hrun has' => ?_
    · refine .bind hcs (fun as has => ?_) fun as' all' hrun hall' => ?_
      · refine Restricts.ok (a := a :: as) fun a' ha' => ?_
        rcases List.mem_cons.1 ha' with rfl | ha'
        · exact ha
        · exact has a' ha'
      · obtain rfl := Except.ok.inj hrun
        exact fun a' ha' => hall' a' (List.mem_cons_of_mem _ ha')
    · obtain ⟨rest, -, hrest⟩ := exists_of_bind_eq_ok hrun
      obtain rfl := Except.ok.inj hrest
      exact has' a' List.mem_cons_self

end Restricts

/-! ### Symbols -/

theorem FeatureMap.eq_nil_of_addNew {pairs : List (String × FeatureValue)}
    (h : empty.addNew pairs = .ok empty) : pairs = [] := by
  obtain ⟨-, hget⟩ := addNew_empty_eq_ok_iff.1 h
  refine List.eq_nil_iff_forall_not_mem.2 fun p hp => ?_
  cases (hget p.1 p.2).2 hp

/-- A label has no features. -/
def FeatureSymbol.Featureless (l : FeatureSymbol) : Prop := l.features = .empty

theorem FeatureSymbol.featureless_bare (s : Symbol) : (bare s).Featureless :=
  features_eq_empty_iff.2 ⟨s, rfl⟩

open FeatureSymbol (bare featureless_bare)

theorem restricts_resolve (ws : Source.WrittenSymbol) :
    Restricts FeatureSymbol.Featureless bare (Resolve.resolve ws : Except LineFault Symbol)
      (Resolve.resolve ws) := by
  cases ws with
  | terminal t => exact Restricts.ok (a := Symbol.terminal t) rfl
  | category n features =>
    cases features with
    | nil => exact Restricts.ok (a := Symbol.nonterminal n) rfl
    | cons pair pairs =>
      rw [resolve_category]
      cases hadd : FeatureMap.empty.addNew (pair :: pairs) with
      | error f => exact .error _ _
      | ok m =>
        -- with some feature the label is not one of a plain grammar
        intro l'
        constructor
        · rintro ⟨hl', hnone⟩
          obtain rfl := Except.ok.inj hl'
          obtain rfl : m = .empty := hnone
          cases FeatureMap.eq_nil_of_addNew hadd
        · rintro ⟨s, hs, -⟩
          cases hs

/-! ### Lines -/

/-- No label of the production has features. -/
def Production.Featureless (p : Production FeatureSymbol) : Prop :=
  p.lhs.Featureless ∧ ∀ l ∈ p.rhs, l.Featureless

/-- No label of the grammar has features. -/
structure Grammar.Featureless (g : Grammar FeatureSymbol) : Prop where
  start : g.start.Featureless
  productions : ∀ p ∈ g.productions, p.Featureless

namespace Source

theorem restricts_resolveAt (number : Nat) (ws : WrittenSymbol) :
    Restricts FeatureSymbol.Featureless bare (resolveAt number ws : Except LoadError Symbol)
      (resolveAt number ws) :=
  (restricts_resolve ws).mapError _

theorem restricts_resolveLine (number : Nat) {line : WrittenLine} (hline : line.alternatives ≠ []) :
    Restricts (fun r => ∀ p ∈ r.2, p.Featureless)
      (fun r => (bare r.1, r.2.map (Production.relabel bare)))
      (resolveLine number line : Except LoadError (Symbol × List (Production Symbol)))
      (resolveLine number line) := by
  rw [resolveLine, resolveLine]
  refine .bind (restricts_resolveAt number line.lhs) (fun lhs hlhs => ?_) fun lhs' r' hrun hr' => ?_
  · rw [FeatureSymbol.relabelling_bare.token?]
    cases Label.token? lhs with
    | some token => exact .error _ _
    | none =>
      have halternative : ∀ alternative ∈ line.alternatives,
          Restricts Production.Featureless (Production.relabel bare)
            (do
              let rhs ← alternative.mapM (resolveAt number)
              .ok (⟨lhs, rhs⟩ : Production Symbol) : Except LoadError (Production Symbol))
            (do
              let rhs ← alternative.mapM (resolveAt number)
              .ok (⟨bare lhs, rhs⟩ : Production FeatureSymbol)) := by
        intro alternative _
        refine .bind (.mapM fun ws _ => restricts_resolveAt number ws) (fun rhs hrhs => ?_)
          fun rhs' p' hrun hp' => ?_
        · exact Restricts.ok (a := (⟨lhs, rhs⟩ : Production Symbol)) ⟨hlhs, hrhs⟩
        · obtain rfl := Except.ok.inj hrun
          exact hp'.2
      refine .bind (.mapM halternative) (fun productions hproductions => ?_)
        fun productions' r' hrun hr' => ?_
      · exact Restricts.ok (a := (lhs, productions)) hproductions
      · obtain rfl := Except.ok.inj hrun
        exact hr'
  · -- the first alternative keeps the left-hand side
    obtain ⟨first, others, hline⟩ := List.exists_cons_of_ne_nil hline
    cases htoken : Label.token? lhs' with
    | some token =>
      rw [htoken] at hrun
      cases hrun
    | none =>
      rw [htoken, hline, List.mapM_cons] at hrun
      obtain ⟨productions', hproductions, hrun⟩ := exists_of_bind_eq_ok hrun
      obtain rfl := Except.ok.inj hrun
      obtain ⟨p, hp, hrest⟩ := exists_of_bind_eq_ok hproductions
      obtain ⟨rest, -, hrest⟩ := exists_of_bind_eq_ok hrest
      obtain rfl := Except.ok.inj hrest
      obtain ⟨rhs, -, hp⟩ := exists_of_bind_eq_ok hp
      obtain rfl := Except.ok.inj hp
      exact (hr' _ List.mem_cons_self).1

/-! ### What is read has alternatives -/

theorem LineStage.alternatives_ne_nil {stage : LineStage} {line : WrittenLine}
    (h : stage.result? = some line) : line.alternatives ≠ [] := by
  cases stage with
  | lhs stage => cases h
  | rhs symbol ended current stage =>
    obtain ⟨last, -, rfl⟩ := Option.map_eq_some_iff.1 h
    exact List.append_ne_nil_of_right_ne_nil _ (List.cons_ne_nil _ _)

theorem alternatives_ne_nil_of_readLine {cs : List Char} {line : WrittenLine}
    (h : readLine cs = .ok line) : line.alternatives ≠ [] := by
  obtain ⟨stage, -, h⟩ := exists_of_bind_eq_ok h
  split at h
  · cases h
  · rename_i hresult
    obtain rfl := Except.ok.inj h
    exact LineStage.alternatives_ne_nil hresult
  · cases h

theorem alternatives_ne_nil_of_readStatement? {cs : List Char} {line : WrittenLine}
    (h : readStatement? cs = .ok (some (.productions line))) : line.alternatives ≠ [] := by
  rw [readStatement?] at h
  split at h
  · cases h
  · split at h
    · rename_i argument _
      cases hread : readSymbol argument with
      | error x =>
        rw [hread] at h
        cases h
      | ok symbol =>
        rw [hread] at h
        cases h
    · cases hread : readLine cs with
      | error x =>
        rw [hread] at h
        cases h
      | ok line' =>
        rw [hread] at h
        obtain rfl : line' = line := by
          simpa using Except.ok.inj h
        exact alternatives_ne_nil_of_readLine hread

theorem alternatives_ne_nil_of_readNumbered {numbered : List (List Char × Nat)}
    {statements : List (Nat × Statement)} (h : readNumbered numbered = .ok statements)
    {number : Nat} {line : WrittenLine} (hline : (number, line) ∈ productionLines statements) :
    line.alternatives ≠ [] := by
  induction numbered generalizing statements with
  | nil =>
    obtain rfl := Except.ok.inj h
    cases hline
  | cons first rest ih =>
    obtain ⟨cs, n⟩ := first
    rw [readNumbered] at h
    cases hread : readStatement? (stripComment cs) with
    | error x =>
      rw [hread] at h
      cases h
    | ok statement? =>
      rw [hread] at h
      obtain ⟨later, hlater, h⟩ := exists_of_bind_eq_ok h
      obtain rfl := Except.ok.inj h
      rw [productionLines, List.filterMap_append, List.mem_append] at hline
      rcases hline with hline | hline
      · obtain ⟨⟨m, statement⟩, hmem, hstatement⟩ := List.mem_filterMap.1 hline
        obtain ⟨s, rfl, hs⟩ := Option.map_eq_some_iff.1 (Option.mem_toList.1 hmem)
        obtain ⟨rfl, rfl⟩ := Prod.mk.inj hs
        cases s with
        | start symbol => cases hstatement
        | productions line' =>
          obtain ⟨rfl, rfl⟩ := Prod.mk.inj (Option.some.inj hstatement)
          exact alternatives_ne_nil_of_readStatement? hread
      · exact ih hlater hline

/-! ### Grammars -/

theorem restricts_resolveStart (directive : Option (Nat × WrittenSymbol))
    (first : Option Symbol) :
    Restricts FeatureSymbol.Featureless bare (resolveStart directive first)
      (resolveStart directive (first.map bare)) := by
  cases directive with
  | some directive => exact restricts_resolveAt directive.1 directive.2
  | none =>
    cases first with
    | some lhs => exact .ok (featureless_bare lhs)
    | none => exact .error _ _

theorem checkStart_eq_ok_iff {L : Type} [Label L] {start : L} {productions : List (Production L)}
    {g : Grammar L} : checkStart start productions = .ok g ↔
      productions ≠ [] ∧ Label.token? start = none ∧
        (∃ p ∈ productions, Label.key p.lhs = Label.key start) ∧
          g = .ofList start productions := by
  rw [checkStart]
  cases productions with
  | nil => simp
  | cons p ps =>
    cases htoken : Label.token? start with
    | some token => simp
    | none =>
      dsimp only [List.isEmpty_cons]
      rw [if_neg Bool.false_ne_true]
      split
      · rename_i hany
        simp only [List.any_eq_true, beq_iff_eq] at hany
        constructor
        · intro h
          exact ⟨List.cons_ne_nil _ _, rfl, hany, (Except.ok.inj h).symm⟩
        · rintro ⟨-, -, -, rfl⟩
          rfl
      · rename_i hany
        simp only [List.any_eq_true, beq_iff_eq] at hany
        exact iff_of_false (fun h => nomatch h) fun h => hany h.2.2.1

theorem checkStart_eq_error_iff {L : Type} [Label L] {start : L}
    {productions : List (Production L)} {e : LoadError} :
    checkStart start productions = .error e ↔
      productions = [] ∧ .noProductions = e ∨
      productions ≠ [] ∧ ((∃ token, Label.token? start = some token ∧
          .badStart (.terminal token) = e) ∨
        Label.token? start = none ∧ (∀ p ∈ productions, Label.key p.lhs ≠ Label.key start) ∧
          .badStart (.unexpanded (Label.text start)) = e) := by
  rw [checkStart]
  cases productions with
  | nil => simp
  | cons p ps =>
    cases htoken : Label.token? start with
    | some token => simp
    | none =>
      dsimp only [List.isEmpty_cons]
      rw [if_neg Bool.false_ne_true]
      split
      · rename_i hany
        simp only [List.any_eq_true, beq_iff_eq] at hany
        obtain ⟨q, hq, hkey⟩ := hany
        refine iff_of_false (fun h => nomatch h) ?_
        rintro (⟨h, -⟩ | ⟨-, ⟨token, h, -⟩ | ⟨-, h, -⟩⟩)
        · cases h
        · cases h
        · exact h q hq hkey
      · rename_i hany
        simp only [List.any_eq_true, beq_iff_eq, not_exists, not_and] at hany
        simpa using fun _ => hany

end Source

theorem Production.featureless_relabel (p : Production Symbol) :
    (p.relabel bare).Featureless := by
  refine ⟨featureless_bare p.lhs, fun l hl => ?_⟩
  obtain ⟨s, -, rfl⟩ := List.mem_map.1 hl
  exact featureless_bare s

theorem Grammar.featureless_relabel (g : Grammar Symbol) : (g.relabel bare).Featureless where
  start := featureless_bare g.start
  productions := by
    intro p hp
    rw [productions_relabel] at hp
    obtain ⟨p, -, rfl⟩ := List.mem_map.1 hp
    exact p.featureless_relabel

theorem Source.restricts_checkStart (start : Symbol) (productions : List (Production Symbol)) :
    Restricts Grammar.Featureless (Grammar.relabel bare) (checkStart start productions)
      (checkStart (bare start) (productions.map (Production.relabel bare))) := by
  have hkey := FeatureSymbol.relabelling_bare.key
  intro g'
  simp only [checkStart_eq_ok_iff, FeatureSymbol.relabelling_bare.token?]
  constructor
  · rintro ⟨⟨hne, htoken, ⟨p', hp', hlhs⟩, rfl⟩, -⟩
    obtain ⟨p, hp, rfl⟩ := List.mem_map.1 hp'
    refine ⟨.ofList start productions, ⟨List.ne_nil_of_mem hp, htoken, ⟨p, hp, ?_⟩, rfl⟩,
      (Grammar.relabel_ofList productions start).symm⟩
    rw [← hkey p.lhs, ← hkey start]
    exact hlhs
  · rintro ⟨_, ⟨hne, htoken, ⟨p, hp, hlhs⟩, rfl⟩, rfl⟩
    have hmem := List.mem_map_of_mem (f := Production.relabel bare) hp
    refine ⟨⟨List.ne_nil_of_mem hmem, htoken, ⟨_, hmem, ?_⟩,
      Grammar.relabel_ofList productions start⟩, Grammar.featureless_relabel _⟩
    rw [hkey start, ← hlhs]
    exact hkey p.lhs

/-- A text is a plain grammar exactly if it is a grammar with features that has
none, and then the two are the same grammar. -/
theorem Grammar.restricts_ofText (text : String) :
    Restricts Featureless (relabel bare) (ofText text : Except LoadError (Grammar Symbol))
      (ofText text) := by
  rw [ofText, ofText]
  cases hread : Source.readText text with
  | error x => exact .error _ _
  | ok statements =>
    rw [ok_bind, ok_bind]
    have hline : ∀ line ∈ Source.productionLines statements,
        Restricts (fun r => ∀ p ∈ r.2, Production.Featureless p)
          (fun r => (bare r.1, r.2.map (Production.relabel bare)))
          (Source.resolveLine line.1 line.2) (Source.resolveLine line.1 line.2) :=
      fun line hline => Source.restricts_resolveLine line.1
        (Source.alternatives_ne_nil_of_readNumbered hread hline)
    refine .bind (.mapM hline) (fun lines _ => ?_) fun lines' g' hrun hg' => ?_
    · have hfirst : (lines.map fun r => (bare r.1, r.2.map (Production.relabel bare))).head?.map
          Prod.fst = (lines.head?.map Prod.fst).map bare := by
        rw [List.head?_map, Option.map_map, Option.map_map]
        rfl
      have hproductions :
          (lines.map fun r => (bare r.1, r.2.map (Production.relabel bare))).flatMap Prod.snd =
            (lines.flatMap Prod.snd).map (Production.relabel bare) := by
        rw [List.flatMap_map, List.map_flatMap]
      rw [hfirst, hproductions]
      refine .bind (Source.restricts_resolveStart _ _)
        (fun start _ => Source.restricts_checkStart start _) fun start' g' hrun hg' => ?_
      obtain ⟨-, -, -, rfl⟩ := Source.checkStart_eq_ok_iff.1 hrun
      exact hg'.start
    · obtain ⟨start', -, hcheck⟩ := exists_of_bind_eq_ok hrun
      obtain ⟨-, -, -, rfl⟩ := Source.checkStart_eq_ok_iff.1 hcheck
      intro r hr p hp
      refine hg'.productions p ?_
      rw [Grammar.productions_ofList]
      exact List.mem_flatMap.2 ⟨r, hr, hp⟩

end ChartParsing
