/-
ChartParsing/Proofs/Source/Stages.lean

The stages that the tokens of a form lead through.

The tokens of a symbol lead from the start to a stage at which that symbol has
been read (`exists_feed_symbol`).  In a line, a symbol is only known to be over
when a token comes that cannot belong to it.  So after each symbol the line
stands at a stage that the symbols up to there settle, the last one included
(`LineStage.settle`), and from any such stage the next symbol begins anew
(`feed_begins`), or the next alternative does (`feed_bar`).

What symbols and lines are written as has these forms, so it is read as these
symbols and lines.
-/
import ChartParsing.Proofs.Source.Form
import ChartParsing.Proofs.Source.Written
import Mathlib.Data.List.Induction

namespace ChartParsing.Source

/-! ### Symbols -/

namespace SymbolStage

variable {ts : List Token} {given entries : List (String × FeatureValue)}

theorem feed_feature (n : String) (given : List (String × FeatureValue))
    {p : String × FeatureValue} (h : FeatureForm ts p) :
    ts.foldlM feed (features n given .ready) = some (features n (given ++ [p]) .given) := by
  cases h with
  | valued hv => cases hv <;> rfl
  | plus f => rfl
  | minus f => rfl

theorem feed_endedFeatures (n : String) (given : List (String × FeatureValue))
    (h : EndedFeatures ts entries) :
    ts.foldlM feed (features n given .ready) = some (features n (given ++ entries) .ready) := by
  induction h with
  | nil => exact congrArg (fun ps => some (features n ps .ready)) (List.append_nil given).symm
  | snoc _ hp ih =>
    rw [List.foldlM_append, List.foldlM_append, ih, Option.bind_eq_bind, Option.bind_some,
      feed_feature n _ hp, List.append_assoc]
    rfl

/-- The tokens of a symbol are read as that symbol. -/
theorem exists_feed_symbol {w : WrittenSymbol} (h : SymbolForm ts w) :
    ∃ stage, ts.foldlM feed start = some stage ∧ stage.result? = some w := by
  cases h with
  | quoted t => exact ⟨closed (.terminal t), rfl, rfl⟩
  | name n => exact ⟨named n, rfl, rfl⟩
  | @features n ts given h =>
    refine ⟨closed (.category n given), ?_, rfl⟩
    show (ts ++ [Token.closeBracket]).foldlM feed (features n [] .ready) = _
    cases h with
    | ended h =>
      rw [List.foldlM_append, feed_endedFeatures n [] h]
      rfl
    | last h hp =>
      rw [List.foldlM_append, List.foldlM_append, feed_endedFeatures n [] h, Option.bind_eq_bind,
        Option.bind_some, feed_feature n _ hp]
      rfl

/-- The tokens that a symbol can begin with. -/
inductive Begins : Token → Prop
  | quoted (t : String) : Begins (.quoted t)
  | name (n : String) : Begins (.name n)

theorem exists_eq_cons {w : WrittenSymbol} (h : SymbolForm ts w) :
    ∃ t us, ts = t :: us ∧ Begins t := by
  cases h with
  | quoted t => exact ⟨_, _, rfl, .quoted t⟩
  | name n => exact ⟨_, _, rfl, .name n⟩
  | @features n _ _ _ => exact ⟨_, _, rfl, .name n⟩

/-- Where a symbol may end, only an opening bracket can go on with it. -/
theorem feed_of_result? {stage : SymbolStage} {w : WrittenSymbol} (h : stage.result? = some w)
    {t : Token} (ht : t ≠ .openBracket) : stage.feed t = none := by
  cases stage with
  | start => cases h
  | named n => cases t <;> first | rfl | exact absurd rfl ht
  | features n given stage => cases h
  | closed symbol => cases t <;> rfl

end SymbolStage

/-! ### Lines -/

namespace LineStage

variable {lhs : WrittenSymbol} {ended : List (List WrittenSymbol)}
  {current settled : List WrittenSymbol} {stage : SymbolStage} {ts : List Token}

/-- Where an alternative may end, a token that no bracket opens with belongs between symbols. -/
theorem feed_settled (h : settle current stage = some settled) {t : Token}
    (hstart : SymbolStage.start.feed t = none ∨ stage ≠ .start) (ht : t ≠ .openBracket) :
    feed (rhs lhs ended current stage) t = feedBetween lhs ended settled t := by
  have hnone : stage.feed t = none := by
    cases stage with
    | start => exact hstart.resolve_right fun hne => hne rfl
    | named n => exact SymbolStage.feed_of_result? (w := .category n []) rfl ht
    | features n given stage => cases h
    | closed symbol => exact SymbolStage.feed_of_result? (w := symbol) rfl ht
  simp only [feed, hnone, h, Option.bind_some]

/-- Past the first symbol, settled or not, a token that begins a symbol begins the next one. -/
theorem feed_begins (h : settle current stage = some settled) {t : Token}
    (ht : SymbolStage.Begins t) :
    feed (rhs lhs ended current stage) t =
      (SymbolStage.start.feed t).map (rhs lhs ended settled) := by
  have hbetween : feedBetween lhs ended settled t =
      (SymbolStage.start.feed t).map (rhs lhs ended settled) := by
    cases ht <;> rfl
  by_cases hstage : stage = .start
  · subst hstage
    obtain rfl : current = settled := Option.some.inj h
    cases ht <;> rfl
  · rw [feed_settled h (.inr hstage) (by cases ht <;> simp), hbetween]

/-- A bar ends the alternative. -/
theorem feed_bar (h : settle current stage = some settled) :
    feed (rhs lhs ended current stage) .bar = some (rhs lhs (ended ++ [settled]) [] .start) :=
  feed_settled h (.inl rfl) (by simp)

/-- The tokens of a symbol go to that symbol, wherever it stands in the line. -/
theorem foldlM_within {place : SymbolStage → LineStage}
    (hplace : ∀ stage t next, SymbolStage.feed stage t = some next →
      feed (place stage) t = some (place next))
    {last : SymbolStage} (h : ts.foldlM SymbolStage.feed stage = some last) :
    ts.foldlM feed (place stage) = some (place last) := by
  induction ts generalizing stage with
  | nil => exact congrArg (some ∘ place) (Option.some.inj h)
  | cons t ts ih =>
    rw [List.foldlM_cons] at h ⊢
    obtain ⟨next, hnext, hlast⟩ := Option.bind_eq_some_iff.1 h
    rw [hplace stage t next hnext]
    exact ih hlast

theorem feed_lhs {t : Token} {next : SymbolStage} (h : stage.feed t = some next) :
    feed (.lhs stage) t = some (.lhs next) := by
  simp only [feed, h]

theorem feed_rhs {t : Token} {next : SymbolStage} (h : stage.feed t = some next) :
    feed (rhs lhs ended current stage) t = some (rhs lhs ended current next) := by
  simp only [feed, h]

/-- The arrow ends the left-hand side. -/
theorem feed_arrow {w : WrittenSymbol} (h : stage.result? = some w) :
    feed (.lhs stage) .arrow = some (rhs w [] [] .start) := by
  have hnone : stage.feed .arrow = none := SymbolStage.feed_of_result? h (by simp)
  simp only [feed, hnone, h]

theorem settle_of_result? {w : WrittenSymbol} (h : stage.result? = some w)
    (current : List WrittenSymbol) : settle current stage = some (current ++ [w]) := by
  unfold settle
  split
  · cases h
  · rw [h]
    rfl

variable (lhs ended)

/-- One more symbol: the ones before it are settled, and it is the one being read. -/
theorem feed_symbol (h : settle current stage = some settled) {w : WrittenSymbol}
    (hw : SymbolForm ts w) :
    ∃ last, ts.foldlM feed (rhs lhs ended current stage) = some (rhs lhs ended settled last) ∧
      settle settled last = some (settled ++ [w]) := by
  obtain ⟨last, hlast, hresult⟩ := SymbolStage.exists_feed_symbol hw
  obtain ⟨t, ts, rfl, ht⟩ := SymbolStage.exists_eq_cons hw
  refine ⟨last, ?_, settle_of_result? hresult settled⟩
  rw [List.foldlM_cons] at hlast ⊢
  obtain ⟨next, hnext, hlast⟩ := Option.bind_eq_some_iff.1 hlast
  rw [feed_begins h ht, hnext]
  exact foldlM_within (fun _ _ _ => feed_rhs) hlast

/-- The symbols of an alternative, one after the other. -/
theorem feed_alternative (h : settle current stage = some settled) {ws : List WrittenSymbol}
    (hws : AlternativeForm ts ws) :
    ∃ current' last, ts.foldlM feed (rhs lhs ended current stage) =
        some (rhs lhs ended current' last) ∧
      settle current' last = some (settled ++ ws) := by
  induction hws with
  | nil => exact ⟨current, stage, rfl, by rw [List.append_nil]; exact h⟩
  | @snoc _ ws _ _ _ hw ih =>
    obtain ⟨current', next, hnext, hsettled⟩ := ih
    obtain ⟨last, hlast, hall⟩ := feed_symbol lhs ended hsettled hw
    refine ⟨settled ++ ws, last, ?_, ?_⟩
    · rw [List.foldlM_append, hnext]
      exact hlast
    · rw [hall, List.append_assoc]

variable {ended}

/-- The alternatives of a line, one after the other. -/
theorem feed_alternatives {alternatives : List (List WrittenSymbol)}
    (h : AlternativesForm ts alternatives) :
    ∃ stage, ts.foldlM feed (rhs lhs [] [] .start) = some stage ∧
      stage.result? = some ⟨lhs, alternatives⟩ := by
  have hnothing : settle [] .start = some [] := rfl
  -- all but the last alternative have been ended
  have hstages : ∃ ended current last, ts.foldlM feed (rhs lhs [] [] .start) =
      some (rhs lhs ended current last) ∧
        ∃ ws, settle current last = some ws ∧ ended ++ [ws] = alternatives := by
    induction h with
    | first hws =>
      obtain ⟨current, last, hlast, hsettled⟩ := feed_alternative lhs [] hnothing hws
      exact ⟨[], current, last, hlast, _, hsettled, rfl⟩
    | snoc _ hws ih =>
      obtain ⟨ended, current, stage, hstage, settled, hsettled, rfl⟩ := ih
      obtain ⟨current', last, hlast, hall⟩ :=
        feed_alternative lhs (ended ++ [settled]) hnothing hws
      refine ⟨ended ++ [settled], current', last, ?_, _, hall, rfl⟩
      rw [List.foldlM_append, hstage, Option.bind_eq_bind, Option.bind_some, List.foldlM_cons,
        feed_bar hsettled]
      exact hlast
  obtain ⟨ended, current, last, hlast, ws, hws, rfl⟩ := hstages
  refine ⟨_, hlast, ?_⟩
  rw [result?, hws]
  rfl

/-- The tokens of a line are read as that line. -/
theorem exists_feed_line {line : WrittenLine} (h : LineForm ts line) :
    ∃ stage, ts.foldlM feed (.lhs .start) = some stage ∧ stage.result? = some line := by
  obtain @⟨ts, symbol, us, alternatives, hlhs, hrhs⟩ := h
  obtain ⟨left, hleft, hresult⟩ := SymbolStage.exists_feed_symbol hlhs
  obtain ⟨stage, hstage, hline⟩ := feed_alternatives symbol hrhs
  refine ⟨stage, ?_, hline⟩
  rw [List.foldlM_append, foldlM_within (fun _ _ _ => feed_lhs) hleft, Option.bind_eq_bind,
    Option.bind_some, List.foldlM_cons, feed_arrow hresult]
  exact hstage

end LineStage

/-! ### Written forms -/

theorem featureForm_entryTokens (p : String × FeatureValue) : FeatureForm (entryTokens p) p := by
  obtain ⟨f, v⟩ := p
  rcases entry_cases f v with ⟨rfl, -, htokens⟩ | ⟨rfl, -, htokens⟩ | ⟨-, htokens⟩ <;>
    rw [htokens]
  · exact .plus f
  · exact .minus f
  · cases v with
    | atom a => exact .valued (.quoted a)
    | var x => exact .valued (.var x)

theorem featuresForm_entries (entries : List (String × FeatureValue)) :
    FeaturesForm ([Token.comma].intercalate (entries.map entryTokens)) entries := by
  induction entries with
  | nil => exact .ended .nil
  | cons p ps ih =>
    cases ps with
    | nil =>
      rw [List.map_singleton, List.intercalate_singleton]
      exact .last .nil (featureForm_entryTokens p)
    | cons q qs =>
      rw [List.map_cons, List.map_cons, List.intercalate_cons_cons, List.append_assoc]
      exact .cons (featureForm_entryTokens p) ih

theorem WrittenSymbol.symbolForm (w : WrittenSymbol) : SymbolForm w.tokens w := by
  cases w with
  | terminal t => exact .quoted t
  | category n entries =>
    cases entries with
    | nil => exact .name n
    | cons p ps => exact .features (featuresForm_entries (p :: ps))

theorem alternativeForm (ws : List WrittenSymbol) :
    AlternativeForm (ws.flatMap WrittenSymbol.tokens) ws := by
  induction ws using List.reverseRecOn with
  | nil => exact .nil
  | append_singleton ws w ih =>
    rw [List.flatMap_append, List.flatMap_singleton]
    exact .snoc ih w.symbolForm

/-- What a symbol is written as is read as that symbol. -/
theorem readSymbol_text {w : WrittenSymbol} (h : w.Spelled) : readSymbol w.text.toList = .ok w := by
  obtain ⟨stage, hstage, hresult⟩ := SymbolStage.exists_feed_symbol w.symbolForm
  exact readWith_eq_ok (prints_symbol h).spells.reads hstage hresult

/-- What a production is written as is read as its two sides. -/
theorem readLine_productionText {lhs : WrittenSymbol} {ws : List WrittenSymbol}
    (hlhs : lhs.Spelled) (hws : ∀ w ∈ ws, w.Spelled) :
    readLine (productionText lhs ws) = .ok ⟨lhs, [ws]⟩ := by
  obtain ⟨stage, hstage, hresult⟩ :=
    LineStage.exists_feed_line (.mk lhs.symbolForm (.first (alternativeForm ws)))
  exact readWith_eq_ok (prints_production hlhs hws).spells.reads hstage hresult

end ChartParsing.Source
