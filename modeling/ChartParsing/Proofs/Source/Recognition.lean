/-
ChartParsing/Proofs/Source/Recognition.lean

Reading a text is recognizing a form, and where there is none, finding the
first token that no form can go on with.

Which tokens lead to a stage is said by the grammar (`SymbolStage.Reached`,
`LineStage.Reached`): what is complete has its form, and what is not is the
beginning of one.  Every token keeps this up, and from every stage on some
form can be completed.  So the tokens that a reader takes are just the viable
ones (`Recognizes.viable_iff`), and the first one that it does not take is the
first after which no form is possible.

`Verdict` says what reading comes to in terms of written forms and grammar
alone; `reading_eq_iff_verdict` says that this is what is read.
-/
import ChartParsing.Proofs.Source.Stages

namespace ChartParsing.Source

/-! ### The tokens of a stage -/

/-- The tokens of the features up to a stage, with the features given by then. -/
inductive FeatureStage.Reached : List Token → List (String × FeatureValue) → FeatureStage → Prop
  | ready {ts given} : EndedFeatures ts given → Reached ts given .ready
  | plus {ts given} : EndedFeatures ts given → Reached (ts ++ [.plus]) given (.signed "+")
  | minus {ts given} : EndedFeatures ts given → Reached (ts ++ [.minus]) given (.signed "-")
  | named {ts given} (f : String) : EndedFeatures ts given →
      Reached (ts ++ [.name f]) given (.named f)
  | valued {ts given} (f : String) : EndedFeatures ts given →
      Reached (ts ++ [.name f, .equals]) given (.valued f)
  | given {ts given us p} : EndedFeatures ts given → FeatureForm us p →
      Reached (ts ++ us) (given ++ [p]) .given

/-- The tokens of a symbol up to a stage. -/
inductive SymbolStage.Reached : List Token → SymbolStage → Prop
  | start : Reached [] .start
  | named (n : String) : Reached [.name n] (.named n)
  | features {n ts given stage} : FeatureStage.Reached ts given stage →
      Reached (.name n :: .openBracket :: ts) (.features n given stage)
  | closed {ts w} : SymbolForm ts w → Reached ts (.closed w)

/-- Alternatives, each with a bar behind it. -/
inductive EndedAlternatives : List Token → List (List WrittenSymbol) → Prop
  | nil : EndedAlternatives [] []
  | bar {ts alternatives} : AlternativesForm ts alternatives →
      EndedAlternatives (ts ++ [.bar]) alternatives

/-- The tokens of a line up to a stage. -/
inductive LineStage.Reached : List Token → LineStage → Prop
  | lhs {ts stage} : SymbolStage.Reached ts stage → Reached ts (.lhs stage)
  | rhs {ts lhs us ended vs current ws stage} : SymbolForm ts lhs → EndedAlternatives us ended →
      AlternativeForm vs current → SymbolStage.Reached ws stage →
      Reached (ts ++ .arrow :: (us ++ vs ++ ws)) (.rhs lhs ended current stage)

theorem EndedAlternatives.alternativesForm {us vs : List Token}
    {ended : List (List WrittenSymbol)} {settled : List WrittenSymbol}
    (h : EndedAlternatives us ended) (hlast : AlternativeForm vs settled) :
    AlternativesForm (us ++ vs) (ended ++ [settled]) := by
  cases h with
  | nil => exact .first hlast
  | bar h =>
    rw [List.append_assoc]
    exact .snoc h hlast

/-- The tokens that led to a stage are the tokens of that stage, if this holds
where nothing is read yet and every token keeps it up. -/
theorem reached_of_foldlM {σ : Type} {feed : σ → Token → Option σ} {start stage : σ}
    {Reached : List Token → σ → Prop} (hstart : Reached [] start)
    (hfeed : ∀ {ts t stage next}, Reached ts stage → feed stage t = some next →
      Reached (ts ++ [t]) next)
    {ts : List Token} (h : ts.foldlM feed start = some stage) : Reached ts stage := by
  induction ts using List.reverseRecOn generalizing stage with
  | nil =>
    obtain rfl := Option.some.inj h
    exact hstart
  | append_singleton ts t ih =>
    rw [List.foldlM_append] at h
    obtain ⟨last, hlast, h⟩ := Option.bind_eq_some_iff.1 h
    obtain ⟨next, hnext, h⟩ := Option.bind_eq_some_iff.1 h
    obtain rfl := Option.some.inj h
    exact hfeed (ih hlast) hnext

namespace SymbolStage

variable {ts : List Token} {t : Token} {stage next : SymbolStage}

/-- The features go on with a token, or the bracket is closed. -/
theorem Reached.feedFeature {n : String} {given : List (String × FeatureValue)}
    {stage : FeatureStage} (h : FeatureStage.Reached ts given stage)
    (ht : SymbolStage.feedFeature n given stage t = some next) :
    Reached (.name n :: .openBracket :: (ts ++ [t])) next := by
  cases h with
  | ready h =>
    cases t <;> cases ht
    · exact .features (.named _ h)
    · exact .features (.plus h)
    · exact .features (.minus h)
    · exact .closed (.features (.ended h))
  | @plus ts given h =>
    cases t <;> cases ht
    rw [List.append_assoc]
    exact .features (.given h (.plus _))
  | @minus ts given h =>
    cases t <;> cases ht
    rw [List.append_assoc]
    exact .features (.given h (.minus _))
  | @named ts given f h =>
    cases t <;> cases ht
    rw [List.append_assoc]
    exact .features (.valued f h)
  | @valued ts given f h =>
    cases t <;> cases ht <;> rw [List.append_assoc]
    · exact .features (.given h (.valued (.quoted _)))
    · exact .features (.given h (.valued (.name _)))
    · exact .features (.given h (.valued (.var _)))
  | given h hp =>
    cases t <;> cases ht
    · exact .features (.ready (.snoc h hp))
    · exact .closed (.features (.last h hp))

/-- One more token. -/
theorem Reached.feed (h : Reached ts stage) (ht : stage.feed t = some next) :
    Reached (ts ++ [t]) next := by
  cases h with
  | start =>
    cases t <;> cases ht
    · exact .closed (.quoted _)
    · exact .named _
  | named n =>
    cases t <;> cases ht
    exact .features (.ready .nil)
  | features h => exact Reached.feedFeature h ht
  | closed h => cases t <;> cases ht

theorem Reached.symbolForm (h : Reached ts stage) {w : WrittenSymbol}
    (hw : stage.result? = some w) : SymbolForm ts w := by
  cases h with
  | start => cases hw
  | named n =>
    cases hw
    exact .name n
  | features h => cases hw
  | closed h =>
    cases hw
    exact h

/-- From every stage on some symbol can be completed. -/
theorem exists_completion (stage : SymbolStage) :
    ∃ (ts : List Token) (last : SymbolStage) (w : WrittenSymbol),
      ts.foldlM feed stage = some last ∧ last.result? = some w := by
  cases stage with
  | start => exact ⟨[.name "x"], _, _, rfl, rfl⟩
  | named n => exact ⟨[], _, _, rfl, rfl⟩
  | features n given stage =>
    cases stage with
    | ready => exact ⟨[.closeBracket], _, _, rfl, rfl⟩
    | signed sign => exact ⟨[.name "x", .closeBracket], _, _, rfl, rfl⟩
    | named f => exact ⟨[.equals, .name "x", .closeBracket], _, _, rfl, rfl⟩
    | valued f => exact ⟨[.name "x", .closeBracket], _, _, rfl, rfl⟩
    | given => exact ⟨[.closeBracket], _, _, rfl, rfl⟩
  | closed w => exact ⟨[], _, _, rfl, rfl⟩

end SymbolStage

namespace LineStage

variable {ts : List Token} {t : Token} {stage next : LineStage}

/-- What the symbols of an alternative are settled as has its form. -/
theorem alternativeForm_of_settle {vs ws : List Token} {current settled : List WrittenSymbol}
    {stage : SymbolStage} (hcurrent : AlternativeForm vs current)
    (hstage : SymbolStage.Reached ws stage) (h : settle current stage = some settled) :
    AlternativeForm (vs ++ ws) settled := by
  unfold settle at h
  split at h
  · obtain rfl := Option.some.inj h
    cases hstage
    rw [List.append_nil]
    exact hcurrent
  · obtain ⟨w, hw, rfl⟩ := Option.map_eq_some_iff.1 h
    exact .snoc hcurrent (hstage.symbolForm hw)

/-- One more token. -/
theorem Reached.feed (h : Reached ts stage) (ht : stage.feed t = some next) :
    Reached (ts ++ [t]) next := by
  cases h with
  | @lhs ts stage h =>
    simp only [LineStage.feed] at ht
    split at ht
    · rename_i next' hnext
      obtain rfl := Option.some.inj ht
      exact .lhs (h.feed hnext)
    · -- the arrow
      rename_i w hw _
      obtain rfl := Option.some.inj ht
      exact .rhs (h.symbolForm hw) .nil .nil .start
    · cases ht
  | @rhs ts lhs us ended vs current ws stage hlhs hended hcurrent hstage =>
    rw [List.append_assoc, List.cons_append, List.append_assoc]
    simp only [LineStage.feed] at ht
    split at ht
    · rename_i next' hnext
      obtain rfl := Option.some.inj ht
      exact .rhs hlhs hended hcurrent (hstage.feed hnext)
    · obtain ⟨settled, hsettled, ht⟩ := Option.bind_eq_some_iff.1 ht
      have hform := alternativeForm_of_settle hcurrent hstage hsettled
      unfold feedBetween at ht
      split at ht
      · -- a bar
        obtain rfl := Option.some.inj ht
        have hall := EndedAlternatives.bar (hended.alternativesForm hform)
        have hnext := Reached.rhs hlhs hall .nil .start
        simpa using hnext
      · -- the next symbol
        obtain ⟨next', hnext, rfl⟩ := Option.map_eq_some_iff.1 ht
        have hall := Reached.rhs hlhs hended hform (SymbolStage.Reached.start.feed hnext)
        simpa using hall

theorem Reached.lineForm (h : Reached ts stage) {line : WrittenLine}
    (hline : stage.result? = some line) : LineForm ts line := by
  cases h with
  | lhs h => cases hline
  | rhs hlhs hended hcurrent hstage =>
    obtain ⟨settled, hsettled, rfl⟩ := Option.map_eq_some_iff.1 hline
    rw [List.append_assoc]
    exact .mk hlhs (hended.alternativesForm (alternativeForm_of_settle hcurrent hstage hsettled))

/-- From every stage on some line can be completed. -/
theorem exists_completion (stage : LineStage) :
    ∃ (ts : List Token) (last : LineStage) (line : WrittenLine),
      ts.foldlM feed stage = some last ∧ last.result? = some line := by
  cases stage with
  | lhs stage =>
    obtain ⟨ts, last, w, hlast, hw⟩ := stage.exists_completion
    refine ⟨ts ++ [.arrow], rhs w [] [] .start, ⟨w, [[]]⟩, ?_, rfl⟩
    rw [List.foldlM_append, foldlM_within (fun _ _ _ => feed_lhs) hlast, Option.bind_eq_bind,
      Option.bind_some, List.foldlM_cons, feed_arrow hw]
    rfl
  | rhs symbol ended current stage =>
    obtain ⟨ts, last, w, hlast, hw⟩ := stage.exists_completion
    refine ⟨ts, rhs symbol ended current last, ⟨symbol, ended ++ [current ++ [w]]⟩,
      foldlM_within (fun _ _ _ => feed_rhs) hlast, ?_⟩
    rw [result?, settle_of_result? hw]
    rfl

end LineStage

/-! ### Readers of a form -/

section Recognizes

variable {σ α : Type} {feed : σ → Token → Option σ} {result? : σ → Option α} {start : σ}
  {Form : List Token → α → Prop}

/-- The reader takes just the tokens of the form to a result, and can go on to
some result from every stage. -/
structure Recognizes (feed : σ → Token → Option σ) (result? : σ → Option α) (start : σ)
    (Form : List Token → α → Prop) : Prop where
  form_iff : ∀ (ts : List Token) (a : α),
    Form ts a ↔ ∃ last, ts.foldlM feed start = some last ∧ result? last = some a
  completes : ∀ stage, ∃ (ts : List Token) (last : σ) (a : α),
    ts.foldlM feed stage = some last ∧ result? last = some a

/-- A reader takes the tokens that some form begins with. -/
theorem Recognizes.viable_iff (h : Recognizes feed result? start Form) (ts : List Token) :
    Viable Form ts ↔ ∃ last, ts.foldlM feed start = some last := by
  constructor
  · rintro ⟨more, a, hform⟩
    obtain ⟨last, hlast, -⟩ := (h.form_iff _ _).1 hform
    rw [List.foldlM_append] at hlast
    obtain ⟨stage, hstage, -⟩ := Option.bind_eq_some_iff.1 hlast
    exact ⟨stage, hstage⟩
  · rintro ⟨stage, hstage⟩
    obtain ⟨more, last, a, hlast, ha⟩ := h.completes stage
    refine ⟨more, a, (h.form_iff _ _).2 ⟨last, ?_, ha⟩⟩
    rw [List.foldlM_append, hstage]
    exact hlast

theorem feedAll_eq_error {before after : List Located} {t : Located} {stage last : σ}
    (h : (before.map Located.token).foldlM feed stage = some last)
    (ht : feed last t.token = none) :
    feedAll feed stage (before ++ t :: after) =
      .error (.unexpectedToken (String.ofList t.lexeme) t.start t.stop) := by
  induction before generalizing stage with
  | nil =>
    obtain rfl := Option.some.inj h
    rw [List.nil_append, feedAll, ht]
  | cons b bs ih =>
    rw [List.map_cons, List.foldlM_cons] at h
    obtain ⟨next, hnext, hlast⟩ := Option.bind_eq_some_iff.1 h
    rw [List.cons_append, feedAll, hnext]
    exact ih hlast

/-- All tokens are taken, or there is a first one that is not. -/
theorem taken_or_refused (feed : σ → Token → Option σ) (stage : σ) (located : List Located) :
    (∃ last, (located.map Located.token).foldlM feed stage = some last) ∨
      ∃ before t after last, located = before ++ t :: after ∧
        (before.map Located.token).foldlM feed stage = some last ∧ feed last t.token = none := by
  induction located generalizing stage with
  | nil => exact .inl ⟨stage, rfl⟩
  | cons t ts ih =>
    cases hnext : feed stage t.token with
    | none => exact .inr ⟨[], t, ts, stage, rfl, rfl, hnext⟩
    | some next =>
      have hcons : ∀ us : List Located, ((t :: us).map Located.token).foldlM feed stage =
          (us.map Located.token).foldlM feed next := by
        intro us
        rw [List.map_cons, List.foldlM_cons, hnext]
        rfl
      rcases ih next with ⟨last, hlast⟩ | ⟨before, t', after, last, rfl, hlast, ht'⟩
      · exact .inl ⟨last, (hcons ts).trans hlast⟩
      · exact .inr ⟨t :: before, t', after, last, rfl, (hcons before).trans hlast, ht'⟩

theorem foldlM_concat {ts : List Token} {t : Token} {stage last : σ}
    (h : ts.foldlM feed stage = some last) : (ts ++ [t]).foldlM feed stage = feed last t := by
  rw [List.foldlM_append, h, Option.bind_eq_bind, Option.bind_some, List.foldlM_cons]
  exact bind_pure (feed last t)

/-- All tokens are taken: what counts is whether there is text left, and whether
the form may end. -/
theorem readWith_of_taken {cs : List Char} {last : σ}
    (hlast : ((lex cs).tokens.map Located.token).foldlM feed start = some last) :
    readWith feed result? start cs =
      match (lex cs).invalidAt, result? last with
      | some offset, _ => .error (.noToken offset)
      | none, some a => .ok a
      | none, none => .error (.unexpectedEnd (lastStop (lex cs).tokens)) := by
  rw [readWith, feedAll_eq_ok hlast]
  rfl

theorem readWith_of_refused {cs : List Char} {before after : List Located} {t : Located}
    {last : σ} (htokens : (lex cs).tokens = before ++ t :: after)
    (hlast : (before.map Located.token).foldlM feed start = some last)
    (ht : feed last t.token = none) :
    readWith feed result? start cs =
      .error (.unexpectedToken (String.ofList t.lexeme) t.start t.stop) := by
  rw [readWith, htokens, feedAll_eq_error hlast ht]
  rfl

/-- What reading a text as a form must come to. -/
inductive Verdict (Form : List Token → α → Prop) (cs : List Char) : Except ReadingFault α → Prop
  /-- The text consists of the tokens of the form. -/
  | read {tokens a} : Lexes 0 cs tokens none → Form (tokens.map Located.token) a →
      Verdict Form cs (.ok a)
  /-- No form goes on with this token, and some form does with those before it. -/
  | unexpectedToken {before t after invalidAt} : Lexes 0 cs (before ++ t :: after) invalidAt →
      Viable Form (before.map Located.token) →
      ¬ Viable Form (before.map Located.token ++ [t.token]) →
      Verdict Form cs (.error (.unexpectedToken (String.ofList t.lexeme) t.start t.stop))
  /-- Some form begins with the tokens before the place without a token. -/
  | noToken {tokens offset} : Lexes 0 cs tokens (some offset) →
      Viable Form (tokens.map Located.token) → Verdict Form cs (.error (.noToken offset))
  /-- The tokens are the beginning of some form, and have none. -/
  | unexpectedEnd {tokens} : Lexes 0 cs tokens none → Viable Form (tokens.map Located.token) →
      (∀ a, ¬ Form (tokens.map Located.token) a) →
      Verdict Form cs (.error (.unexpectedEnd (lastStop tokens)))

namespace Recognizes

variable (h : Recognizes feed result? start Form)
include h

/-- Reading comes to a verdict. -/
theorem verdict (cs : List Char) : Verdict Form cs (readWith feed result? start cs) := by
  have hlexes : Lexes 0 cs (lex cs).tokens (lex cs).invalidAt := lexes_iff.2 rfl
  rcases taken_or_refused feed start (lex cs).tokens with
    ⟨last, hlast⟩ | ⟨before, t, after, last, htokens, hlast, ht⟩
  · have hviable := (h.viable_iff _).2 ⟨last, hlast⟩
    rw [readWith_of_taken hlast]
    cases hinvalid : (lex cs).invalidAt with
    | some offset =>
      rw [hinvalid] at hlexes
      exact .noToken hlexes hviable
    | none =>
      rw [hinvalid] at hlexes
      cases hresult : result? last with
      | some a => exact .read hlexes ((h.form_iff _ _).2 ⟨last, hlast, hresult⟩)
      | none =>
        refine .unexpectedEnd hlexes hviable fun a hform => ?_
        obtain ⟨last', hlast', hresult'⟩ := (h.form_iff _ _).1 hform
        obtain rfl : last = last' := Option.some.inj (hlast.symm.trans hlast')
        rw [hresult] at hresult'
        cases hresult'
  · rw [readWith_of_refused htokens hlast ht]
    rw [htokens] at hlexes
    refine .unexpectedToken hlexes ((h.viable_iff _).2 ⟨last, hlast⟩) fun hviable => ?_
    obtain ⟨next, hnext⟩ := (h.viable_iff _).1 hviable
    rw [foldlM_concat hlast, ht] at hnext
    cases hnext

/-- There is no verdict but the one that reading comes to. -/
theorem readWith_eq_of_verdict {cs : List Char} {r : Except ReadingFault α}
    (hr : Verdict Form cs r) : readWith feed result? start cs = r := by
  cases hr with
  | read hlexes hform =>
    obtain ⟨last, hlast, hresult⟩ := (h.form_iff _ _).1 hform
    have hlex := lexes_iff.1 hlexes
    rw [readWith_of_taken (by rw [hlex]; exact hlast), hlex, hresult]
  | @unexpectedToken before t after invalidAt hlexes hviable hnot =>
    obtain ⟨last, hlast⟩ := (h.viable_iff _).1 hviable
    have ht : feed last t.token = none := by
      cases hnext : feed last t.token with
      | none => rfl
      | some next =>
        exact absurd ((h.viable_iff _).2 ⟨next, (foldlM_concat hlast).trans hnext⟩) hnot
    exact readWith_of_refused (congrArg Lexed.tokens (lexes_iff.1 hlexes)) hlast ht
  | noToken hlexes hviable =>
    obtain ⟨last, hlast⟩ := (h.viable_iff _).1 hviable
    have hlex := lexes_iff.1 hlexes
    rw [readWith_of_taken (by rw [hlex]; exact hlast), hlex]
  | unexpectedEnd hlexes hviable hnone =>
    obtain ⟨last, hlast⟩ := (h.viable_iff _).1 hviable
    have hlex := lexes_iff.1 hlexes
    rw [readWith_of_taken (by rw [hlex]; exact hlast), hlex]
    cases hresult : result? last with
    | none => rfl
    | some a => exact absurd ((h.form_iff _ _).2 ⟨last, hlast, hresult⟩) (hnone a)

theorem readWith_eq_iff {cs : List Char} {r : Except ReadingFault α} :
    readWith feed result? start cs = r ↔ Verdict Form cs r :=
  ⟨fun hr => hr ▸ h.verdict cs, h.readWith_eq_of_verdict⟩

end Recognizes

end Recognizes

/-! ### Symbols and lines -/

theorem recognizes_symbol :
    Recognizes SymbolStage.feed SymbolStage.result? .start SymbolForm where
  form_iff := by
    intro ts w
    refine ⟨SymbolStage.exists_feed_symbol, ?_⟩
    rintro ⟨last, hlast, hw⟩
    have hreached : SymbolStage.Reached ts last := reached_of_foldlM .start .feed hlast
    exact hreached.symbolForm hw
  completes := SymbolStage.exists_completion

theorem recognizes_line :
    Recognizes LineStage.feed LineStage.result? (.lhs .start) LineForm where
  form_iff := by
    intro ts line
    refine ⟨LineStage.exists_feed_line, ?_⟩
    rintro ⟨last, hlast, hline⟩
    have hreached : LineStage.Reached ts last := reached_of_foldlM (.lhs .start) .feed hlast
    exact hreached.lineForm hline
  completes := LineStage.exists_completion

theorem readSymbol_eq_iff {cs : List Char} {r : Except ReadingFault WrittenSymbol} :
    readSymbol cs = r ↔ Verdict SymbolForm cs r :=
  recognizes_symbol.readWith_eq_iff

theorem readLine_eq_iff {cs : List Char} {r : Except ReadingFault WrittenLine} :
    readLine cs = r ↔ Verdict LineForm cs r :=
  recognizes_line.readWith_eq_iff

/-- A text is read as what its tokens mean by the grammar.  If they mean
nothing, reading fails at the first token that nothing with a meaning goes on
with, or where there is no token before that, or else at the end. -/
theorem reading_eq_iff_verdict :
    (∀ cs r, readLine cs = r ↔ Verdict LineForm cs r) ∧
      ∀ cs r, readSymbol cs = r ↔ Verdict SymbolForm cs r :=
  ⟨fun _ _ => readLine_eq_iff, fun _ _ => readSymbol_eq_iff⟩

-- the second word cannot follow the first, and the lone question mark is not reached
example : readLine "S NP ?".toList = .error (.unexpectedToken "NP" 2 4) := by rfl

end ChartParsing.Source
