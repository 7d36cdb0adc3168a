/-
ChartParsing/Proofs/Source/Loading.lean

What a text loads as.

`Tells` says what a line means, `Contains` what lines mean together, and
`Loads` what becomes of a whole text, one constructor for each way it can end:

* some line cannot be read, and the first such line is the fault;
* all lines are read and some production line is refused, the first one;
* the symbol of the last directive is refused;
* there are no productions;
* the start label is a terminal, or no production expands it;
* or there is a grammar.

Each way asks for all that those before it would have found, so a text has just
one (`ofText_eq_iff`).  The other directives, and what lines behind the first
fault would come to, do not matter to any of them.
-/
import ChartParsing.Proofs.Source.Featureless
import ChartParsing.Proofs.Source.Layout
import ChartParsing.Proofs.Source.Recognition

namespace ChartParsing

namespace Source

open Denotes (Means)

/-! ### Lines and what they say -/

/-- What a line without its comment says: nothing, if it is blank, and else
where a grammar starts or what its productions are, unless that cannot be read. -/
inductive Tells (line : List Char) : Except ReadingFault (Option Statement) → Prop
  | nothing : (∀ c ∈ line, Text.isBlank c = true) → Tells line (.ok none)
  | start {argument symbol} : Directs line argument → Verdict SymbolForm argument (.ok symbol) →
      Tells line (.ok (some (.start symbol)))
  | noStart {argument fault} : Directs line argument →
      Verdict SymbolForm argument (.error fault) → Tells line (.error fault)
  | productions {written} : (∃ c ∈ line, Text.isBlank c = false) →
      (∀ argument, ¬ Directs line argument) → Verdict LineForm line (.ok written) →
      Tells line (.ok (some (.productions written)))
  | noProductions {fault} : (∃ c ∈ line, Text.isBlank c = false) →
      (∀ argument, ¬ Directs line argument) → Verdict LineForm line (.error fault) →
      Tells line (.error fault)

/-- A directive is not blank. -/
theorem Directs.exists_isBlank_eq_false {line argument : List Char} (h : Directs line argument) :
    ∃ c ∈ line, Text.isBlank c = false := by
  refine ⟨'%', ?_, by decide⟩
  have hpercent : '%' ∈ "%start".toList := List.mem_cons_self
  cases h with
  | symbol => exact List.mem_append_right _ (List.mem_append_left _ hpercent)
  | missing => exact List.mem_append_right _ (List.mem_append_left _ hpercent)

theorem not_all_isBlank {line : List Char} (h : ∃ c ∈ line, Text.isBlank c = false) :
    ¬ line.all Text.isBlank = true := by
  obtain ⟨c, hc, hblank⟩ := h
  rw [List.all_eq_true]
  exact fun hall => absurd (hall c hc) (by simp [hblank])

theorem readStatement?_of_directs {line argument : List Char} (h : Directs line argument) :
    readStatement? line = (readSymbol argument).map fun symbol => some (.start symbol) := by
  rw [readStatement?, if_neg (not_all_isBlank h.exists_isBlank_eq_false),
    startArgument?_eq_some_iff.2 h]

theorem readStatement?_of_not_directs {line : List Char} (hne : ∃ c ∈ line, Text.isBlank c = false)
    (h : ∀ argument, ¬ Directs line argument) :
    readStatement? line = (readLine line).map fun written => some (.productions written) := by
  have hnone : startArgument? line = none := by
    cases hargument : startArgument? line with
    | none => rfl
    | some argument => exact absurd (startArgument?_eq_some_iff.1 hargument) (h argument)
  rw [readStatement?, if_neg (not_all_isBlank hne), hnone]

/-- Reading a line comes to what it says. -/
theorem tells_readStatement? (line : List Char) : Tells line (readStatement? line) := by
  by_cases hall : ∀ c ∈ line, Text.isBlank c = true
  · rw [readStatement?, if_pos (List.all_eq_true.2 hall)]
    exact .nothing hall
  · have hne : ∃ c ∈ line, Text.isBlank c = false := by simpa using hall
    by_cases hdirects : ∃ argument, Directs line argument
    · obtain ⟨argument, hdirects⟩ := hdirects
      rw [readStatement?_of_directs hdirects]
      have hverdict := readSymbol_eq_iff.1 (Eq.refl (readSymbol argument))
      cases hread : readSymbol argument with
      | ok symbol => exact .start hdirects (hread ▸ hverdict)
      | error fault => exact .noStart hdirects (hread ▸ hverdict)
    · have hdirects := not_exists.1 hdirects
      rw [readStatement?_of_not_directs hne hdirects]
      have hverdict := readLine_eq_iff.1 (Eq.refl (readLine line))
      cases hread : readLine line with
      | ok written => exact .productions hne hdirects (hread ▸ hverdict)
      | error fault => exact .noProductions hne hdirects (hread ▸ hverdict)

theorem readStatement?_eq_iff {line : List Char} {r : Except ReadingFault (Option Statement)} :
    readStatement? line = r ↔ Tells line r := by
  refine ⟨fun h => h ▸ tells_readStatement? line, fun h => ?_⟩
  cases h with
  | nothing hall => rw [readStatement?, if_pos (List.all_eq_true.2 hall)]
  | start hdirects hverdict | noStart hdirects hverdict =>
    rw [readStatement?_of_directs hdirects, readSymbol_eq_iff.2 hverdict]
    rfl
  | productions hne hdirects hverdict | noProductions hne hdirects hverdict =>
    rw [readStatement?_of_not_directs hne hdirects, readLine_eq_iff.2 hverdict]
    rfl

/-- What numbered lines say, with the numbers of those that say something. -/
inductive Contains : List (List Char × Nat) → List (Nat × Statement) → Prop
  | nil : Contains [] []
  | nothing {line number lines statements} : Tells (stripComment line) (.ok none) →
      Contains lines statements → Contains ((line, number) :: lines) statements
  | statement {line number s lines statements} : Tells (stripComment line) (.ok (some s)) →
      Contains lines statements → Contains ((line, number) :: lines) ((number, s) :: statements)

theorem readNumbered_eq_ok_iff {lines : List (List Char × Nat)}
    {statements : List (Nat × Statement)} :
    readNumbered lines = .ok statements ↔ Contains lines statements := by
  constructor
  · intro h
    induction lines generalizing statements with
    | nil =>
      obtain rfl := Except.ok.inj h
      exact .nil
    | cons first rest ih =>
      obtain ⟨line, number⟩ := first
      rw [readNumbered] at h
      cases hread : readStatement? (stripComment line) with
      | error fault =>
        rw [hread] at h
        cases h
      | ok statement? =>
        have htells := readStatement?_eq_iff.1 hread
        rw [hread] at h
        obtain ⟨later, hlater, h⟩ := exists_of_bind_eq_ok h
        obtain rfl := Except.ok.inj h
        cases statement? with
        | none => exact .nothing htells (ih hlater)
        | some s => exact .statement htells (ih hlater)
  · intro h
    induction h with
    | nil => rfl
    | nothing htells _ ih =>
      rw [readNumbered, readStatement?_eq_iff.2 htells]
      simp only [ih]
      rfl
    | statement htells _ ih =>
      rw [readNumbered, readStatement?_eq_iff.2 htells]
      simp only [ih]
      rfl

/-- The first line that cannot be read is the fault. -/
theorem readNumbered_eq_error_iff {lines : List (List Char × Nat)} {e : LoadError} :
    readNumbered lines = .error e ↔ ∃ before line number after statements fault,
      lines = before ++ (line, number) :: after ∧ Contains before statements ∧
        Tells (stripComment line) (.error fault) ∧ e = .line number (.reading fault) := by
  constructor
  · intro h
    induction lines with
    | nil => cases h
    | cons first rest ih =>
      obtain ⟨line, number⟩ := first
      rw [readNumbered] at h
      cases hread : readStatement? (stripComment line) with
      | error fault =>
        rw [hread] at h
        exact ⟨[], line, number, rest, [], fault, rfl, .nil, readStatement?_eq_iff.1 hread,
          (Except.error.inj h).symm⟩
      | ok statement? =>
        have htells := readStatement?_eq_iff.1 hread
        rw [hread] at h
        obtain hrest | ⟨later, -, h⟩ := bind_eq_error_iff.1 h
        · obtain ⟨before, line', number', after, statements, fault, rfl, hbefore, hline', rfl⟩ :=
            ih hrest
          cases statement? with
          | none =>
            exact ⟨(line, number) :: before, line', number', after, statements, fault, rfl,
              .nothing htells hbefore, hline', rfl⟩
          | some s =>
            exact ⟨(line, number) :: before, line', number', after, (number, s) :: statements,
              fault, rfl, .statement htells hbefore, hline', rfl⟩
        · cases h
  · rintro ⟨before, line, number, after, statements, fault, rfl, hbefore, hline, rfl⟩
    induction hbefore with
    | nil => rw [List.nil_append, readNumbered, readStatement?_eq_iff.2 hline]
    | nothing htells _ ih =>
      rw [List.cons_append, readNumbered, readStatement?_eq_iff.2 htells]
      simp only [ih]
      rfl
    | statement htells _ ih =>
      rw [List.cons_append, readNumbered, readStatement?_eq_iff.2 htells]
      simp only [ih]
      rfl

/-- The last directive among the statements, and the line that it is on. -/
def LastStart (statements : List (Nat × Statement)) (number : Nat) (symbol : WrittenSymbol) :
    Prop :=
  ∃ before after, statements = before ++ (number, .start symbol) :: after ∧
    ∀ s ∈ after, ∃ line, s.2 = .productions line

theorem startSymbol?_eq_some_iff {statements : List (Nat × Statement)} {number : Nat}
    {symbol : WrittenSymbol} :
    startSymbol? statements = some (number, symbol) ↔ LastStart statements number symbol := by
  rw [startSymbol?, List.getLast?_filterMap, List.findSome?_eq_some_iff]
  constructor
  · rintro ⟨after, ⟨number', s⟩, before, hstatements, hs, hafter⟩
    cases s with
    | productions line => cases hs
    | start symbol' =>
      obtain ⟨rfl, rfl⟩ := Prod.mk.inj (Option.some.inj hs)
      refine ⟨before.reverse, after.reverse, ?_, ?_⟩
      · rw [← List.reverse_reverse statements, hstatements]
        simp
      · rintro ⟨m, s⟩ hmem
        have hnone := hafter _ (List.mem_reverse.1 hmem)
        cases s with
        | productions line => exact ⟨line, rfl⟩
        | start symbol => cases hnone
  · rintro ⟨before, after, rfl, hafter⟩
    refine ⟨after.reverse, (number, .start symbol), before.reverse, by simp, rfl, ?_⟩
    rintro ⟨m, s⟩ hmem
    obtain ⟨line, rfl⟩ : ∃ line, s = .productions line := hafter _ (List.mem_reverse.1 hmem)
    rfl

theorem startSymbol?_eq_none_iff {statements : List (Nat × Statement)} :
    startSymbol? statements = none ↔ ∀ number symbol, ¬ LastStart statements number symbol := by
  simp only [← startSymbol?_eq_some_iff, Option.eq_none_iff_forall_ne_some, Prod.forall, ne_eq]

/-! ### Starts -/

section Starts

variable {L : Type} [Resolve L] [Denotes L] {statements : List (Nat × Statement)}
  {resolved : List (L × List (Production L))}

/-- The label of the last directive, or the left-hand side of the first line if
there is no directive. -/
inductive StartsFrom (statements : List (Nat × Statement))
    (resolved : List (L × List (Production L))) : L → Prop
  | directive {number symbol start} : LastStart statements number symbol →
      Means symbol (.ok start) → StartsFrom statements resolved start
  | first {r} : (∀ number symbol, ¬ LastStart statements number symbol) →
      resolved.head? = some r → StartsFrom statements resolved r.1

theorem resolveStart_eq_ok_iff {start : L} :
    resolveStart (startSymbol? statements) (resolved.head?.map Prod.fst) = .ok start ↔
      StartsFrom statements resolved start := by
  constructor
  · intro h
    cases hstart : startSymbol? statements with
    | some p =>
      rw [hstart] at h
      exact .directive (startSymbol?_eq_some_iff.1 hstart) (resolveAt_eq_ok_iff.1 h)
    | none =>
      cases hfirst : resolved.head? with
      | none =>
        rw [hstart, hfirst] at h
        cases h
      | some r =>
        rw [hstart, hfirst] at h
        obtain rfl := Except.ok.inj h
        exact .first (startSymbol?_eq_none_iff.1 hstart) hfirst
  · intro h
    cases h with
    | directive hlast hmeans =>
      rw [startSymbol?_eq_some_iff.2 hlast]
      exact resolveAt_eq_ok_iff.2 hmeans
    | first hnone hfirst =>
      rw [startSymbol?_eq_none_iff.2 hnone, hfirst]
      rfl

/-- There is no start if the last directive is refused, or if there is neither a
directive nor a line. -/
theorem resolveStart_eq_error_iff {e : LoadError} :
    resolveStart (startSymbol? statements) (resolved.head?.map Prod.fst) = .error e ↔
      (∃ number symbol fault, LastStart statements number symbol ∧
        Means symbol (.error fault : Except LineFault L) ∧ .line number fault = e) ∨
      (∀ number symbol, ¬ LastStart statements number symbol) ∧ resolved = [] ∧
        .noProductions = e := by
  constructor
  · intro h
    cases hstart : startSymbol? statements with
    | some p =>
      rw [hstart] at h
      obtain ⟨fault, hfault, rfl⟩ := resolveAt_eq_error_iff.1 h
      exact .inl ⟨_, _, fault, startSymbol?_eq_some_iff.1 hstart, hfault, rfl⟩
    | none =>
      cases hfirst : resolved.head? with
      | none =>
        rw [hstart, hfirst] at h
        exact .inr ⟨startSymbol?_eq_none_iff.1 hstart, List.head?_eq_none_iff.1 hfirst,
          Except.error.inj h⟩
      | some r =>
        rw [hstart, hfirst] at h
        cases h
  · rintro (⟨number, symbol, fault, hlast, hfault, rfl⟩ | ⟨hnone, rfl, rfl⟩)
    · rw [startSymbol?_eq_some_iff.2 hlast]
      exact resolveAt_eq_error_iff.2 ⟨fault, hfault, rfl⟩
    · rw [startSymbol?_eq_none_iff.2 hnone]
      rfl

/-- Without lines there is a start only if the last directive has one. -/
theorem StartsFrom.exists_means {statements : List (Nat × Statement)} {start : L}
    (h : StartsFrom statements [] start) {number : Nat} {symbol : WrittenSymbol}
    (hlast : LastStart statements number symbol) : ∃ l : L, Means symbol (.ok l) := by
  cases h with
  | directive hlast' hmeans =>
    have heq := (startSymbol?_eq_some_iff.2 hlast').symm.trans (startSymbol?_eq_some_iff.2 hlast)
    obtain ⟨-, rfl⟩ := Prod.mk.inj (Option.some.inj heq)
    exact ⟨start, hmeans⟩
  | first _ hfirst => cases hfirst

end Starts

/-! ### Whole texts -/

section Texts

variable {L : Type} [Label L] [Resolve L] [Denotes L]

/-- The production lines and what they stand for. -/
def Resolved (statements : List (Nat × Statement)) (resolved : List (L × List (Production L))) :
    Prop :=
  List.Forall₂ (fun p r => Expands p.2 (.ok r)) (productionLines statements) resolved

theorem mapM_resolveLine_eq_ok_iff {statements : List (Nat × Statement)}
    {resolved : List (L × List (Production L))} :
    (productionLines statements).mapM (fun p => resolveLine p.1 p.2) = .ok resolved ↔
      Resolved statements resolved := by
  rw [mapM_eq_ok_iff]
  simp only [resolveLine_eq_ok_iff]
  rfl

/-- The lines of a text, numbered from 1. -/
def numberedLines (text : String) : List (List Char × Nat) := (Text.lines text.toList).zipIdx 1

/-- What a text loads as. -/
inductive Loads (text : String) : Except LoadError (Grammar L) → Prop
  /-- The first line that cannot be read, whatever the lines before it stand for. -/
  | unread {before line number after statements fault} :
      numberedLines text = before ++ (line, number) :: after → Contains before statements →
      Tells (stripComment line) (.error fault) → Loads text (.error (.line number (.reading fault)))
  /-- The first production line that is refused. -/
  | refused {statements before number line after fault} :
      Contains (numberedLines text) statements →
      productionLines statements = before ++ (number, line) :: after →
      (∀ p ∈ before, ∃ r : L × List (Production L), Expands p.2 (.ok r)) →
      Expands line (.error fault : Except LineFault (L × List (Production L))) →
      Loads text (.error (.line number fault))
  /-- The symbol of the last directive is refused. -/
  | startRefused {statements number symbol fault} {resolved : List (L × List (Production L))} :
      Contains (numberedLines text) statements → Resolved statements resolved →
      LastStart statements number symbol → Means symbol (.error fault : Except LineFault L) →
      Loads text (.error (.line number fault))
  /-- Nothing is wrong with the lines, but there are no productions. -/
  | noProductions {statements} :
      Contains (numberedLines text) statements → productionLines statements = [] →
      (∀ number symbol, LastStart statements number symbol → ∃ l : L, Means symbol (.ok l)) →
      Loads text (.error .noProductions)
  /-- The grammar would start from a terminal. -/
  | terminalStart {statements resolved} {start : L} {token} :
      Contains (numberedLines text) statements → Resolved statements resolved → resolved ≠ [] →
      StartsFrom statements resolved start → Label.token? start = some token →
      Loads text (.error (.badStart (.terminal token)))
  /-- The grammar would start from a label that no production is for. -/
  | unexpandedStart {statements resolved} {start : L} :
      Contains (numberedLines text) statements → Resolved statements resolved → resolved ≠ [] →
      StartsFrom statements resolved start → Label.token? start = none →
      (∀ p ∈ resolved.flatMap Prod.snd, Label.key p.lhs ≠ Label.key start) →
      Loads text (.error (.badStart (.unexpanded (Label.text start))))
  /-- The productions of all lines, in the order of the lines. -/
  | loaded {statements resolved} {start : L} :
      Contains (numberedLines text) statements → Resolved statements resolved →
      StartsFrom statements resolved start → Label.token? start = none →
      (∃ p ∈ resolved.flatMap Prod.snd, Label.key p.lhs = Label.key start) →
      Loads text (.ok (.ofList start (resolved.flatMap Prod.snd)))

theorem readText_eq_ok_iff {text : String} {statements : List (Nat × Statement)} :
    readText text = .ok statements ↔ Contains (numberedLines text) statements :=
  readNumbered_eq_ok_iff

/-- Each line has an alternative, so there are productions if there are lines. -/
theorem Resolved.flatMap_eq_nil_iff {text : String} {statements : List (Nat × Statement)}
    {resolved : List (L × List (Production L))}
    (hcontains : Contains (numberedLines text) statements) (h : Resolved statements resolved) :
    resolved.flatMap Prod.snd = [] ↔ resolved = [] := by
  cases resolved with
  | nil => exact iff_of_true rfl rfl
  | cons r rs =>
    obtain ⟨p, ps, hexpands, -, hlines⟩ := List.forall₂_cons_right_iff.1 h
    have hne := alternatives_ne_nil_of_readNumbered (readText_eq_ok_iff.2 hcontains)
      (hlines ▸ List.mem_cons_self : p ∈ productionLines statements)
    cases hexpands with
    | @productions lhs productions _ _ hproductions =>
      have hproductions : productions ≠ [] := by
        rintro rfl
        exact hne (List.forall₂_nil_right_iff.1 hproductions)
      simp [hproductions]

/-- Once all lines are read and resolved, the start is what is left to settle. -/
theorem ofText_eq_of_resolved {text : String} {statements : List (Nat × Statement)}
    {resolved : List (L × List (Production L))}
    (hcontains : Contains (numberedLines text) statements) (h : Resolved statements resolved) :
    Grammar.ofText text =
      resolveStart (startSymbol? statements) (resolved.head?.map Prod.fst) >>= fun start =>
        checkStart start (resolved.flatMap Prod.snd) := by
  rw [Grammar.ofText, readText_eq_ok_iff.2 hcontains, ok_bind, mapM_resolveLine_eq_ok_iff.2 h,
    ok_bind]

/-- Loading comes to one of the ways that a text can end. -/
theorem loads_ofText (text : String) :
    Loads text (Grammar.ofText text : Except LoadError (Grammar L)) := by
  cases hread : readText text with
  | error e =>
    obtain ⟨before, line, number, after, statements, fault, hlines, hbefore, hline, rfl⟩ :=
      readNumbered_eq_error_iff.1 hread
    rw [Grammar.ofText, hread]
    exact .unread hlines hbefore hline
  | ok statements =>
    have hcontains := readText_eq_ok_iff.1 hread
    cases hmap : (productionLines statements).mapM
        fun p => (resolveLine p.1 p.2 : Except LoadError (L × List (Production L))) with
    | error e =>
      obtain ⟨before, ⟨number, line⟩, after, hlines, hbefore, hline⟩ := mapM_eq_error_iff.1 hmap
      obtain ⟨fault, hfault, rfl⟩ := resolveLine_eq_error_iff.1 hline
      simp only [resolveLine_eq_ok_iff] at hbefore
      rw [Grammar.ofText, hread, ok_bind, hmap]
      exact .refused hcontains hlines hbefore hfault
    | ok resolved =>
      have hresolved := mapM_resolveLine_eq_ok_iff.1 hmap
      have hnil := hresolved.flatMap_eq_nil_iff hcontains
      rw [ofText_eq_of_resolved hcontains hresolved]
      cases hstart : resolveStart (startSymbol? statements) (resolved.head?.map Prod.fst) with
      | error e =>
        rcases resolveStart_eq_error_iff.1 hstart with
          ⟨number, symbol, fault, hlast, hfault, rfl⟩ | ⟨hnone, rfl, rfl⟩
        · exact .startRefused hcontains hresolved hlast hfault
        · refine .noProductions hcontains (List.forall₂_nil_right_iff.1 hresolved) ?_
          exact fun number symbol hlast => absurd hlast (hnone number symbol)
      | ok start =>
        have hfrom := resolveStart_eq_ok_iff.1 hstart
        rw [ok_bind]
        cases hcheck : checkStart start (resolved.flatMap Prod.snd) with
        | error e =>
          rcases checkStart_eq_error_iff.1 hcheck with
            ⟨hempty, rfl⟩ | ⟨hne, ⟨token, htoken, rfl⟩ | ⟨htoken, hkeys, rfl⟩⟩
          · obtain rfl := hnil.1 hempty
            exact .noProductions hcontains (List.forall₂_nil_right_iff.1 hresolved)
              fun number symbol => hfrom.exists_means
          · exact .terminalStart hcontains hresolved (mt hnil.2 hne) hfrom htoken
          · exact .unexpandedStart hcontains hresolved (mt hnil.2 hne) hfrom htoken hkeys
        | ok g =>
          obtain ⟨-, htoken, hkey, rfl⟩ := checkStart_eq_ok_iff.1 hcheck
          exact .loaded hcontains hresolved hfrom htoken hkey

/-- A text ends in no other way than loading does. -/
theorem ofText_eq_of_loads {text : String} {r : Except LoadError (Grammar L)} (h : Loads text r) :
    Grammar.ofText text = r := by
  cases h with
  | @unread before line number after statements fault hlines hbefore hline =>
    have hread : readText text = .error (.line number (.reading fault)) :=
      readNumbered_eq_error_iff.2
        ⟨before, line, number, after, statements, fault, hlines, hbefore, hline, rfl⟩
    rw [Grammar.ofText, hread]
    rfl
  | @refused statements before number line after fault hcontains hlines hbefore hline =>
    have hmap : (productionLines statements).mapM
        (fun p => (resolveLine p.1 p.2 : Except LoadError (L × List (Production L)))) =
          .error (.line number fault) := by
      refine mapM_eq_error_iff.2 ⟨before, (number, line), after, hlines, ?_, ?_⟩
      · simp only [resolveLine_eq_ok_iff]
        exact hbefore
      · exact resolveLine_eq_error_iff.2 ⟨fault, hline, rfl⟩
    rw [Grammar.ofText, readText_eq_ok_iff.2 hcontains, ok_bind, hmap]
    rfl
  | @startRefused statements number symbol fault resolved hcontains hresolved hlast hfault =>
    rw [ofText_eq_of_resolved hcontains hresolved]
    exact bind_eq_error_iff.2 (.inl (resolveStart_eq_error_iff.2
      (.inl ⟨number, symbol, fault, hlast, hfault, rfl⟩)))
  | @noProductions statements hcontains hlines hstart =>
    have hresolved : Resolved statements ([] : List (L × List (Production L))) :=
      List.forall₂_nil_right_iff.2 hlines
    rw [ofText_eq_of_resolved hcontains hresolved]
    cases hsymbol : startSymbol? statements with
    | none => rfl
    | some p =>
      obtain ⟨l, hl⟩ := hstart p.1 p.2 (startSymbol?_eq_some_iff.1 hsymbol)
      exact bind_eq_error_iff.2 (.inr ⟨l, resolveAt_eq_ok_iff.2 hl, rfl⟩)
  | @terminalStart statements resolved start token hcontains hresolved hne hfrom htoken =>
    rw [ofText_eq_of_resolved hcontains hresolved, resolveStart_eq_ok_iff.2 hfrom, ok_bind]
    exact checkStart_eq_error_iff.2
      (.inr ⟨mt (hresolved.flatMap_eq_nil_iff hcontains).1 hne, .inl ⟨token, htoken, rfl⟩⟩)
  | @unexpandedStart statements resolved start hcontains hresolved hne hfrom htoken hkeys =>
    rw [ofText_eq_of_resolved hcontains hresolved, resolveStart_eq_ok_iff.2 hfrom, ok_bind]
    exact checkStart_eq_error_iff.2
      (.inr ⟨mt (hresolved.flatMap_eq_nil_iff hcontains).1 hne, .inr ⟨htoken, hkeys, rfl⟩⟩)
  | @loaded statements resolved start hcontains hresolved hfrom htoken hkey =>
    rw [ofText_eq_of_resolved hcontains hresolved, resolveStart_eq_ok_iff.2 hfrom, ok_bind]
    obtain ⟨p, hp, hkey⟩ := hkey
    exact checkStart_eq_ok_iff.2 ⟨List.ne_nil_of_mem hp, htoken, ⟨p, hp, hkey⟩, rfl⟩

theorem ofText_eq_iff {text : String} {r : Except LoadError (Grammar L)} :
    Grammar.ofText text = r ↔ Loads text r :=
  ⟨fun h => h ▸ loads_ofText text, ofText_eq_of_loads⟩

end Texts

end Source

/-- What a text loads as, for both kinds of grammar: the first line that cannot
be read is the fault, or else the first that is refused, or else the start; and
where nothing is wrong, there is the grammar of all the lines. -/
theorem Grammar.ofText_eq_iff_loads :
    (∀ text r, (ofText text : Except LoadError (Grammar Symbol)) = r ↔ Source.Loads text r) ∧
      ∀ text r, (ofText text : Except LoadError (Grammar FeatureSymbol)) = r ↔
        Source.Loads text r :=
  ⟨fun _ _ => Source.ofText_eq_iff, fun _ _ => Source.ofText_eq_iff⟩

-- the third line cannot be read, and that the first one is for a terminal does not count
example : (Grammar.ofText "'a' -> B
B ->
B" : Except LoadError (Grammar Symbol)) =
    .error (.line 3 (.reading (.unexpectedEnd 1))) := by rfl

end ChartParsing
