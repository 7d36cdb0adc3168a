/-
ChartParsing/Proofs/Source/RoundTrip.lean

A printed grammar is loaded as the grammar that it was.

`Grammar.sourceText` prints a start directive and then production by
production.  Line by line this is read as the symbols that were written
(`readText_sourceText`); these stand for the labels that they were written for,
since a feature map has no feature twice (`FeatureMap.addNew_entries`); and so
loading comes out with the start and the productions that were printed, in the
same order (`Grammar.ofText_sourceText`).

Labels of either kind are written as symbols (`WrittenLabel`), so one proof does
for plain grammars and for grammars with features.
-/
import ChartParsing.Proofs.Source.Featureless
import ChartParsing.Proofs.Source.Stages

namespace ChartParsing

/-! ### Labels and the symbols that they are written as -/

/-- Labels whose written form is that of a symbol which stands for them. -/
class WrittenLabel (L : Type) [Label L] [Resolve L] where
  /-- The symbol that the label is written as. -/
  written : L → Source.WrittenSymbol
  text_eq : ∀ l, Label.text l = (written l).text
  resolve_written : ∀ l, Resolve.resolve (written l) = .ok l

instance : WrittenLabel Symbol where
  written
    | .terminal t => .terminal t
    | .nonterminal n => .category n []
  text_eq l := by
    cases l with
    | terminal t => rfl
    | nonterminal n => exact (String.append_empty).symm
  resolve_written l := by cases l <;> rfl

/-- The features of a map, added one by one, are the map. -/
theorem FeatureMap.addNew_entries (m : FeatureMap) : empty.addNew m.entries = .ok m := by
  refine addNew_empty_eq_ok_iff.2 ⟨?_, fun f v => m.get?_eq_some_iff⟩
  refine List.pairwise_map.2 (m.sorted.imp ?_)
  rintro p q hlt heq
  exact String.lt_irrefl p.1 (heq ▸ hlt)

instance : WrittenLabel FeatureSymbol where
  written
    | .terminal t => .terminal t
    | .category c => .category c.name c.features.entries
  text_eq l := by cases l <;> rfl
  resolve_written l := by
    cases l with
    | terminal t => rfl
    | category c =>
      rw [resolve_category, c.features.addNew_entries]
      rfl

/-! ### Printed grammars -/

section Printing

variable {L : Type} [Label L]

/-- A start directive and the productions, each on a line of its own. -/
def Grammar.sourceText (start : L) (productions : List (Production L)) : String :=
  "\n".intercalate (("%start " ++ Label.text start) :: productions.map Production.text)

variable [Resolve L] [WrittenLabel L]

open WrittenLabel (written)

/-- All texts in the label can be written down. -/
def Spelled (l : L) : Prop := (written l).Spelled

instance (l : L) : Decidable (Spelled l) := inferInstanceAs (Decidable (written l).Spelled)

/-- Productions of nonterminals, some for the name of the start, in which all
texts can be written down. -/
structure Printable (start : L) (productions : List (Production L)) : Prop where
  start_nonterminal : Label.token? start = none
  lhs_nonterminal : ∀ p ∈ productions, Label.token? p.lhs = none
  expanded : ∃ p ∈ productions, Label.key p.lhs = Label.key start
  start_spelled : Spelled start
  spelled : ∀ p ∈ productions, Spelled p.lhs ∧ ∀ l ∈ p.rhs, Spelled l

namespace Source

/-- The line that a production is written as. -/
def writtenLine (p : Production L) : WrittenLine := ⟨written p.lhs, [p.rhs.map written]⟩

theorem toList_text_production (p : Production L) :
    p.text.toList = productionText (written p.lhs) (p.rhs.map written) := by
  have hrhs : (String.join (p.rhs.map fun l => " " ++ Label.text l)).toList =
      (p.rhs.map written).flatMap fun w => ' ' :: w.text.toList := by
    rw [String.toList_join, List.flatMap_map, List.flatMap_map]
    refine List.flatMap_congr fun l _ => ?_
    rw [String.toList_append, WrittenLabel.text_eq]
    rfl
  rw [Production.text, String.toList_append, String.toList_append, hrhs, WrittenLabel.text_eq,
    productionText, List.append_assoc]
  rfl

/-! ### Reading what was printed -/

/-- A line that is what was printed, and is read as the statement. -/
structure Says (line : List Char) (s : Statement) : Prop where
  isLine : Text.IsLine line
  reads : readStatement? (stripComment line) = .ok (some s)

theorem says_start {w : WrittenSymbol} (h : w.Spelled) :
    Says ("%start ".toList ++ w.text.toList) (.start w) := by
  have htrimmed := trimmed_text h
  have hinline : Inline ("%start ".toList ++ w.text.toList) :=
    (Inline.of_forall (by simp)).append (prints_symbol h).inline
  have hline : Trimmed ("%start ".toList ++ w.text.toList) :=
    (trimmed_singleton (c := '%') rfl).append htrimmed "start ".toList
  refine ⟨isLine_of_trimmed hline hinline, ?_⟩
  rw [hinline.closed.stripComment_eq]
  exact readStatement?_start htrimmed (readSymbol_text h)

theorem says_production {lhs : WrittenSymbol} {rhs : List WrittenSymbol} (hlhs : lhs.Spelled)
    (hrhs : ∀ w ∈ rhs, w.Spelled) :
    Says (productionText lhs rhs) (.productions ⟨lhs, [rhs]⟩) := by
  have hinline := (prints_production hlhs hrhs).inline
  refine ⟨isLine_of_trimmed (trimmed_production hlhs hrhs) hinline, ?_⟩
  rw [hinline.closed.stripComment_eq]
  have hread := readLine_productionText hlhs hrhs
  -- the line begins as its left-hand side does
  obtain ⟨c, hc, hblank⟩ := (trimmed_text hlhs).first
  obtain ⟨cs, hcs⟩ := List.head?_eq_some_iff.1 hc
  have hpercent : c ≠ '%' := by
    rintro rfl
    exact head?_text_ne hlhs hc
  rw [productionText, hcs] at hread ⊢
  exact readStatement?_production hblank hpercent hread

/-- Lines are read one after the other, and numbered. -/
theorem readNumbered_eq_ok {ls : List (List Char)} {statements : List Statement}
    (h : List.Forall₂ Says ls statements) (k : Nat) :
    readNumbered (ls.zipIdx k) = .ok ((statements.zipIdx k).map Prod.swap) := by
  induction h generalizing k with
  | nil => rfl
  | cons hline _ ih =>
    rw [List.zipIdx_cons, readNumbered, hline.reads]
    simp only [ih (k + 1)]
    rfl

/-- The lines of a printed grammar. -/
def writtenLines (start : L) (productions : List (Production L)) : List (List Char) :=
  ("%start ".toList ++ (written start).text.toList) ::
    productions.map fun p => productionText (written p.lhs) (p.rhs.map written)

/-- What these lines are read as. -/
def writtenStatements (start : L) (productions : List (Production L)) : List Statement :=
  .start (written start) :: (productions.map writtenLine).map .productions

theorem toList_sourceText (start : L) (productions : List (Production L)) :
    (Grammar.sourceText start productions).toList =
      ['\n'].intercalate (writtenLines start productions) := by
  rw [Grammar.sourceText, String.toList_intercalate, List.map_cons, String.toList_append,
    WrittenLabel.text_eq, List.map_map]
  exact congrArg (fun ps => List.intercalate ['\n'] (_ :: ps))
    (List.map_congr_left fun p _ => toList_text_production p)

theorem says_writtenLines {start : L} {productions : List (Production L)}
    (h : Printable start productions) :
    List.Forall₂ Says (writtenLines start productions) (writtenStatements start productions) := by
  refine .cons (says_start h.start_spelled) ?_
  rw [List.map_map, List.forall₂_map_left_iff, List.forall₂_map_right_iff, List.forall₂_same]
  intro p hp
  obtain ⟨hlhs, hrhs⟩ := h.spelled p hp
  refine says_production hlhs fun w hw => ?_
  obtain ⟨l, hl, rfl⟩ := List.mem_map.1 hw
  exact hrhs l hl

theorem isLine_of_forall₂ {ls : List (List Char)} {statements : List Statement}
    (h : List.Forall₂ Says ls statements) : ∀ l ∈ ls, Text.IsLine l := by
  induction h with
  | nil => simp
  | cons hline _ ih => exact List.forall_mem_cons.2 ⟨hline.isLine, ih⟩

/-- What is read of a printed grammar: the start, and line by line the productions. -/
theorem readText_sourceText {start : L} {productions : List (Production L)}
    (h : Printable start productions) {ending : String} (hending : ending ∈ ["", "\n"]) :
    readText (Grammar.sourceText start productions ++ ending) =
      .ok (((writtenStatements start productions).zipIdx 1).map Prod.swap) := by
  have hall := says_writtenLines h
  have hchars : ending.toList ∈ [[], ['\n']] := List.mem_map_of_mem hending
  have hlines : Text.lines (Grammar.sourceText start productions ++ ending).toList =
      writtenLines start productions := by
    rw [String.toList_append, toList_sourceText]
    exact Text.lines_intercalate (isLine_of_forall₂ hall) (List.cons_ne_nil _ _) hchars
  rw [readText, hlines]
  exact readNumbered_eq_ok hall 1

/-! ### From statements to a grammar -/

theorem productionLines_written (lines : List WrittenLine) (k : Nat) :
    productionLines (((lines.map Statement.productions).zipIdx k).map Prod.swap) =
      (lines.zipIdx k).map Prod.swap := by
  induction lines generalizing k with
  | nil => rfl
  | cons line lines ih => exact congrArg ((k, line) :: ·) (ih (k + 1))

/-- There is no directive but the first line. -/
theorem startSymbol?_written (w : WrittenSymbol) (lines : List WrittenLine) (k : Nat) :
    startSymbol? (((.start w :: lines.map Statement.productions).zipIdx k).map Prod.swap) =
      some (k, w) := by
  have hnone : ∀ k, startSymbol? (((lines.map Statement.productions).zipIdx k).map Prod.swap) =
      none := by
    induction lines with
    | nil => exact fun _ => rfl
    | cons line lines ih => exact fun k => ih (k + 1)
  exact congrArg (fun rest => ((k, w) :: rest).getLast?)
    (List.getLast?_eq_none_iff.1 (hnone (k + 1)))

theorem resolveAt_written (number : Nat) (l : L) : resolveAt number (written l) = .ok l := by
  rw [resolveAt, WrittenLabel.resolve_written]
  rfl

theorem resolveLine_written (number : Nat) {p : Production L} (h : Label.token? p.lhs = none) :
    resolveLine number (writtenLine p) = .ok (p.lhs, [p]) := by
  rw [resolveLine, writtenLine, resolveAt_written, ok_bind, h]
  simp only [List.mapM_cons, List.mapM_nil, mapM_map_eq_ok (resolveAt_written number)]
  rfl

theorem mapM_resolveLine_written {productions : List (Production L)}
    (h : ∀ p ∈ productions, Label.token? p.lhs = none) (k : Nat) :
    (((productions.map writtenLine).zipIdx k).map Prod.swap).mapM
        (fun p => resolveLine p.1 p.2) = .ok (productions.map fun p => (p.lhs, [p])) := by
  induction productions generalizing k with
  | nil => rfl
  | cons p ps ih =>
    obtain ⟨hp, hps⟩ := List.forall_mem_cons.1 h
    rw [List.map_cons, List.zipIdx_cons, List.map_cons, List.mapM_cons]
    show (resolveLine k (writtenLine p) >>= _) = _
    rw [resolveLine_written k hp, ok_bind, ih hps (k + 1)]
    rfl

theorem ofText_eq_ok {start : L} {productions : List (Production L)}
    (h : Printable start productions) {ending : String} (hending : ending ∈ ["", "\n"]) :
    Grammar.ofText (Grammar.sourceText start productions ++ ending) =
      .ok (.ofList start productions) := by
  have hlines : productionLines (((writtenStatements start productions).zipIdx 1).map Prod.swap) =
      ((productions.map writtenLine).zipIdx 2).map Prod.swap :=
    productionLines_written _ 2
  have hstart : startSymbol? (((writtenStatements start productions).zipIdx 1).map Prod.swap) =
      some (1, written start) :=
    startSymbol?_written _ _ 1
  have hflat : (productions.map fun p => (p.lhs, [p])).flatMap Prod.snd = productions := by
    rw [List.flatMap_map]
    exact List.flatMap_singleton' productions
  have hcheck : checkStart start productions = .ok (.ofList start productions) := by
    obtain ⟨p, hp, hkey⟩ := h.expanded
    exact checkStart_eq_ok_iff.2
      ⟨List.ne_nil_of_mem hp, h.start_nonterminal, ⟨p, hp, hkey⟩, rfl⟩
  rw [Grammar.ofText, readText_sourceText h hending, ok_bind, hlines,
    mapM_resolveLine_written h.lhs_nonterminal, ok_bind, hstart, resolveStart, resolveAt_written,
    ok_bind, hflat, hcheck]

end Source

end Printing

/-- What is printed of a grammar, of either kind, is loaded as its start and its
productions, in their order, whether or not the last line is ended. -/
theorem Grammar.ofText_sourceText :
    (∀ (start : Symbol) productions, Printable start productions → ∀ ending ∈ ["", "\n"],
      ∃ g : Grammar Symbol, ofText (sourceText start productions ++ ending) = .ok g ∧
        g.start = start ∧ g.productions = productions) ∧
    ∀ (start : FeatureSymbol) productions, Printable start productions → ∀ ending ∈ ["", "\n"],
      ∃ g : Grammar FeatureSymbol, ofText (sourceText start productions ++ ending) = .ok g ∧
        g.start = start ∧ g.productions = productions := by
  constructor
  · intro start productions h ending hending
    exact ⟨_, Source.ofText_eq_ok h hending, rfl, productions_ofList start productions⟩
  · intro start productions h ending hending
    exact ⟨_, Source.ofText_eq_ok h hending, rfl, productions_ofList start productions⟩

namespace Source

/-- Terminals made of the signs of a line, and an empty right-hand side. -/
def signs : List (Production Symbol) :=
  [⟨.nonterminal "S", [.terminal "# -> | \"S\" [", .nonterminal "S_1"]⟩,
    ⟨.nonterminal "S_1", [.terminal "", .terminal "%start", .terminal "\""]⟩,
    ⟨.nonterminal "S_1", []⟩]

/-- Features of all forms; their atoms may be no words, or be signs. -/
def featured : List (Production FeatureSymbol) :=
  [⟨.category ⟨"S", .empty⟩,
      [.category ⟨"NP", .ofList [("num", .var "n"), ("wh", .atom "-")]⟩, .terminal "]"]⟩,
    ⟨.category ⟨"NP", .ofList [("case", .atom "[#,]"), ("wh", .atom "+"), ("3", .atom "")]⟩, []⟩]

end Source

/-- Signs that mean something on a line mean nothing between quotes. -/
theorem Grammar.ofText_sourceText_signs_and_features :
    (sourceText (.nonterminal "S") Source.signs =
        "%start S\nS -> '# -> | \"S\" [' S_1\nS_1 -> '' '%start' '\"'\nS_1 ->" ∧
      Printable (.nonterminal "S") Source.signs ∧
      ∃ g, ofText (sourceText (.nonterminal "S") Source.signs ++ "\n") = .ok g ∧
        g.start = .nonterminal "S" ∧ g.productions = Source.signs) ∧
    sourceText (.category (.bare "S")) Source.featured =
        "%start S\nS -> NP[num=?n, -wh] ']'\nNP[3='', case='[#,]', +wh] ->" ∧
      Printable (.category (.bare "S")) Source.featured ∧
      ∃ g, ofText (sourceText (.category (.bare "S")) Source.featured ++ "") = .ok g ∧
        g.start = .category (.bare "S") ∧ g.productions = Source.featured := by
  have hsigns : Printable (.nonterminal "S") Source.signs :=
    ⟨rfl, by decide, by decide, by decide, by decide⟩
  have hfeatured : Printable (.category (.bare "S")) Source.featured :=
    ⟨rfl, by decide, by decide, by decide, by decide⟩
  obtain ⟨hplain, hfeature⟩ := Grammar.ofText_sourceText
  exact ⟨⟨by decide, hsigns, hplain _ _ hsigns "\n" (by decide)⟩, by decide, hfeatured,
    hfeature _ _ hfeatured "" (by decide)⟩

end ChartParsing
