/-
ChartParsing/Proofs/Source/Annotation.lean

Texts with comments put into them.

Two texts say the same if their lines do, apart from lines that say nothing
(`SayAlike`).  The lines may have other numbers then, but no number is part of a
grammar, so a text that loads goes on to load as the grammar that it was
(`Loads.of_sayAlike`).  A comment at the end of a line, or on a line of its own,
leaves a text like that (`Annotated.ofText_eq_ok`).
-/
import ChartParsing.Proofs.Source.Commentary

namespace ChartParsing

namespace Source

open Denotes (Means)

/-! ### Lines that say the same -/

/-- The lines say the same one by one, where they can be read, and lines that
say nothing may have come in between. -/
inductive SayAlike : List (List Char) → List (List Char) → Prop
  | nil : SayAlike [] []
  | line {line line' ls ls'} :
      (∀ statement?, Tells (stripComment line) (.ok statement?) →
        Tells (stripComment line') (.ok statement?)) →
      SayAlike ls ls' → SayAlike (line :: ls) (line' :: ls')
  | nothing {line ls ls'} : Tells (stripComment line) (.ok none) → SayAlike ls ls' →
      SayAlike ls (line :: ls')

theorem SayAlike.refl (ls : List (List Char)) : SayAlike ls ls := by
  induction ls with
  | nil => exact .nil
  | cons l ls ih => exact .line (fun _ h => h) ih

theorem SayAlike.append_left {ls ls' : List (List Char)} (h : SayAlike ls ls')
    (before : List (List Char)) : SayAlike (before ++ ls) (before ++ ls') := by
  induction before with
  | nil => exact h
  | cons l before ih => exact .line (fun _ h => h) ih

/-- The statements are the same one by one, whatever lines they are on. -/
def SameStatements (statements statements' : List (Nat × Statement)) : Prop :=
  statements.map Prod.snd = statements'.map Prod.snd

theorem SayAlike.exists_contains {ls ls' : List (List Char)} (h : SayAlike ls ls')
    {statements : List (Nat × Statement)} {k : Nat} (hcontains : Contains (ls.zipIdx k) statements)
    (k' : Nat) : ∃ statements', Contains (ls'.zipIdx k') statements' ∧
      SameStatements statements statements' := by
  induction h generalizing statements k k' with
  | nil =>
    cases hcontains with
    | nil => exact ⟨[], .nil, rfl⟩
  | line hline _ ih =>
    rw [List.zipIdx_cons] at hcontains
    cases hcontains with
    | nothing htells hrest =>
      obtain ⟨statements', hcontains', hsame⟩ := ih hrest (k' + 1)
      exact ⟨statements', .nothing (hline _ htells) hcontains', hsame⟩
    | statement htells hrest =>
      obtain ⟨statements', hcontains', hsame⟩ := ih hrest (k' + 1)
      exact ⟨_, .statement (hline _ htells) hcontains', congrArg (_ :: ·) hsame⟩
  | nothing htells _ ih =>
    obtain ⟨statements', hcontains', hsame⟩ := ih hcontains (k' + 1)
    exact ⟨statements', .nothing htells hcontains', hsame⟩

namespace SameStatements

variable {statements statements' : List (Nat × Statement)}

theorem map_productionLines (h : SameStatements statements statements') :
    (productionLines statements).map Prod.snd = (productionLines statements').map Prod.snd := by
  induction statements generalizing statements' with
  | nil =>
    obtain rfl := List.map_eq_nil_iff.1 h.symm
    rfl
  | cons s rest ih =>
    obtain ⟨s', rest', rfl, hs, hrest⟩ := List.map_eq_cons_iff.1 h.symm
    obtain ⟨number, s⟩ := s
    obtain ⟨number', s'⟩ := s'
    obtain rfl : s' = s := hs
    have hlines := ih hrest.symm
    cases s' with
    | start symbol => exact hlines
    | productions line => exact congrArg (line :: ·) hlines

theorem exists_lastStart (h : SameStatements statements statements') {number : Nat}
    {symbol : WrittenSymbol} (hlast : LastStart statements number symbol) :
    ∃ number', LastStart statements' number' symbol := by
  obtain ⟨before, after, rfl, hafter⟩ := hlast
  rw [SameStatements, List.map_append, List.map_cons] at h
  obtain ⟨before', rest', rfl, -, hrest⟩ := List.map_eq_append_iff.1 h.symm
  obtain ⟨⟨number', s'⟩, after', rfl, hs, hafter'⟩ := List.map_eq_cons_iff.1 hrest
  obtain rfl : s' = .start symbol := hs
  refine ⟨number', before', after', rfl, fun s hs => ?_⟩
  obtain ⟨s₀, hs₀, heq⟩ := List.mem_map.1 (hafter' ▸ List.mem_map_of_mem hs)
  rw [← heq]
  exact hafter s₀ hs₀

variable {L : Type} [Resolve L] [Denotes L] {lines : List (L × List (Production L))}

theorem startsFrom (h : SameStatements statements statements') {start : L}
    (hstart : StartsFrom statements lines start) : StartsFrom statements' lines start := by
  cases hstart with
  | directive hlast hmeans =>
    obtain ⟨number', hlast'⟩ := h.exists_lastStart hlast
    exact .directive hlast' hmeans
  | first hnone hfirst =>
    refine .first (fun number' symbol hlast' => ?_) hfirst
    obtain ⟨number, hlast⟩ := exists_lastStart (Eq.symm h) hlast'
    exact hnone number symbol hlast

theorem resolved [Label L] (h : SameStatements statements statements')
    (hresolved : Resolved statements lines) : Resolved statements' lines := by
  have hmap : List.Forall₂ (fun line r => Expands line (.ok r))
      ((productionLines statements).map Prod.snd) lines := List.forall₂_map_left_iff.2 hresolved
  rw [h.map_productionLines] at hmap
  exact List.forall₂_map_left_iff.1 hmap

end SameStatements

section Texts

variable {L : Type} [Label L] [Resolve L] [Denotes L]

/-- A text whose lines say what those of another one do loads as the same grammar. -/
theorem Loads.of_sayAlike {text text' : String} {g : Grammar L} (h : Loads text (.ok g))
    (hlines : SayAlike (Text.lines text.toList) (Text.lines text'.toList)) :
    Loads text' (.ok g) := by
  cases h with
  | loaded hcontains hresolved hstart htoken hkey =>
    obtain ⟨statements', hcontains', hsame⟩ := hlines.exists_contains hcontains 1
    exact .loaded hcontains' (hsame.resolved hresolved) (hsame.startsFrom hstart) htoken hkey

end Texts

end Source

/-! ### Where lines begin and end -/

namespace Text

/-- A line begins behind these characters. -/
def AtLineStart (before : List Char) : Prop := before = [] ∨ ∃ earlier, before = earlier ++ ['\n']

/-- A line ends before these characters. -/
inductive AtLineEnd : List Char → Prop
  | text : AtLineEnd []
  | feed (after : List Char) : AtLineEnd ('\n' :: after)
  | returnFeed (after : List Char) : AtLineEnd ('\r' :: '\n' :: after)

/-- The lines that are finished at some place, and what is collected for the next one. -/
theorem exists_linesFrom_append (collected before : List Char) :
    ∃ ls collected', ∀ rest,
      linesFrom collected (before ++ rest) = ls ++ linesFrom collected' rest := by
  induction before generalizing collected with
  | nil => exact ⟨[], collected, fun rest => rfl⟩
  | cons c cs ih =>
    by_cases hc : c = '\n'
    · obtain ⟨ls, collected', h⟩ := ih []
      refine ⟨finished collected :: ls, collected', fun rest => ?_⟩
      rw [List.cons_append, linesFrom, if_pos hc, h]
      rfl
    · obtain ⟨ls, collected', h⟩ := ih (c :: collected)
      refine ⟨ls, collected', fun rest => ?_⟩
      rw [List.cons_append, linesFrom, if_neg hc, h]

/-- Where a line begins, nothing is collected yet. -/
theorem AtLineStart.exists_lines_append {before : List Char} (h : AtLineStart before) :
    ∃ ls, ∀ rest, lines (before ++ rest) = ls ++ lines rest := by
  rcases h with rfl | ⟨earlier, rfl⟩
  · exact ⟨[], fun rest => rfl⟩
  · obtain ⟨ls, collected, h⟩ := exists_linesFrom_append [] earlier
    refine ⟨ls ++ [finished collected], fun rest => ?_⟩
    rw [lines, List.append_assoc, h, List.append_assoc]
    rfl

/-- Of what is collected only a blank may be left out. -/
theorem exists_finished_append (collected : List Char) :
    ∃ ending, (∀ c ∈ ending, isBlank c = true) ∧
      finished collected ++ ending = collected.reverse := by
  unfold finished
  split
  · exact ⟨['\r'], List.forall_mem_singleton.2 rfl, by simp⟩
  · exact ⟨[], by simp, by simp⟩

/-- Where a line ends, it is what has been collected, but for blanks at its end,
and the lines after it are the same whatever that is. -/
theorem AtLineEnd.exists_linesFrom {after : List Char} (h : AtLineEnd after) :
    ∃ later, ∀ collected,
      (collected = [] ∧ linesFrom collected after = [] ∧ later = []) ∨
      ∃ line ending, linesFrom collected after = line :: later ∧
        (∀ c ∈ ending, isBlank c = true) ∧ line ++ ending = collected.reverse := by
  cases h with
  | text =>
    refine ⟨[], fun collected => ?_⟩
    cases collected with
    | nil => exact .inl ⟨rfl, rfl, rfl⟩
    | cons c cs => exact .inr ⟨(c :: cs).reverse, [], rfl, by simp, by simp⟩
  | feed after =>
    refine ⟨lines after, fun collected => .inr ?_⟩
    obtain ⟨ending, hending, heq⟩ := exists_finished_append collected
    exact ⟨finished collected, ending, rfl, hending, heq⟩
  | returnFeed after =>
    exact ⟨lines after, fun collected => .inr ⟨collected.reverse, [], rfl, by simp, by simp⟩⟩

end Text

namespace Source

open Text (AtLineStart AtLineEnd linesFrom finished)

/-! ### Comments put into a text -/

/-- White space and a comment. -/
structure IsCommentLine (line : List Char) : Prop where
  unbroken : '\n' ∉ line
  exists_comment : ∃ blanks comment, line = blanks ++ '#' :: comment ∧
    ∀ c ∈ blanks, Text.isBlank c = true

/-- The text with comments at the ends of lines, and on lines of their own that
stand above or below any line. -/
inductive Annotated (text : List Char) : List Char → Prop
  | refl : Annotated text text
  | atEnd {before after comment} : Annotated text (before ++ after) → AtLineEnd after →
      '\n' ∉ comment → Annotated text (before ++ (' ' :: '#' :: comment ++ after))
  | lineAbove {before after line ending} : Annotated text (before ++ after) → AtLineStart before →
      IsCommentLine line → ending = ['\n'] ∨ ending = [] ∧ after = [] →
      Annotated text (before ++ (line ++ (ending ++ after)))
  | lineBelow {before after line} : Annotated text (before ++ after) → AtLineEnd after →
      IsCommentLine line → Annotated text (before ++ '\n' :: (line ++ after))

theorem IsCommentLine.tells_of_append {line line' ending : List Char} (h : IsCommentLine line)
    (hending : ∀ c ∈ ending, Text.isBlank c = true) (heq : line' ++ ending = line) :
    Tells (stripComment line') (.ok none) := by
  obtain ⟨blanks, comment, rfl, hblanks⟩ := h.exists_comment
  obtain ⟨comment', rfl⟩ := exists_comment_of_append hending heq
  exact tells_comment hblanks comment'

/-- A comment at the end of a line. -/
theorem sayAlike_atEnd {after comment : List Char} (h : AtLineEnd after) (hcomment : '\n' ∉ comment)
    (collected : List Char) :
    SayAlike (linesFrom collected after)
      (linesFrom collected (' ' :: '#' :: comment ++ after)) := by
  obtain ⟨later, hlater⟩ := h.exists_linesFrom
  have hunbroken : '\n' ∉ ' ' :: '#' :: comment := by simp [hcomment]
  have hblank : ∀ c ∈ [' '], Text.isBlank c = true := List.forall_mem_singleton.2 rfl
  rw [Text.linesFrom_append hunbroken]
  obtain ⟨hnil, -⟩ | ⟨line', ending', hline', hending', heq'⟩ :=
    hlater ((' ' :: '#' :: comment).reverse ++ collected)
  · simp at hnil
  · rw [List.reverse_append, List.reverse_reverse] at heq'
    rw [hline']
    obtain ⟨rfl, hlines, rfl⟩ | ⟨line, ending, hline, hending, heq⟩ := hlater collected
    · -- there was no line yet
      rw [hlines]
      have heq' : line' ++ ending' = [' '] ++ '#' :: comment := heq'
      obtain ⟨comment', rfl⟩ := exists_comment_of_append hending' heq'
      exact .nothing (tells_comment hblank comment') .nil
    · rw [hline]
      refine .line (fun statement? htells => ?_) (.refl later)
      rw [← heq] at heq'
      have heq' : line' ++ ending' = line ++ (ending ++ [' ']) ++ '#' :: comment := by
        rw [heq']
        simp
      obtain ⟨comment', rfl⟩ := exists_comment_of_append hending' heq'
      exact tells_append_comment htells (List.forall_mem_append.2 ⟨hending, hblank⟩) comment'

/-- A comment on a line above. -/
theorem sayAlike_lineAbove {after line ending : List Char} (h : IsCommentLine line)
    (hending : ending = ['\n'] ∨ ending = [] ∧ after = []) :
    SayAlike (Text.lines after) (Text.lines (line ++ (ending ++ after))) := by
  rw [Text.lines, Text.lines, Text.linesFrom_append h.unbroken, List.append_nil]
  rcases hending with rfl | ⟨rfl, rfl⟩
  · obtain ⟨blanks, hblanks, heq⟩ := Text.exists_finished_append line.reverse
    rw [List.reverse_reverse] at heq
    exact .nothing (h.tells_of_append hblanks heq) (.refl _)
  · have hne : line.reverse ≠ [] := by
      obtain ⟨blanks, comment, rfl, -⟩ := h.exists_comment
      simp
    rw [List.append_nil, linesFrom, linesFrom, if_neg (mt List.isEmpty_iff.1 hne),
      List.reverse_reverse]
    exact .nothing (h.tells_of_append (by simp) (List.append_nil line)) .nil

/-- A comment on a line below. -/
theorem sayAlike_lineBelow {after line : List Char} (hafter : AtLineEnd after)
    (h : IsCommentLine line) (collected : List Char) :
    SayAlike (linesFrom collected after) (linesFrom collected ('\n' :: (line ++ after))) := by
  obtain ⟨later, hlater⟩ := hafter.exists_linesFrom
  obtain ⟨blanks, hblanks, hfinished⟩ := Text.exists_finished_append collected
  rw [linesFrom, if_pos rfl, Text.linesFrom_append h.unbroken, List.append_nil]
  obtain ⟨hnil, -⟩ | ⟨line', ending', hline', hending', heq'⟩ := hlater line.reverse
  · obtain ⟨blanks, comment, rfl, -⟩ := h.exists_comment
    simp at hnil
  · rw [List.reverse_reverse] at heq'
    have hcomment := h.tells_of_append hending' heq'
    rw [hline']
    obtain ⟨rfl, hlines, rfl⟩ | ⟨line, ending, hline, hending, heq⟩ := hlater collected
    · rw [hlines]
      exact .nothing (.nothing (by simp [stripComment, beforeComment?, finished]))
        (.nothing hcomment .nil)
    · rw [hline]
      refine .line (fun statement? htells => ?_) (.nothing hcomment (.refl later))
      rw [← tells_stripComment_append_blanks_iff hblanks, hfinished, ← heq,
        tells_stripComment_append_blanks_iff hending]
      exact htells

/-- Comments leave what a text loads as. -/
theorem Annotated.loads {L : Type} [Label L] [Resolve L] [Denotes L] {text : String}
    {g : Grammar L} {annotated : List Char} (h : Annotated text.toList annotated)
    (hg : Loads text (.ok g)) : Loads (String.ofList annotated) (.ok g) := by
  induction h with
  | refl =>
    rw [String.ofList_toList]
    exact hg
  | @atEnd before after comment _ hafter hcomment ih =>
    refine ih.of_sayAlike ?_
    rw [String.toList_ofList, String.toList_ofList]
    obtain ⟨ls, collected, hlines⟩ := Text.exists_linesFrom_append [] before
    rw [Text.lines, Text.lines, hlines, hlines]
    exact (sayAlike_atEnd hafter hcomment collected).append_left ls
  | @lineAbove before after line ending _ hbefore hline hending ih =>
    refine ih.of_sayAlike ?_
    rw [String.toList_ofList, String.toList_ofList]
    obtain ⟨ls, hlines⟩ := hbefore.exists_lines_append
    rw [hlines, hlines]
    exact (sayAlike_lineAbove hline hending).append_left ls
  | @lineBelow before after line _ hafter hline ih =>
    refine ih.of_sayAlike ?_
    rw [String.toList_ofList, String.toList_ofList]
    obtain ⟨ls, collected, hlines⟩ := Text.exists_linesFrom_append [] before
    rw [Text.lines, Text.lines, hlines, hlines]
    exact (sayAlike_lineBelow hafter hline collected).append_left ls

theorem Annotated.ofText_eq_ok {L : Type} [Label L] [Resolve L] [Denotes L] {text text' : String}
    {g : Grammar L} (h : Annotated text.toList text'.toList) (hg : Grammar.ofText text = .ok g) :
    Grammar.ofText text' = .ok g := by
  have hloads := h.loads (ofText_eq_iff.1 hg)
  rw [String.ofList_toList] at hloads
  exact ofText_eq_iff.2 hloads

end Source

open Source in
/-- A comment is what stands behind a `#` that is not in quotes, and any line of
another form is kept as it is.  So nothing is taken from what is left without
the comment, nor from a line that can be read; and comments may be put at the
ends of lines, above them and below them in a text that loads, with the same
grammar in the end. -/
theorem Grammar.comments_change_nothing :
    (∀ kept comment, Closed kept → stripComment (kept ++ '#' :: comment) = kept) ∧
    (∀ line, (∀ kept comment, Closed kept → line ≠ kept ++ '#' :: comment) →
      stripComment line = line) ∧
    (∀ line, stripComment (stripComment line) = stripComment line) ∧
    (∀ line written, readLine line = .ok written → stripComment line = line) ∧
    (∀ line statement?, readStatement? line = .ok statement? → stripComment line = line) ∧
    (∀ text text', Annotated text.toList text'.toList → ∀ g : Grammar Symbol,
      ofText text = .ok g → ofText text' = .ok g) ∧
    ∀ text text', Annotated text.toList text'.toList → ∀ g : Grammar FeatureSymbol,
      ofText text = .ok g → ofText text' = .ok g := by
  refine ⟨fun kept comment h => stripComment_append h comment, fun line => stripComment_eq_self,
    stripComment_stripComment, fun line written h => ?_, fun line statement? h => ?_,
    fun _ _ h _ => h.ofText_eq_ok, fun _ _ h _ => h.ofText_eq_ok⟩
  · exact (readLine_eq_iff.1 h).closed.stripComment_eq
  · exact (closed_of_tells (readStatement?_eq_iff.1 h)).stripComment_eq

open Source in
/-- A `#` in quotes stays, quotes in a comment do not count, and a quote that is
not closed keeps a line as it is. -/
theorem Grammar.comments_change_nothing_quotes :
    stripComment "S -> '#' S # it's".toList = "S -> '#' S ".toList ∧
    stripComment "S -> 'a # it".toList = "S -> 'a # it".toList ∧
    stripComment "S -> '#' S".toList = "S -> '#' S".toList ∧
    ∃ g : Grammar Symbol, ofText "S -> '#' S\nS ->" = .ok g ∧
      ofText "# toy\nS -> '#' S # it's\nS ->\n# \"end" = .ok g ∧
      g.start = .nonterminal "S" ∧ g.productions.length = 2 := by
  obtain ⟨hkept, hbare, -, hline, -, hplain, -⟩ := comments_change_nothing
  have hclosed : Closed "S -> '#' S ".toList :=
    (Closed.of_forall (by simp : ∀ c ∈ "S -> ".toList, c ≠ '#' ∧ c ≠ '\'' ∧ c ≠ '"')).append
      (.quoted (.inl rfl) (by decide : '\'' ∉ ['#'])
        (.cons (by decide) (.cons (by decide) (.cons (by decide) .nil))))
  have hopen : ∀ kept comment, Closed kept → "S -> 'a # it".toList ≠ kept ++ '#' :: comment := by
    intro kept comment h heq
    have hstrip := stripComment_append h comment
    rw [← heq] at hstrip
    obtain rfl : "S -> 'a # it".toList = kept := hstrip
    simp at heq
  have hannotated : Annotated "S -> '#' S\nS ->".toList
      "# toy\nS -> '#' S # it's\nS ->\n# \"end".toList := by
    have hend : Annotated "S -> '#' S\nS ->".toList
        ("S -> '#' S".toList ++ (' ' :: '#' :: " it's".toList ++ "\nS ->".toList)) :=
      .atEnd .refl (.feed _) (by decide)
    have habove : Annotated "S -> '#' S\nS ->".toList
        ([] ++ ("# toy".toList ++ (['\n'] ++ "S -> '#' S # it's\nS ->".toList))) :=
      .lineAbove hend (.inl rfl) ⟨by decide, [], " toy".toList, rfl, by simp⟩ (.inl rfl)
    have hbelow : Annotated "S -> '#' S\nS ->".toList
        ("# toy\nS -> '#' S # it's\nS ->".toList ++ '\n' :: ("# \"end".toList ++ [])) :=
      .lineBelow habove .text ⟨by decide, [], " \"end".toList, rfl, by simp⟩
    exact hbelow
  refine ⟨hkept _ " it's".toList hclosed, hbare _ hopen, hline _ _ rfl,
    _, rfl, hplain _ _ hannotated _ rfl, rfl, rfl⟩

end ChartParsing
