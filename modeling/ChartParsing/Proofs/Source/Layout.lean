/-
ChartParsing/Proofs/Source/Layout.lean

Lines, comments and directives of a text that has been put together.

A text made of lines falls apart into these very lines (`lines_intercalate`),
whether or not the last one is ended, if none of them could be taken for two or
for less than one (`IsLine`).  A line keeps all it has if each `#` of it stands
between quotes (`Inline`).  It names a start symbol if it has the form of a
directive (`Directs`, `startArgument?_eq_some_iff`), and not if it begins like a
symbol (`readStatement?_production`).
-/
import ChartParsing.Proofs.Source.Comment
import ChartParsing.Source.Statement

namespace ChartParsing

/-! ### Lines -/

namespace Text

/-- Some characters, none of which ends a line, and the last of which cannot be
taken for the beginning of a line end. -/
structure IsLine (line : List Char) : Prop where
  ne_nil : line ≠ []
  unbroken : '\n' ∉ line
  last : line.getLast? ≠ some '\r'

theorem linesFrom_append {line : List Char} (h : '\n' ∉ line) (collected rest : List Char) :
    linesFrom collected (line ++ rest) = linesFrom (line.reverse ++ collected) rest := by
  induction line generalizing collected with
  | nil => rfl
  | cons c cs ih =>
    rw [List.mem_cons, not_or] at h
    rw [List.cons_append, linesFrom, if_neg (Ne.symm h.1), ih h.2]
    simp

theorem finished_reverse {line : List Char} (h : line.getLast? ≠ some '\r') :
    finished line.reverse = line := by
  unfold finished
  split
  · rename_i cs hcs
    have hlast : line.getLast? = some '\r' := by simp [← List.head?_reverse, hcs]
    exact absurd hlast h
  · exact List.reverse_reverse line

/-- The first line of a text, and the lines after it. -/
theorem lines_append {line : List Char} (h : IsLine line) (rest : List Char) :
    lines (line ++ '\n' :: rest) = line :: lines rest := by
  rw [lines, linesFrom_append h.unbroken, List.append_nil, linesFrom, if_pos rfl,
    finished_reverse h.last]
  rfl

/-- A line by itself may be ended or not. -/
theorem lines_of_isLine {line ending : List Char} (h : IsLine line)
    (hending : ending ∈ [[], ['\n']]) : lines (line ++ ending) = [line] := by
  obtain rfl | rfl : ending = [] ∨ ending = ['\n'] := by simpa using hending
  · rw [lines, linesFrom_append h.unbroken, List.append_nil, linesFrom, List.reverse_reverse,
      if_neg]
    simp [h.ne_nil]
  · rw [lines_append h]
    rfl

/-- Lines that are put together come apart again. -/
theorem lines_intercalate {ls : List (List Char)} {ending : List Char} (h : ∀ l ∈ ls, IsLine l)
    (hne : ls ≠ []) (hending : ending ∈ [[], ['\n']]) :
    lines (['\n'].intercalate ls ++ ending) = ls := by
  induction ls with
  | nil => exact absurd rfl hne
  | cons l ls ih =>
    obtain ⟨hl, hls⟩ := List.forall_mem_cons.1 h
    cases ls with
    | nil => rw [List.intercalate_singleton, lines_of_isLine hl hending]
    | cons l' ls =>
      rw [List.intercalate_cons_cons, List.append_assoc, List.append_assoc]
      exact (lines_append hl _).trans (congrArg (l :: ·) (ih hls (List.cons_ne_nil l' ls)))

end Text

namespace Source

/-! ### Comments -/

/-- The piece stays on its line, and no comment begins in it. -/
structure Inline (piece : List Char) : Prop where
  unbroken : '\n' ∉ piece
  closed : Closed piece

namespace Inline

theorem nil : Inline [] := ⟨List.not_mem_nil, .nil⟩

theorem append {piece piece' : List Char} (h : Inline piece) (h' : Inline piece') :
    Inline (piece ++ piece') where
  unbroken := fun hmem => (List.mem_append.1 hmem).elim h.unbroken h'.unbroken
  closed := h.closed.append h'.closed

/-- A character that neither ends a line nor begins a comment or a quoted text. -/
theorem cons {c : Char} {piece : List Char} (hc : c ≠ '\n' ∧ c ≠ '#' ∧ c ≠ '\'' ∧ c ≠ '"')
    (h : Inline piece) : Inline (c :: piece) where
  unbroken := by
    rw [List.mem_cons, not_or]
    exact ⟨hc.1.symm, h.unbroken⟩
  closed := .cons hc.2 h.closed

theorem of_forall {piece : List Char}
    (h : ∀ c ∈ piece, c ≠ '\n' ∧ c ≠ '#' ∧ c ≠ '\'' ∧ c ≠ '"') : Inline piece where
  unbroken := fun hmem => (h _ hmem).1 rfl
  closed := .of_forall fun c hc => (h c hc).2

/-- Inside the quotes a `#` is a character like any other. -/
theorem quoted {text : List Char} (hquote : '\'' ∉ text) (hbreak : '\n' ∉ text) :
    Inline ('\'' :: text ++ ['\'']) where
  unbroken := by simp [hbreak]
  closed := .quoted (.inl rfl) hquote .nil

end Inline

/-! ### Directives -/

/-- Neither the first nor the last character is a blank. -/
structure Trimmed (cs : List Char) : Prop where
  first : ∃ c, cs.head? = some c ∧ Text.isBlank c = false
  last : ∃ c, cs.getLast? = some c ∧ Text.isBlank c = false

theorem Trimmed.ne_nil {cs : List Char} (h : Trimmed cs) : cs ≠ [] := by
  rintro rfl
  obtain ⟨c, hc, -⟩ := h.first
  cases hc

/-- The line is a start directive with this text where its symbol should be.
There may be nothing there, if two blanks at least were written. -/
inductive Directs : List Char → List Char → Prop
  | symbol {before blanks argument after} : (∀ c ∈ before, Text.isBlank c = true) →
      blanks ≠ [] → (∀ c ∈ blanks, Text.isBlank c = true) → Trimmed argument →
      (∀ c ∈ after, Text.isBlank c = true) →
      Directs (before ++ ("%start".toList ++ (blanks ++ (argument ++ after)))) argument
  | missing {before blanks} : (∀ c ∈ before, Text.isBlank c = true) → 2 ≤ blanks.length →
      (∀ c ∈ blanks, Text.isBlank c = true) → Directs (before ++ ("%start".toList ++ blanks)) []

theorem dropBlankEnd_append {after : List Char} (h : ∀ c ∈ after, Text.isBlank c = true)
    (cs : List Char) : Text.dropBlankEnd (cs ++ after) = Text.dropBlankEnd cs := by
  rw [Text.dropBlankEnd, List.reverse_append, List.dropWhile_append_of_pos]
  · rfl
  · exact fun c hc => h c (List.mem_reverse.1 hc)

theorem Trimmed.dropBlankEnd_eq {cs : List Char} (h : Trimmed cs) : Text.dropBlankEnd cs = cs := by
  obtain ⟨c, hlast, hc⟩ := h.last
  obtain ⟨init, rfl⟩ := List.getLast?_eq_some_iff.1 hlast
  simp [Text.dropBlankEnd, hc]

theorem isBlank_head?_dropWhile (cs : List Char) {c : Char}
    (h : (cs.dropWhile Text.isBlank).head? = some c) : Text.isBlank c = false := by
  have hnot := List.head?_dropWhile_not Text.isBlank cs
  rw [h] at hnot
  exact hnot

/-- Text that begins with no blank is an argument, if there is any, and blanks behind it. -/
theorem exists_dropBlankEnd {cs : List Char}
    (h : ∀ c, cs.head? = some c → Text.isBlank c = false) :
    ∃ after, cs = Text.dropBlankEnd cs ++ after ∧ (∀ c ∈ after, Text.isBlank c = true) ∧
      (Text.dropBlankEnd cs ≠ [] → Trimmed (Text.dropBlankEnd cs)) := by
  have heq : cs = Text.dropBlankEnd cs ++ (cs.reverse.takeWhile Text.isBlank).reverse := by
    rw [Text.dropBlankEnd, ← List.reverse_append, List.takeWhile_append_dropWhile,
      List.reverse_reverse]
  refine ⟨(cs.reverse.takeWhile Text.isBlank).reverse, heq, fun c hc => ?_, fun hne => ⟨?_, ?_⟩⟩
  · exact List.all_eq_true.1 List.all_takeWhile c (List.mem_reverse.1 hc)
  · obtain ⟨c, ds, hcs⟩ := List.exists_cons_of_ne_nil hne
    refine ⟨c, congrArg List.head? hcs, h c ?_⟩
    rw [heq, hcs]
    rfl
  · obtain ⟨c, hc⟩ := Option.isSome_iff_exists.1 (List.getLast?_isSome.2 hne)
    refine ⟨c, hc, isBlank_head?_dropWhile cs.reverse ?_⟩
    rw [← hc, Text.dropBlankEnd, List.getLast?_reverse]

theorem startArgument?_append {before blanks rest : List Char}
    (hbefore : ∀ c ∈ before, Text.isBlank c = true) (hblanks : ∀ c ∈ blanks, Text.isBlank c = true)
    (hrest : ∀ c, rest.head? = some c → Text.isBlank c = false) :
    startArgument? (before ++ ("%start".toList ++ (blanks ++ rest))) =
      if blanks.isEmpty then none
      else if (Text.dropBlankEnd rest).isEmpty && blanks.length < 2 then none
      else some (Text.dropBlankEnd rest) := by
  have htake : rest.takeWhile Text.isBlank = [] := by
    cases rest with
    | nil => rfl
    | cons c cs => exact List.takeWhile_cons_of_neg (by simp [hrest c rfl])
  have hdrop : rest.dropWhile Text.isBlank = rest := by
    have happend := List.takeWhile_append_dropWhile (p := Text.isBlank) (l := rest)
    rwa [htake, List.nil_append] at happend
  have hline : (before ++ ("%start".toList ++ (blanks ++ rest))).dropWhile Text.isBlank =
      '%' :: 's' :: 't' :: 'a' :: 'r' :: 't' :: (blanks ++ rest) := by
    rw [List.dropWhile_append_of_pos hbefore]
    exact List.dropWhile_cons_of_neg (a := '%') (by decide)
  rw [startArgument?, hline]
  simp only [List.takeWhile_append_of_pos hblanks, List.dropWhile_append_of_pos hblanks, htake,
    hdrop, List.append_nil]

/-- A line is a directive if it has the form of one. -/
theorem startArgument?_eq_some_iff {line argument : List Char} :
    startArgument? line = some argument ↔ Directs line argument := by
  constructor
  · intro h
    obtain ⟨before, blanks, rest, rfl, hbefore, hblanks, hrest⟩ : ∃ before blanks rest,
        line = before ++ ("%start".toList ++ (blanks ++ rest)) ∧
          (∀ c ∈ before, Text.isBlank c = true) ∧ (∀ c ∈ blanks, Text.isBlank c = true) ∧
          ∀ c, rest.head? = some c → Text.isBlank c = false := by
      have hline := List.takeWhile_append_dropWhile (p := Text.isBlank) (l := line)
      rw [startArgument?] at h
      split at h
      · rename_i rest hrest
        refine ⟨line.takeWhile Text.isBlank, rest.takeWhile Text.isBlank,
          rest.dropWhile Text.isBlank, ?_, List.all_eq_true.1 List.all_takeWhile,
          List.all_eq_true.1 List.all_takeWhile, fun c => isBlank_head?_dropWhile rest⟩
        rw [List.takeWhile_append_dropWhile]
        rw [hrest] at hline
        exact hline.symm
      · cases h
    obtain ⟨after, hargument, hafter, htrimmed⟩ := exists_dropBlankEnd hrest
    rw [startArgument?_append hbefore hblanks hrest] at h
    split at h
    · cases h
    · rename_i hne
      split at h
      · cases h
      · rename_i hlength
        obtain rfl := Option.some.inj h
        by_cases hempty : Text.dropBlankEnd rest = []
        · -- nothing but blanks: there are two of them
          obtain rfl : rest = [] := by
            rw [hempty, List.nil_append] at hargument
            cases rest with
            | nil => rfl
            | cons c cs =>
              have hblank := hafter c (hargument ▸ List.mem_cons_self)
              rw [hrest c rfl] at hblank
              cases hblank
          rw [List.append_nil]
          refine .missing hbefore (Nat.le_of_not_lt fun hlt => hlength ?_) hblanks
          rw [hempty]
          exact decide_eq_true hlt
        · have hdirects :=
            Directs.symbol hbefore (by simpa using hne) hblanks (htrimmed hempty) hafter
          rwa [← hargument] at hdirects
  · intro h
    cases h with
    | @symbol before blanks _ after hbefore hne hblanks hargument hafter =>
      obtain ⟨c, hc, hblank⟩ := hargument.first
      have hfirst : ∀ d, (argument ++ after).head? = some d → Text.isBlank d = false := by
        intro d hd
        rw [List.head?_append, hc] at hd
        exact Option.some.inj hd ▸ hblank
      rw [startArgument?_append hbefore hblanks hfirst, dropBlankEnd_append hafter,
        hargument.dropBlankEnd_eq]
      simp [hne, hargument.ne_nil]
    | @missing before blanks hbefore hlength hblanks =>
      have hnil : ∀ c : Char, [].head? = some c → Text.isBlank c = false := fun c hc => nomatch hc
      have hline := startArgument?_append hbefore hblanks hnil
      rw [List.append_nil] at hline
      have hne : blanks ≠ [] := by
        rintro rfl
        exact absurd hlength (by decide)
      rw [hline]
      simp [hne, Nat.not_lt.2 hlength, Text.dropBlankEnd]

/-- The argument of a directive is what was written after one blank. -/
theorem startArgument?_start {argument : List Char} (h : Trimmed argument) :
    startArgument? ("%start ".toList ++ argument) = some argument := by
  have hdirects : Directs ([] ++ ("%start".toList ++ ([' '] ++ (argument ++ [])))) argument :=
    .symbol (by simp) (by simp) (by simp [Text.isBlank]) h (by simp)
  rw [List.append_nil] at hdirects
  exact startArgument?_eq_some_iff.2 hdirects

theorem startArgument?_eq_none {c : Char} (hblank : Text.isBlank c = false) (hpercent : c ≠ '%')
    (cs : List Char) : startArgument? (c :: cs) = none := by
  rw [startArgument?, List.dropWhile_cons_of_neg (by simp [hblank])]
  split
  · rename_i heq
    exact absurd (List.cons.inj heq).1 hpercent
  · rfl

theorem readStatement?_start {argument : List Char} {symbol : WrittenSymbol}
    (h : Trimmed argument) (hread : readSymbol argument = .ok symbol) :
    readStatement? ("%start ".toList ++ argument) = .ok (some (.start symbol)) := by
  rw [readStatement?, if_neg, startArgument?_start h]
  · simp only [hread]
    rfl
  · simp [Text.isBlank]

theorem readStatement?_production {c : Char} {cs : List Char} {line : WrittenLine}
    (hblank : Text.isBlank c = false) (hpercent : c ≠ '%')
    (hread : readLine (c :: cs) = .ok line) :
    readStatement? (c :: cs) = .ok (some (.productions line)) := by
  rw [readStatement?, if_neg, startArgument?_eq_none hblank hpercent]
  · simp only [hread]
    rfl
  · simp [hblank]

end Source

end ChartParsing
