/-
ChartParsing/Proofs/Graphviz/Reading.lean

Reading a text in the Graphviz language.

A reader goes from stage to stage with what it is fed, and gives what it has
read as soon as it knows it (`feed`).  It comes back from a piece
(`ComesBack`) if it is then in the stage it started from; pieces from which it
comes back can be put together (`ComesBack.append`).

A text is read character by character (`step`), as words, quoted labels and
signs.  A quoted text is read back as it was, up to the closing quote and no
further, whatever is in it and whatever stands behind it (`run_quoted`).  A
word ends only where the text goes on with something else, so it comes with
what stands behind it (`Reads.word`).
-/
import ChartParsing.Graphviz
import Mathlib.Data.List.Basic

namespace ChartParsing.Graphviz

/-! ### Readers -/

section Readers

variable {σ α β : Type} {read : σ → α → List β × σ}

/-- Feeds a reader, and gives what it reads and the stage that it ends in. -/
def feed (read : σ → α → List β × σ) : σ → List α → List β × σ
  | stage, [] => ([], stage)
  | stage, a :: as =>
    ((read stage a).1 ++ (feed read (read stage a).2 as).1, (feed read (read stage a).2 as).2)

theorem feed_append (stage : σ) (as as' : List α) : feed read stage (as ++ as') =
    ((feed read stage as).1 ++ (feed read (feed read stage as).2 as').1,
      (feed read (feed read stage as).2 as').2) := by
  induction as generalizing stage with
  | nil => rfl
  | cons a as ih => simp only [List.cons_append, feed, ih, List.append_assoc]

/-- Fed with `as` the reader reads `bs`, and is in the stage that it was in. -/
def ComesBack (read : σ → α → List β × σ) (stage : σ) (as : List α) (bs : List β) : Prop :=
  feed read stage as = (bs, stage)

variable {stage : σ} {as as' : List α} {bs bs' : List β}

theorem ComesBack.append (h : ComesBack read stage as bs) (h' : ComesBack read stage as' bs') :
    ComesBack read stage (as ++ as') (bs ++ bs') := by
  rw [ComesBack, feed_append, h, h']

end Readers

/-! ### Lexemes -/

/-- What a text consists of. -/
inductive Lexeme where
  /-- Letters, digits, underscores and dots. -/
  | word (text : String)
  /-- A text in double quotes. -/
  | label (text : String)
  | sign (c : Char)
  deriving DecidableEq

/-- How far a reader is, with what it has read of a word or a label. -/
inductive Stage where
  | between
  | word (read : List Char)
  | label (read : List Char)
  /-- Behind a backslash within a label. -/
  | escape (read : List Char)
  deriving DecidableEq

def isWordChar (c : Char) : Bool := c.isAlphanum || c == '_' || c == '.'

/-- Reads a character that does not go on with a word or a label. -/
def enter (c : Char) : List Lexeme × Stage :=
  if c = '"' then ([], .label [])
  else if isWordChar c then ([], .word [c])
  else if c.isWhitespace then ([], .between)
  else ([.sign c], .between)

/-- Reads one more character.  In a label, two backslashes stand for one, and a
backslash and a quote for the quote. -/
def step (stage : Stage) (c : Char) : List Lexeme × Stage :=
  match stage with
  | .between => enter c
  | .word read =>
    if isWordChar c then ([], .word (read ++ [c]))
    else (.word (String.ofList read) :: (enter c).1, (enter c).2)
  | .label read =>
    if c = '"' then ([.label (String.ofList read)], .between)
    else if c = '\\' then ([], .escape read)
    else ([], .label (read ++ [c]))
  | .escape read =>
    if c = '\\' ∨ c = '"' then ([], .label (read ++ [c]))
    else ([], .label (read ++ ['\\', c]))

/-- Reads characters to their end. -/
def run (stage : Stage) (cs : List Char) : List Lexeme × Stage := feed step stage cs

@[simp] theorem run_nil (stage : Stage) : run stage [] = ([], stage) := rfl

@[simp] theorem run_cons (stage : Stage) (c : Char) (cs : List Char) : run stage (c :: cs) =
    ((step stage c).1 ++ (run (step stage c).2 cs).1, (run (step stage c).2 cs).2) := rfl

theorem run_append (stage : Stage) (cs ds : List Char) :
    run stage (cs ++ ds) = ((run stage cs).1 ++ (run (run stage cs).2 ds).1,
      (run (run stage cs).2 ds).2) := feed_append stage cs ds

/-- The name of a numeric node: digits and dots. -/
def Lexeme.node? : Lexeme → Option String
  | word text => if text.toList.all (fun c => c.isDigit || c == '.') then some text else none
  | label _ | sign _ => none

/-! ### Quoted labels -/

/-- A character with a backslash before it, if it is a special one. -/
def guarded (special c : Char) : List Char := if c = special then ['\\', c] else [c]

/-- Quoting escapes the backslashes, and then the quotes. -/
theorem flatMap_escapeChar (cs : List Char) :
    cs.flatMap escapeChar = (cs.flatMap (guarded '\\')).flatMap (guarded '"') := by
  rw [List.flatMap_assoc]
  refine List.flatMap_congr fun c _ => ?_
  by_cases hbackslash : c = '\\'
  · subst hbackslash
    rfl
  · by_cases hquote : c = '"'
    · subst hquote
      rfl
    · rw [escapeChar.eq_3 c hbackslash hquote, guarded, if_neg hbackslash, List.flatMap_singleton,
        guarded, if_neg hquote]

theorem toList_quoted (s : String) :
    (quoted s).toList = '"' :: (s.toList.flatMap escapeChar ++ ['"']) := by
  simp [quoted]

theorem run_label_escapeChar (read : List Char) (c : Char) :
    run (.label read) (escapeChar c) = ([], .label (read ++ [c])) := by
  by_cases hbackslash : c = '\\'
  · subst hbackslash
    rfl
  · by_cases hquote : c = '"'
    · subst hquote
      rfl
    · rw [escapeChar.eq_3 c hbackslash hquote]
      simp [step, hbackslash, hquote]

theorem run_label_escaped (read text : List Char) :
    run (.label read) (text.flatMap escapeChar) = ([], .label (read ++ text)) := by
  induction text generalizing read with
  | nil => simp
  | cons c text ih => simp [run_append, run_label_escapeChar, ih]

/-- Reading a quoted text gives the text, and goes on behind the closing quote. -/
theorem run_quoted (s : String) (cs : List Char) :
    run .between ((quoted s).toList ++ cs) =
      (.label s :: (run .between cs).1, (run .between cs).2) := by
  have hopen : step .between '"' = ([], .label []) := rfl
  have hclose : step (.label s.toList) '"' = ([.label s], .between) := by simp [step]
  simp [toList_quoted, hopen, run_append, run_label_escaped, hclose]

/-! ### Pieces of a text -/

/-- The text is read as these lexemes, and nothing is left open. -/
def Reads (cs : List Char) (ls : List Lexeme) : Prop := ComesBack step .between cs ls

instance (cs : List Char) (ls : List Lexeme) : Decidable (Reads cs ls) :=
  inferInstanceAs (Decidable (feed step .between cs = (ls, .between)))

variable {cs ds : List Char} {ls ms : List Lexeme}

theorem Reads.append (h : Reads cs ls) (h' : Reads ds ms) : Reads (cs ++ ds) (ls ++ ms) :=
  ComesBack.append h h'

theorem Reads.quoted (s : String) (h : Reads ds ms) :
    Reads ((quoted s).toList ++ ds) (.label s :: ms) := by
  have hrest : run .between ds = (ms, .between) := h
  have hquoted := run_quoted s ds
  rw [hrest] at hquoted
  exact hquoted

/-- The text goes on, and not with a word. -/
def ends : List Char → Bool
  | [] => false
  | c :: _ => !isWordChar c

theorem run_word {w : List Char} (hw : ∀ c ∈ w, isWordChar c = true) (read : List Char) :
    run (.word read) w = ([], .word (read ++ w)) := by
  induction w generalizing read with
  | nil => simp
  | cons c w ih =>
    obtain ⟨hc, hw⟩ := List.forall_mem_cons.1 hw
    simp [step, hc, ih hw]

theorem step_between_word {c : Char} (h : isWordChar c = true) :
    step .between c = ([], .word [c]) := by
  have hquote : c ≠ '"' := by
    rintro rfl
    cases h
  simp [step, enter, hquote, h]

/-- Words are read up to their ends. -/
theorem Reads.word {s : String} (hs : s ≠ "") (hw : ∀ c ∈ s.toList, isWordChar c = true)
    (hends : ends ds = true) (h : Reads ds ms) : Reads (s.toList ++ ds) (.word s :: ms) := by
  obtain ⟨c, w, hcons⟩ := List.exists_cons_of_ne_nil (mt String.toList_eq_nil_iff.1 hs)
  obtain ⟨d, ds, rfl⟩ : ∃ d ds', ds = d :: ds' := by
    cases ds with
    | nil => cases hends
    | cons d ds => exact ⟨d, ds, rfl⟩
  have hd : isWordChar d = false := by simpa [ends] using hends
  have hall : run .between s.toList = ([], .word s.toList) := by
    rw [hcons] at hw ⊢
    obtain ⟨hc, hw⟩ := List.forall_mem_cons.1 hw
    simp [step_between_word hc, run_word hw]
  have hstep : step (.word s.toList) d = (.word s :: (enter d).1, (enter d).2) := by
    simp [step, hd]
  have hrest : run .between (d :: ds) = (ms, .between) := h
  rw [run_cons, step] at hrest
  obtain ⟨hms, hlast⟩ := Prod.mk.inj hrest
  show run .between (s.toList ++ d :: ds) = (.word s :: ms, .between)
  simp [run_append, hall, hstep, hms, hlast]

end ChartParsing.Graphviz
