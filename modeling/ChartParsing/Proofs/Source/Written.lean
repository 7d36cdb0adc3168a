/-
ChartParsing/Proofs/Source/Written.lean

The written form of symbols and lines, and the tokens in it.

A symbol has one written form, in which its texts stand as they are.  So they
must be such as can stand there (`WrittenSymbol.Spelled`): words for names,
and between single quotes anything but a single quote or a line end, also signs
that mean something elsewhere on a line.

From piece to piece, a written form stays on its line, no comment begins in it,
and it is read as the tokens that it was written for (`Prints`).
-/
import ChartParsing.Proofs.Source.Layout
import ChartParsing.Proofs.Source.Lexing

namespace ChartParsing

/-! ### Texts that can be written down -/

/-- A word: letters, digits and underscores, and at least one of them. -/
def IsWord (s : String) : Prop :=
  s.toList ≠ [] ∧ ∀ c ∈ s.toList, Source.isWordChar c = true

/-- A word that does not begin with a digit. -/
def IsVariable (s : String) : Prop :=
  s.toList.head?.any Source.isVarStart = true ∧ ∀ c ∈ s.toList.tail, Source.isWordChar c = true

/-- A text that can stand between single quotes on a line. -/
def Quotable (s : String) : Prop := '\'' ∉ s.toList ∧ '\n' ∉ s.toList

instance (s : String) : Decidable (IsWord s) :=
  @instDecidableAnd _ _ inferInstance (List.decidableBAll _ _)

instance (s : String) : Decidable (IsVariable s) :=
  @instDecidableAnd _ _ inferInstance (List.decidableBAll _ _)

instance (s : String) : Decidable (Quotable s) := inferInstanceAs (Decidable (_ ∧ _))

/-- The text of the value can be written down. -/
def FeatureValue.Spelled : FeatureValue → Prop
  | atom a => Quotable a
  | var x => IsVariable x

instance : (v : FeatureValue) → Decidable v.Spelled
  | .atom a => inferInstanceAs (Decidable (Quotable a))
  | .var x => inferInstanceAs (Decidable (IsVariable x))

namespace Source

/-! ### Written forms and their tokens -/

/-- The token of a value in its written form. -/
def valueToken : FeatureValue → Token
  | .atom a => .quoted a
  | .var x => .var x

/-- The tokens of a feature and its value. -/
def entryTokens : String × FeatureValue → List Token
  | (f, .atom "+") => [.plus, .name f]
  | (f, .atom "-") => [.minus, .name f]
  | (f, v) => [.name f, .equals, valueToken v]

/-- A feature with a sign for its value is written with the sign before it, and
any other with the value behind it. -/
theorem entry_cases (f : String) (v : FeatureValue) :
    (v = .atom "+" ∧ FeatureMap.entryText (f, v) = "+" ++ f ∧
      entryTokens (f, v) = [.plus, .name f]) ∨
    (v = .atom "-" ∧ FeatureMap.entryText (f, v) = "-" ++ f ∧
      entryTokens (f, v) = [.minus, .name f]) ∨
    (FeatureMap.entryText (f, v) = f ++ "=" ++ v.text ∧
      entryTokens (f, v) = [.name f, .equals, valueToken v]) := by
  by_cases hplus : v = .atom "+"
  · subst hplus
    exact .inl ⟨rfl, rfl, rfl⟩
  by_cases hminus : v = .atom "-"
  · subst hminus
    exact .inr (.inl ⟨rfl, rfl, rfl⟩)
  · refine .inr (.inr ⟨?_, ?_⟩)
    · unfold FeatureMap.entryText
      split <;> simp_all
    · unfold entryTokens
      split <;> simp_all

namespace WrittenSymbol

/-- All texts in the symbol can be written down. -/
def Spelled : WrittenSymbol → Prop
  | terminal t => Quotable t
  | category n features => IsWord n ∧ ∀ p ∈ features, IsWord p.1 ∧ p.2.Spelled

instance : (w : WrittenSymbol) → Decidable w.Spelled
  | terminal t => inferInstanceAs (Decidable (Quotable t))
  | category _ _ => inferInstanceAs (Decidable (_ ∧ _))

/-- A terminal in single quotes, or a name with its features in brackets. -/
def text : WrittenSymbol → String
  | terminal t => "'" ++ t ++ "'"
  | category n features =>
    n ++ if features.isEmpty then ""
      else "[" ++ ", ".intercalate (features.map FeatureMap.entryText) ++ "]"

/-- The tokens of the written form. -/
def tokens : WrittenSymbol → List Token
  | terminal t => [.quoted t]
  | category n features =>
    .name n :: if features.isEmpty then []
      else .openBracket :: ([.comma].intercalate (features.map entryTokens) ++ [.closeBracket])

end WrittenSymbol

/-! ### Pieces -/

/-- A piece of a line that is read as the tokens, all of it. -/
structure Prints (piece : List Char) (ts : List Token) : Prop where
  spells : Spells piece ts
  inline : Inline piece

theorem isWordChar_of_isVarStart {c : Char} (h : isVarStart c = true) : isWordChar c = true := by
  simp only [isVarStart, isWordChar, Char.isAlphanum, Bool.or_eq_true] at h ⊢
  exact h.imp_left .inl

/-- A word character is neither a line end nor a quote nor the beginning of a comment. -/
theorem inline_word {word : List Char} (h : ∀ c ∈ word, isWordChar c = true) : Inline word := by
  refine .of_forall fun c hc => ?_
  have hne : ∀ d, isWordChar d = false → c ≠ d := by
    rintro d hd rfl
    simp [h c hc] at hd
  exact ⟨hne _ rfl, hne _ rfl, hne _ rfl, hne _ rfl⟩

theorem prints_word {s : String} (h : IsWord s) : Prints s.toList [.name s] where
  spells := by simpa using spells_word h.1 h.2
  inline := inline_word h.2

theorem prints_quoted {s : String} (h : Quotable s) :
    Prints ('\'' :: s.toList ++ ['\'']) [.quoted s] where
  spells := by simpa using spells_quoted h.1
  inline := .quoted h.1 h.2

theorem prints_var {s : String} (h : IsVariable s) : Prints ('?' :: s.toList) [.var s] := by
  obtain ⟨hfirst, hcs⟩ := h
  obtain ⟨c, hc, hstart⟩ := (Option.any_eq_true _ _).1 hfirst
  obtain ⟨cs, heq⟩ := List.head?_eq_some_iff.1 hc
  rw [heq, List.tail_cons] at hcs
  have hword : ∀ d ∈ s.toList, isWordChar d = true := by
    rw [heq]
    exact List.forall_mem_cons.2 ⟨isWordChar_of_isVarStart hstart, hcs⟩
  refine ⟨?_, .cons (by decide) (inline_word hword)⟩
  have hspells := spells_var hstart hcs
  rwa [← heq, String.ofList_toList] at hspells

namespace Prints

variable {piece piece' : List Char} {ts us : List Token}

theorem nil : Prints [] [] := ⟨spells_nil, .nil⟩

theorem append (h : Prints piece ts) (h' : Prints piece' us) (hends : Ends piece') :
    Prints (piece ++ piece') (ts ++ us) :=
  ⟨h.spells.append h'.spells hends, h.inline.append h'.inline⟩

/-- A sign that is a token by itself, whatever follows. -/
theorem sign {c : Char} {t : Token} (hc : c ≠ '\n' ∧ c ≠ '#' ∧ c ≠ '\'' ∧ c ≠ '"')
    (hscan : ∀ rest, scan (c :: rest) = some (t, [c], rest)) (h : Prints piece ts) :
    Prints (c :: piece) (t :: ts) :=
  ⟨Spells.token [c] (fun rest _ => hscan (piece ++ rest)) h.spells, h.inline.cons hc⟩

theorem blank (h : Prints piece ts) : Prints (' ' :: piece) ts :=
  ⟨h.spells.blank rfl, h.inline.cons (by decide)⟩

end Prints

/-- A minus is no arrow before a word. -/
theorem prints_minus {s : String} (h : IsWord s) : Prints ('-' :: s.toList) [.minus, .name s] := by
  refine ⟨.token ['-'] (fun rest _ => ?_) (prints_word h).spells,
    (inline_word h.2).cons (by decide)⟩
  show scan ('-' :: (s.toList ++ rest)) = some (.minus, ['-'], s.toList ++ rest)
  obtain ⟨c, cs, heq⟩ := List.exists_cons_of_ne_nil h.1
  have hc : c ≠ '>' := by
    rintro rfl
    have hword := h.2 '>' (heq ▸ List.mem_cons_self)
    simp [isWordChar] at hword
  simp [heq, scan, hc]

/-! ### Symbols -/

theorem prints_value {v : FeatureValue} (h : v.Spelled) : Prints v.text.toList [valueToken v] := by
  cases v with
  | atom a =>
    rw [FeatureValue.text, String.toList_append, String.toList_append]
    exact prints_quoted h
  | var x =>
    rw [FeatureValue.text, String.toList_append]
    exact prints_var h

theorem prints_entry {f : String} {v : FeatureValue} (hf : IsWord f) (hv : v.Spelled) :
    Prints (FeatureMap.entryText (f, v)).toList (entryTokens (f, v)) := by
  rcases entry_cases f v with ⟨-, htext, htokens⟩ | ⟨-, htext, htokens⟩ | ⟨htext, htokens⟩ <;>
    rw [htext, htokens]
  · rw [String.toList_append]
    exact (prints_word hf).sign (by decide) fun _ => rfl
  · rw [String.toList_append]
    exact prints_minus hf
  · rw [String.toList_append, String.toList_append, List.append_assoc]
    exact (prints_word hf).append ((prints_value hv).sign (by decide) fun _ => rfl)
      (ends_cons rfl _)

/-- Features with commas between them. -/
theorem prints_entries {features : List (String × FeatureValue)}
    (h : ∀ p ∈ features, IsWord p.1 ∧ p.2.Spelled) :
    Prints ([',', ' '].intercalate (features.map fun p => (FeatureMap.entryText p).toList))
      ([.comma].intercalate (features.map entryTokens)) := by
  induction features with
  | nil => exact .nil
  | cons p ps ih =>
    obtain ⟨hp, hps⟩ := List.forall_mem_cons.1 h
    have hfirst := prints_entry hp.1 hp.2
    cases ps with
    | nil =>
      rw [List.map_singleton, List.map_singleton, List.intercalate_singleton,
        List.intercalate_singleton]
      exact hfirst
    | cons q qs =>
      rw [List.map_cons, List.map_cons, List.map_cons, List.map_cons, List.intercalate_cons_cons,
        List.intercalate_cons_cons, List.append_assoc, List.append_assoc]
      exact hfirst.append ((ih hps).blank.sign (by decide) fun _ => rfl) (ends_cons rfl _)

theorem prints_symbol {w : WrittenSymbol} (h : w.Spelled) : Prints w.text.toList w.tokens := by
  cases w with
  | terminal t =>
    rw [WrittenSymbol.text, String.toList_append, String.toList_append]
    exact prints_quoted h
  | category n features =>
    obtain ⟨hn, hfeatures⟩ := h
    rw [WrittenSymbol.text, WrittenSymbol.tokens, String.toList_append]
    split
    · simpa using prints_word hn
    · rw [String.toList_append, String.toList_append, String.toList_intercalate, List.map_map,
        List.append_assoc]
      have hclose : Prints [']'] [.closeBracket] := Prints.nil.sign (by decide) fun _ => rfl
      exact (prints_word hn).append
        (((prints_entries hfeatures).append hclose (ends_cons rfl _)).sign (by decide) fun _ => rfl)
        (ends_cons rfl _)

/-! ### Lines -/

/-- The written form of a production. -/
def productionText (lhs : WrittenSymbol) (rhs : List WrittenSymbol) : List Char :=
  lhs.text.toList ++ ' ' :: '-' :: '>' :: rhs.flatMap fun w => ' ' :: w.text.toList

theorem ends_symbols (ws : List WrittenSymbol) :
    Ends (ws.flatMap fun w => ' ' :: w.text.toList) := by
  cases ws with
  | nil => exact ends_nil
  | cons w ws => exact ends_cons rfl _

theorem prints_symbols {ws : List WrittenSymbol} (h : ∀ w ∈ ws, w.Spelled) :
    Prints (ws.flatMap fun w => ' ' :: w.text.toList) (ws.flatMap WrittenSymbol.tokens) := by
  induction ws with
  | nil => exact .nil
  | cons w ws ih =>
    obtain ⟨hw, hws⟩ := List.forall_mem_cons.1 h
    exact (prints_symbol hw).blank.append (ih hws) (ends_symbols ws)

theorem prints_production {lhs : WrittenSymbol} {rhs : List WrittenSymbol} (hlhs : lhs.Spelled)
    (hrhs : ∀ w ∈ rhs, w.Spelled) :
    Prints (productionText lhs rhs) (lhs.tokens ++ .arrow :: rhs.flatMap WrittenSymbol.tokens) := by
  refine (prints_symbol hlhs).append ?_ (ends_cons rfl _)
  have hsymbols := prints_symbols hrhs
  refine Prints.blank ⟨Spells.token ['-', '>'] (fun _ _ => rfl) hsymbols.spells, ?_⟩
  exact (hsymbols.inline.cons (by decide)).cons (by decide)

/-! ### First and last characters -/

theorem trimmed_word {word : List Char} (hne : word ≠ [])
    (h : ∀ c ∈ word, isWordChar c = true) : Trimmed word where
  first := ⟨word.head hne, List.head?_eq_some_head hne,
    isBlank_eq_false_of_isWordChar (h _ (List.head_mem hne))⟩
  last := ⟨word.getLast hne, List.getLast?_eq_some_getLast hne,
    isBlank_eq_false_of_isWordChar (h _ (List.getLast_mem hne))⟩

theorem Trimmed.append {cs ds : List Char} (h : Trimmed cs) (h' : Trimmed ds)
    (between : List Char) : Trimmed (cs ++ between ++ ds) where
  first := by
    obtain ⟨c, hc, hblank⟩ := h.first
    exact ⟨c, by simp [List.head?_append, hc], hblank⟩
  last := by
    obtain ⟨c, hc, hblank⟩ := h'.last
    exact ⟨c, by rw [List.getLast?_append, hc]; rfl, hblank⟩

theorem trimmed_singleton {c : Char} (h : Text.isBlank c = false) : Trimmed [c] :=
  ⟨⟨c, rfl, h⟩, ⟨c, rfl, h⟩⟩

theorem trimmed_text {w : WrittenSymbol} (h : w.Spelled) : Trimmed w.text.toList := by
  cases w with
  | terminal t =>
    rw [WrittenSymbol.text, String.toList_append, String.toList_append]
    exact (trimmed_singleton rfl).append (trimmed_singleton rfl) t.toList
  | category n features =>
    have hn := trimmed_word h.1.1 h.1.2
    rw [WrittenSymbol.text]
    split
    · simpa using hn
    · rw [String.toList_append, String.toList_append, ← List.append_assoc]
      exact hn.append (trimmed_singleton rfl) _

/-- A symbol does not begin like a directive. -/
theorem head?_text_ne {w : WrittenSymbol} (h : w.Spelled) : w.text.toList.head? ≠ some '%' := by
  cases w with
  | terminal t => simp [WrittenSymbol.text]
  | category n features =>
    obtain ⟨c, cs, heq⟩ := List.exists_cons_of_ne_nil h.1.1
    have hc : isWordChar c = true := h.1.2 c (heq ▸ List.mem_cons_self)
    rw [WrittenSymbol.text, String.toList_append, heq]
    rintro hhead
    obtain rfl : c = '%' := Option.some.inj hhead
    revert hc
    decide

theorem trimmed_production {lhs : WrittenSymbol} {rhs : List WrittenSymbol} (hlhs : lhs.Spelled)
    (hrhs : ∀ w ∈ rhs, w.Spelled) : Trimmed (productionText lhs rhs) := by
  have harrow : Trimmed (lhs.text.toList ++ [' ', '-'] ++ ['>']) :=
    (trimmed_text hlhs).append (trimmed_singleton rfl) _
  have hsymbols : ∀ {cs : List Char}, Trimmed cs →
      Trimmed (cs ++ rhs.flatMap fun w => ' ' :: w.text.toList) := by
    induction rhs with
    | nil => simp
    | cons w ws ih =>
      obtain ⟨hw, hws⟩ := List.forall_mem_cons.1 hrhs
      intro cs hcs
      have hnext := ih hws (hcs.append (trimmed_text hw) [' '])
      simpa using hnext
  simpa [productionText] using hsymbols harrow

/-- What stays on its line and ends with no blank is a line. -/
theorem isLine_of_trimmed {cs : List Char} (h : Trimmed cs) (hinline : Inline cs) :
    Text.IsLine cs where
  ne_nil := by
    rintro rfl
    obtain ⟨c, hc, -⟩ := h.first
    cases hc
  unbroken := hinline.unbroken
  last := by
    obtain ⟨c, hc, hblank⟩ := h.last
    rintro hlast
    obtain rfl : c = '\r' := Option.some.inj (hc.symm.trans hlast)
    revert hblank
    decide

end Source

end ChartParsing
