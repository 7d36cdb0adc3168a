/-
ChartParsing/Proofs/Source/Lexeme.lean

Tokens by their written forms, and what lexing a text means.

`IsLexeme` lists the written forms of each token.  At a place where some form
fits, the token is the one with the longest form that does (`Longest`), and
that is what `scan` finds (`scan_eq_some_iff`, `scan_eq_none_iff`).  `Lexes`
goes on from there to a whole text, with the bytes that each token takes up;
it leaves no choice, and `lex` computes it (`lexes_iff`).
-/
import ChartParsing.Source.Token

namespace ChartParsing.Source

/-! ### Written forms -/

/-- The token has this written form. -/
inductive IsLexeme : Token → List Char → Prop
  | plus : IsLexeme .plus ['+']
  | comma : IsLexeme .comma [',']
  | minus : IsLexeme .minus ['-']
  | arrow : IsLexeme .arrow ['-', '>']
  | equals : IsLexeme .equals ['=']
  | openBracket : IsLexeme .openBracket ['[']
  | closeBracket : IsLexeme .closeBracket [']']
  | bar : IsLexeme .bar ['|']
  /-- Letters, digits and underscores. -/
  | name {word} : word ≠ [] → (∀ c ∈ word, isWordChar c = true) →
      IsLexeme (.name (String.ofList word)) word
  /-- A question mark, and a word that does not begin with a digit. -/
  | var {c cs} : isVarStart c = true → (∀ d ∈ cs, isWordChar d = true) →
      IsLexeme (.var (String.ofList (c :: cs))) ('?' :: c :: cs)
  /-- A text without the quote that stands on both sides of it. -/
  | quoted {q text} : q = '\'' ∨ q = '"' → q ∉ text →
      IsLexeme (.quoted (String.ofList text)) (q :: text ++ [q])

/-- A written form of the token is at the front of the text, and no form of any
token that is there is longer. -/
structure Longest (cs : List Char) (t : Token) (lexeme rest : List Char) : Prop where
  eq_append : cs = lexeme ++ rest
  isLexeme : IsLexeme t lexeme
  length_le : ∀ t' lexeme' rest', cs = lexeme' ++ rest' → IsLexeme t' lexeme' →
    lexeme'.length ≤ lexeme.length

/-! ### Characters -/

theorem isBlank_eq_false_of_isWordChar {c : Char} (h : isWordChar c = true) :
    Text.isBlank c = false := by
  have h : (decide ('A'.val ≤ c.val ∧ c.val ≤ 'Z'.val) ||
      (decide ('a'.val ≤ c.val) && decide (c.val ≤ 'z'.val)) ||
      (decide ('0'.val ≤ c.val) && decide (c.val ≤ '9'.val)) || c == '_') = true := h
  simp only [Bool.or_eq_true, Bool.and_eq_true, decide_eq_true_eq, beq_iff_eq,
    UInt32.le_iff_toNat_le] at h
  have hval : c.toNat = c.val.toNat := rfl
  rcases h with h | rfl
  · have hZ : 'Z'.val.toNat = 90 := rfl
    have hz : 'z'.val.toNat = 122 := rfl
    have hA : 'A'.val.toNat = 65 := rfl
    have ha : 'a'.val.toNat = 97 := rfl
    have h0 : '0'.val.toNat = 48 := rfl
    have h9 : '9'.val.toNat = 57 := rfl
    simp only [Text.isBlank, Bool.or_eq_false_iff, Bool.and_eq_false_iff, decide_eq_false_iff_not,
      beq_eq_false_iff_ne]
    omega
  · decide

/-- No token begins with a blank. -/
theorem isBlank_eq_false_of_scan {c : Char} {cs : List Char} {r : Token × List Char × List Char}
    (h : scan (c :: cs) = some r) : Text.isBlank c = false := by
  unfold scan at h
  split at h
  case h_11 d ds _ _ _ _ _ _ _ _ _ heq =>
    obtain rfl : c = d := (List.cons.inj heq).1
    split at h
    · rename_i hquote
      rcases hquote with rfl | rfl <;> decide
    · split at h
      · rename_i hword
        exact isBlank_eq_false_of_isWordChar hword
      · cases h
  case h_1 heq => cases heq
  -- every other token has a first character of its own
  all_goals
    rename_i heq
    cases heq
    decide

/-! ### What is found at the front -/

theorem not_mem_of_untilQuote {q : Char} {cs text rest : List Char}
    (h : untilQuote q cs = some (text, rest)) : q ∉ text := by
  induction cs generalizing text with
  | nil => cases h
  | cons c cs ih =>
    rw [untilQuote] at h
    split at h
    · cases h
      exact List.not_mem_nil
    · rename_i hc
      obtain ⟨⟨text', rest'⟩, hp, heq⟩ := Option.map_eq_some_iff.1 h
      cases heq
      rw [List.mem_cons, not_or]
      exact ⟨Ne.symm hc, ih hp⟩

theorem untilQuote_append {q : Char} {text : List Char} (h : q ∉ text) (rest : List Char) :
    untilQuote q (text ++ q :: rest) = some (text, rest) := by
  induction text with
  | nil => simp [untilQuote]
  | cons c cs ih =>
    rw [List.mem_cons, not_or] at h
    simp [untilQuote, ih h.2, Ne.symm h.1]

theorem mem_takeWhile_isWordChar {cs : List Char} :
    ∀ c ∈ cs.takeWhile isWordChar, isWordChar c = true :=
  List.all_eq_true.1 List.all_takeWhile

/-- What is found is a written form of the token. -/
theorem isLexeme_of_scan {cs lexeme rest : List Char} {t : Token}
    (h : scan cs = some (t, lexeme, rest)) : IsLexeme t lexeme := by
  unfold scan at h
  split at h
  case h_1 => cases h
  case h_10 c cs =>
    split at h
    · rename_i hstart
      cases h
      exact .var hstart mem_takeWhile_isWordChar
    · cases h
  case h_11 c cs _ _ _ _ _ _ _ _ _ =>
    split at h
    · rename_i hquote
      obtain ⟨⟨text, rest'⟩, hp, heq⟩ := Option.map_eq_some_iff.1 h
      cases heq
      exact .quoted hquote (not_mem_of_untilQuote hp)
    · split at h
      · rename_i hword
        cases h
        exact .name (List.cons_ne_nil _ _)
          (List.forall_mem_cons.2 ⟨hword, mem_takeWhile_isWordChar⟩)
      · cases h
  -- the signs
  all_goals
    cases h
    constructor

theorem scan_cons_of_isWordChar {c : Char} (h : isWordChar c = true) (cs : List Char) :
    scan (c :: cs) = some (.name (String.ofList (c :: cs.takeWhile isWordChar)),
      c :: cs.takeWhile isWordChar, cs.dropWhile isWordChar) := by
  unfold scan
  split
  case h_11 d ds _ _ _ _ _ _ _ _ _ heq =>
    obtain ⟨rfl, rfl⟩ := List.cons.inj heq
    rw [if_neg, if_pos h]
    rintro (rfl | rfl) <;> revert h <;> decide
  case h_1 heq => cases heq
  -- no sign is a word character
  all_goals
    rename_i heq
    cases heq
    exact absurd h (by decide)

theorem scan_quoted {q : Char} (hq : q = '\'' ∨ q = '"') {text : List Char} (h : q ∉ text)
    (rest : List Char) :
    scan (q :: text ++ [q] ++ rest) =
      some (.quoted (String.ofList text), q :: text ++ [q], rest) := by
  rcases hq with rfl | rfl <;> simp [scan, untilQuote_append h]

/-- Where a written form is, what is found is that form or a longer one. -/
theorem IsLexeme.exists_scan {t : Token} {lexeme : List Char} (h : IsLexeme t lexeme)
    (rest : List Char) :
    ∃ t' more rest', scan (lexeme ++ rest) = some (t', lexeme ++ more, rest') ∧
      (more = [] → t' = t) := by
  cases h with
  | minus =>
    -- it may be the beginning of an arrow
    cases rest with
    | nil => exact ⟨.minus, [], [], rfl, fun _ => rfl⟩
    | cons c rest =>
      by_cases hc : c = '>'
      · rw [hc]
        exact ⟨.arrow, ['>'], rest, rfl, fun h => nomatch h⟩
      · exact ⟨.minus, [], c :: rest, by simp [scan, hc], fun _ => rfl⟩
  | @name word hne hword =>
    obtain ⟨c, cs, rfl⟩ := List.exists_cons_of_ne_nil hne
    obtain ⟨hc, hcs⟩ := List.forall_mem_cons.1 hword
    refine ⟨.name (String.ofList (c :: (cs ++ rest.takeWhile isWordChar))),
      rest.takeWhile isWordChar, (cs ++ rest).dropWhile isWordChar, ?_, fun hmore => ?_⟩
    · rw [List.cons_append, scan_cons_of_isWordChar hc, List.takeWhile_append_of_pos hcs]
      rfl
    · rw [hmore, List.append_nil]
  | @var c cs hc hcs =>
    refine ⟨.var (String.ofList (c :: (cs ++ rest.takeWhile isWordChar))),
      rest.takeWhile isWordChar, (cs ++ rest).dropWhile isWordChar, ?_, fun hmore => ?_⟩
    · show scan ('?' :: c :: (cs ++ rest)) = _
      rw [scan, if_pos hc, List.takeWhile_append_of_pos hcs]
      rfl
    · rw [hmore, List.append_nil]
  | @quoted q text hq htext =>
    refine ⟨_, [], rest, ?_, fun _ => rfl⟩
    rw [List.append_nil]
    exact scan_quoted hq htext rest
  | _ => exact ⟨_, [], rest, rfl, fun _ => rfl⟩

theorem longest_of_scan {cs lexeme rest : List Char} {t : Token}
    (h : scan cs = some (t, lexeme, rest)) : Longest cs t lexeme rest where
  eq_append := (eq_append_of_scan h).1
  isLexeme := isLexeme_of_scan h
  length_le := by
    rintro t' lexeme' rest' rfl h'
    obtain ⟨_, more, _, hscan, -⟩ := h'.exists_scan rest'
    obtain ⟨-, rfl, -⟩ : _ ∧ lexeme' ++ more = lexeme ∧ _ := by simpa [hscan] using h
    rw [List.length_append]
    exact Nat.le_add_right _ _

/-- What is found is the longest written form at the front. -/
theorem scan_eq_some_iff {cs lexeme rest : List Char} {t : Token} :
    scan cs = some (t, lexeme, rest) ↔ Longest cs t lexeme rest := by
  refine ⟨longest_of_scan, fun h => ?_⟩
  obtain ⟨t', more, rest', hscan, ht⟩ := h.isLexeme.exists_scan rest
  rw [← h.eq_append] at hscan
  have hlonger := h.length_le _ _ _ (eq_append_of_scan hscan).1 (isLexeme_of_scan hscan)
  rw [List.length_append] at hlonger
  obtain rfl : more = [] := List.eq_nil_of_length_eq_zero (by omega)
  obtain rfl : rest' = rest := by
    have heq := (eq_append_of_scan hscan).1.symm.trans h.eq_append
    rw [List.append_nil] at heq
    exact List.append_cancel_left heq
  rw [hscan, ht rfl, List.append_nil]

/-- Nothing is found if no written form is at the front. -/
theorem scan_eq_none_iff {cs : List Char} :
    scan cs = none ↔ ∀ t lexeme rest, cs = lexeme ++ rest → ¬ IsLexeme t lexeme := by
  constructor
  · rintro hnone t lexeme rest rfl h
    obtain ⟨_, _, _, hscan, -⟩ := h.exists_scan rest
    rw [hnone] at hscan
    cases hscan
  · intro h
    cases hscan : scan cs with
    | none => rfl
    | some r =>
      obtain ⟨t, lexeme, rest⟩ := r
      exact absurd (isLexeme_of_scan hscan) (h t lexeme rest (eq_append_of_scan hscan).1)

/-! ### Whole texts -/

/-- The tokens of a text that begins at byte `offset`, and the place where it
goes on without one: blanks are passed over, and anywhere else the longest
written form is the next token. -/
inductive Lexes : (offset : Nat) → List Char → List Located → Option Nat → Prop
  | finished {offset} : Lexes offset [] [] none
  | blank {offset c cs ts invalidAt} : Text.isBlank c = true →
      Lexes (offset + c.utf8Size) cs ts invalidAt → Lexes offset (c :: cs) ts invalidAt
  | token {offset cs t lexeme rest ts invalidAt} : Longest cs t lexeme rest →
      Lexes (offset + byteLength lexeme) rest ts invalidAt →
      Lexes offset cs (⟨t, lexeme, offset, offset + byteLength lexeme⟩ :: ts) invalidAt
  | stuck {offset c cs} : Text.isBlank c = false →
      (∀ t lexeme rest, c :: cs = lexeme ++ rest → ¬ IsLexeme t lexeme) →
      Lexes offset (c :: cs) [] (some offset)

/-- Blanks only move on the place where the next token is looked for. -/
theorem lexFrom_blank {c : Char} (h : Text.isBlank c = true) (limit offset : Nat)
    (cs : List Char) : lexFrom limit offset (c :: cs) = lexFrom limit (offset + c.utf8Size) cs := by
  cases limit with
  | zero => rfl
  | succ limit =>
    have hlength : offset + byteLength (c :: cs.takeWhile Text.isBlank) =
        offset + c.utf8Size + byteLength (cs.takeWhile Text.isBlank) := (Nat.add_assoc _ _ _).symm
    rw [lexFrom, lexFrom, List.takeWhile_cons_of_pos h, List.dropWhile_cons_of_pos h, hlength]

/-- Where there is no blank, the next token is scanned, and lexing goes on behind it. -/
theorem lexFrom_of_scan {c : Char} {cs lexeme rest : List Char} {t : Token}
    (h : scan (c :: cs) = some (t, lexeme, rest)) (limit offset : Nat) :
    lexFrom (limit + 1) offset (c :: cs) =
      { lexFrom limit (offset + byteLength lexeme) rest with
        tokens := ⟨t, lexeme, offset, offset + byteLength lexeme⟩ ::
          (lexFrom limit (offset + byteLength lexeme) rest).tokens } := by
  have hc : ¬ Text.isBlank c = true := by simp [isBlank_eq_false_of_scan h]
  have hstart : offset + byteLength [] = offset := rfl
  rw [lexFrom, List.takeWhile_cons_of_neg hc, List.dropWhile_cons_of_neg hc]
  simp only [h, hstart]

/-- Lexing stops where there is neither a blank nor a token. -/
theorem lexFrom_of_scan_eq_none {c : Char} {cs : List Char} (hblank : Text.isBlank c = false)
    (h : scan (c :: cs) = none) (limit offset : Nat) :
    lexFrom (limit + 1) offset (c :: cs) = ⟨[], some offset⟩ := by
  have hc : ¬ Text.isBlank c = true := by simp [hblank]
  have hstart : offset + byteLength [] = offset := rfl
  rw [lexFrom, List.takeWhile_cons_of_neg hc, List.dropWhile_cons_of_neg hc]
  simp only [h, hstart]

theorem Lexes.lexFrom_eq {offset limit : Nat} {cs : List Char} {ts : List Located}
    {invalidAt : Option Nat} (h : Lexes offset cs ts invalidAt) (hlimit : cs.length < limit) :
    lexFrom limit offset cs = ⟨ts, invalidAt⟩ := by
  obtain ⟨limit, rfl⟩ := Nat.exists_eq_add_of_lt hlimit
  clear hlimit
  induction h generalizing limit with
  | finished => rfl
  | @blank offset c cs ts invalidAt hc _ ih =>
    rw [lexFrom_blank hc]
    have hlength : (c :: cs).length + limit + 1 = cs.length + (limit + 1) + 1 := by
      rw [List.length_cons]
      omega
    rw [hlength]
    exact ih (limit + 1)
  | @token offset cs t lexeme rest ts invalidAt hlongest _ ih =>
    have hscan := scan_eq_some_iff.2 hlongest
    obtain ⟨heq, hne⟩ := eq_append_of_scan hscan
    cases cs with
    | nil => cases hscan
    | cons c cs =>
      -- the rest is shorter than the text
      obtain ⟨spare, hspare⟩ : ∃ spare, (c :: cs).length + limit = rest.length + spare + 1 := by
        have hpos := List.length_pos_iff.2 hne
        refine ⟨lexeme.length + limit - 1, ?_⟩
        rw [heq, List.length_append]
        omega
      rw [lexFrom_of_scan hscan, hspare, ih spare]
  | stuck hblank hnone => exact lexFrom_of_scan_eq_none hblank (scan_eq_none_iff.2 hnone) _ _

theorem lexes_lexFrom {limit : Nat} (offset : Nat) {cs : List Char} (hlimit : cs.length < limit) :
    Lexes offset cs (lexFrom limit offset cs).tokens (lexFrom limit offset cs).invalidAt := by
  induction hn : cs.length using Nat.strongRecOn generalizing limit offset cs with
  | _ n ih =>
    obtain ⟨limit, rfl⟩ := Nat.exists_eq_add_of_lt hlimit
    cases cs with
    | nil => exact .finished
    | cons c cs =>
      cases hblank : Text.isBlank c with
      | true =>
        rw [lexFrom_blank hblank]
        exact .blank hblank (ih cs.length (hn ▸ Nat.lt_succ_self _) _
          (Nat.lt_of_succ_lt hlimit) rfl)
      | false =>
        cases hscan : scan (c :: cs) with
        | none =>
          rw [lexFrom_of_scan_eq_none hblank hscan]
          exact .stuck hblank (scan_eq_none_iff.1 hscan)
        | some r =>
          obtain ⟨t, lexeme, rest⟩ := r
          rw [lexFrom_of_scan hscan]
          obtain ⟨heq, hne⟩ := eq_append_of_scan hscan
          have hshorter : rest.length < (c :: cs).length := by
            have hpos := List.length_pos_iff.2 hne
            rw [heq, List.length_append]
            omega
          exact .token (longest_of_scan hscan) (ih rest.length (hn ▸ hshorter) _
            (Nat.lt_of_lt_of_le hshorter (Nat.le_add_right _ _)) rfl)

/-- Lexing is determined by the written forms of the tokens. -/
theorem lexes_iff {cs : List Char} {ts : List Located} {invalidAt : Option Nat} :
    Lexes 0 cs ts invalidAt ↔ lex cs = ⟨ts, invalidAt⟩ := by
  constructor
  · exact fun h => h.lexFrom_eq (Nat.lt_succ_self _)
  · intro h
    have hlexes := lexes_lexFrom 0 (Nat.lt_succ_self cs.length)
    rw [show lexFrom (cs.length + 1) 0 cs = ⟨ts, invalidAt⟩ from h] at hlexes
    exact hlexes

end ChartParsing.Source
