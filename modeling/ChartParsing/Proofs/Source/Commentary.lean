/-
ChartParsing/Proofs/Source/Commentary.lean

Lines with comments.

The quoted texts that a comment may not begin in are those that lexing finds,
so what can be read is closed (`closed_of_tells`), and nothing is taken from
it.  Blanks at the end of a line change neither its tokens (`lex_append_blanks`)
nor what it says (`tells_append_blanks_iff`).  So a line says what it did when a
comment has been put behind it (`tells_append_comment`).
-/
import ChartParsing.Proofs.Source.Loading

namespace ChartParsing.Source

/-! ### What is read is closed -/

theorem isBlank_plain {c : Char} (h : Text.isBlank c = true) : c ≠ '#' ∧ c ≠ '\'' ∧ c ≠ '"' := by
  refine ⟨?_, ?_, ?_⟩ <;> rintro rfl <;> revert h <;> decide

theorem isWordChar_plain {c : Char} (h : isWordChar c = true) : c ≠ '#' ∧ c ≠ '\'' ∧ c ≠ '"' := by
  refine ⟨?_, ?_, ?_⟩ <;> rintro rfl <;> revert h <;> decide

theorem closed_of_isBlank {cs : List Char} (h : ∀ c ∈ cs, Text.isBlank c = true) : Closed cs :=
  .of_forall fun c hc => isBlank_plain (h c hc)

theorem isVarStart_isWordChar {c : Char} (h : isVarStart c = true) : isWordChar c = true := by
  simp only [isVarStart, isWordChar, Char.isAlphanum, Bool.or_eq_true] at h ⊢
  exact h.imp_left .inl

theorem IsLexeme.closed {t : Token} {lexeme : List Char} (h : IsLexeme t lexeme) :
    Closed lexeme := by
  cases h with
  | name _ hword => exact .of_forall fun c hc => isWordChar_plain (hword c hc)
  | var hstart hword =>
    exact .cons (by decide) (.cons (isWordChar_plain (isVarStart_isWordChar hstart))
      (.of_forall fun c hc => isWordChar_plain (hword c hc)))
  | quoted hq htext => exact .quoted hq htext .nil
  | _ => exact .of_forall (by simp)

/-- Text that consists of tokens is closed. -/
theorem Lexes.closed {offset : Nat} {cs : List Char} {ts : List Located}
    (h : Lexes offset cs ts none) : Closed cs := by
  generalize hinvalid : (none : Option Nat) = invalidAt at h
  induction h with
  | finished => exact .nil
  | blank hc _ ih => exact .cons (isBlank_plain hc) (ih hinvalid)
  | token hlongest _ ih =>
    rw [hlongest.eq_append]
    exact hlongest.isLexeme.closed.append (ih hinvalid)
  | stuck => cases hinvalid

theorem Verdict.closed {α : Type} {Form : List Token → α → Prop} {cs : List Char} {a : α}
    (h : Verdict Form cs (.ok a)) : Closed cs := by
  cases h with
  | read hlexes _ => exact hlexes.closed

/-- What is before and behind a start symbol is closed. -/
theorem Directs.closed {line argument : List Char} (h : Directs line argument)
    (hargument : Closed argument) : Closed line := by
  have hname : Closed "%start".toList := .of_forall (by simp)
  cases h with
  | symbol hbefore _ hmiddle _ hafter =>
    exact (closed_of_isBlank hbefore).append (hname.append
      ((closed_of_isBlank hmiddle).append (hargument.append (closed_of_isBlank hafter))))
  | missing hbefore _ hmiddle =>
    exact (closed_of_isBlank hbefore).append (hname.append (closed_of_isBlank hmiddle))

/-- Nothing of a line that can be read is a comment. -/
theorem closed_of_tells {line : List Char} {statement? : Option Statement}
    (h : Tells line (.ok statement?)) : Closed line := by
  cases h with
  | nothing hall => exact closed_of_isBlank hall
  | start hdirects hverdict => exact hdirects.closed hverdict.closed
  | productions _ _ hverdict => exact hverdict.closed

/-! ### Blanks at the end -/

/-- No token ends with a blank. -/
theorem IsLexeme.isBlank_getLast? {t : Token} {lexeme : List Char} (h : IsLexeme t lexeme) :
    ∃ c, lexeme.getLast? = some c ∧ Text.isBlank c = false := by
  cases h with
  | @name word hne hword =>
    obtain ⟨c, hc⟩ := Option.isSome_iff_exists.1 (List.getLast?_isSome.2 hne)
    exact ⟨c, hc, isBlank_eq_false_of_isWordChar (hword c (List.mem_of_getLast? hc))⟩
  | @var c cs hstart hword =>
    have hall : ∀ d ∈ c :: cs, isWordChar d = true :=
      List.forall_mem_cons.2 ⟨isVarStart_isWordChar hstart, hword⟩
    obtain ⟨d, hd⟩ := Option.isSome_iff_exists.1 (List.getLast?_isSome.2 (List.cons_ne_nil c cs))
    refine ⟨d, ?_, isBlank_eq_false_of_isWordChar (hall d (List.mem_of_getLast? hd))⟩
    rw [List.getLast?_cons_cons, hd]
  | @quoted q text hq _ =>
    refine ⟨q, List.getLast?_concat, ?_⟩
    rcases hq with rfl | rfl <;> decide
  | _ => exact ⟨_, rfl, by decide⟩

variable {after : List Char}

/-- What is at the front of a text with blanks at its end, and does not end with
a blank, is there without them too. -/
theorem exists_eq_append_of_getLast? {front cs rest : List Char}
    (hlast : ∃ c, front.getLast? = some c ∧ Text.isBlank c = false)
    (hafter : ∀ c ∈ after, Text.isBlank c = true) (heq : cs ++ after = front ++ rest) :
    ∃ rest', cs = front ++ rest' ∧ rest = rest' ++ after := by
  obtain ⟨more, rfl, rfl⟩ | ⟨more, rfl, rfl⟩ := List.append_eq_append_iff.1 heq
  · -- the front would go on into the blanks
    cases more with
    | nil => exact ⟨[], by simp, by simp⟩
    | cons c ds =>
      obtain ⟨d, hd, hblank⟩ := hlast
      rw [List.getLast?_append_of_ne_nil _ (List.cons_ne_nil c ds)] at hd
      have hmem := List.mem_append_left rest (List.mem_of_getLast? hd)
      rw [hafter d hmem] at hblank
      cases hblank
  · exact ⟨more, rfl, rfl⟩

theorem Longest.append_blanks {t : Token} {cs lexeme rest : List Char}
    (h : Longest cs t lexeme rest) (hafter : ∀ c ∈ after, Text.isBlank c = true) :
    Longest (cs ++ after) t lexeme (rest ++ after) where
  eq_append := by rw [h.eq_append, List.append_assoc]
  isLexeme := h.isLexeme
  length_le := by
    intro t' lexeme' rest' heq h'
    obtain ⟨rest'', hcs, -⟩ := exists_eq_append_of_getLast? h'.isBlank_getLast? hafter heq
    exact h.length_le t' lexeme' rest'' hcs h'

/-- Blanks at the end make no difference to the tokens of a text. -/
theorem Lexes.append_blanks {offset : Nat} {cs : List Char} {ts : List Located}
    {invalidAt : Option Nat} (h : Lexes offset cs ts invalidAt)
    (hafter : ∀ c ∈ after, Text.isBlank c = true) : Lexes offset (cs ++ after) ts invalidAt := by
  induction h with
  | @finished offset =>
    induction after generalizing offset with
    | nil => exact .finished
    | cons c cs ih =>
      obtain ⟨hc, hcs⟩ := List.forall_mem_cons.1 hafter
      exact .blank hc (ih hcs)
  | blank hc _ ih => exact .blank hc ih
  | token hlongest _ ih => exact .token (hlongest.append_blanks hafter) ih
  | @stuck offset c cs hblank hnone =>
    refine .stuck hblank fun t lexeme rest heq h => ?_
    have heq : (c :: cs) ++ after = lexeme ++ rest := heq
    obtain ⟨rest', hcs, -⟩ := exists_eq_append_of_getLast? h.isBlank_getLast? hafter heq
    exact hnone t lexeme rest' hcs h

theorem lex_append_blanks (hafter : ∀ c ∈ after, Text.isBlank c = true) (cs : List Char) :
    lex (cs ++ after) = lex cs :=
  lexes_iff.1 ((lexes_iff.2 (Eq.refl (lex cs))).append_blanks hafter)

theorem readLine_append_blanks (hafter : ∀ c ∈ after, Text.isBlank c = true) (cs : List Char) :
    readLine (cs ++ after) = readLine cs := by
  rw [readLine, readWith, lex_append_blanks hafter]
  rfl

/-- A directive begins with a sign that no token begins with. -/
theorem Directs.exists_percent {line argument : List Char} (h : Directs line argument) :
    ∃ before rest, (∀ c ∈ before, Text.isBlank c = true) ∧ line = before ++ '%' :: rest := by
  cases h with
  | symbol hbefore => exact ⟨_, _, hbefore, rfl⟩
  | missing hbefore => exact ⟨_, _, hbefore, rfl⟩

theorem Lexes.not_directs {offset : Nat} {cs argument : List Char} {ts : List Located}
    (h : Lexes offset cs ts none) : ¬ Directs cs argument := by
  intro hdirects
  obtain ⟨before, rest, hbefore, heq⟩ := hdirects.exists_percent
  clear hdirects
  generalize hinvalid : (none : Option Nat) = invalidAt at h
  induction h generalizing before with
  | finished => exact absurd heq (by simp)
  | blank hc _ ih =>
    cases before with
    | nil =>
      obtain ⟨rfl, -⟩ := List.cons.inj heq
      revert hc
      decide
    | cons b before =>
      obtain ⟨-, rfl⟩ := List.cons.inj heq
      exact ih before (List.forall_mem_cons.1 hbefore).2 rfl hinvalid
  | token hlongest =>
    have hscan := scan_eq_some_iff.2 hlongest
    cases before with
    | nil =>
      subst heq
      cases hscan
    | cons b before =>
      subst heq
      have hb := isBlank_eq_false_of_scan hscan
      rw [hbefore b List.mem_cons_self] at hb
      cases hb
  | stuck => cases hinvalid

theorem Directs.append_blanks {line argument : List Char} (h : Directs line argument)
    (hafter : ∀ c ∈ after, Text.isBlank c = true) : Directs (line ++ after) argument := by
  cases h with
  | symbol hbefore hne hmiddle hargument hend =>
    simp only [List.append_assoc]
    exact .symbol hbefore hne hmiddle hargument (List.forall_mem_append.2 ⟨hend, hafter⟩)
  | missing hbefore hlength hmiddle =>
    simp only [List.append_assoc]
    refine .missing hbefore ?_ (List.forall_mem_append.2 ⟨hmiddle, hafter⟩)
    rw [List.length_append]
    exact Nat.le_add_right_of_le hlength

theorem Directs.of_append_blanks {line argument : List Char} (h : Directs (line ++ after) argument)
    (hne : argument ≠ []) (hafter : ∀ c ∈ after, Text.isBlank c = true) :
    Directs line argument := by
  generalize hline : line ++ after = whole at h
  cases h with
  | @symbol before blanks _ last hbefore hblanks hmiddle hargument hend =>
    have hlast : ∃ c, (before ++ ("%start".toList ++ (blanks ++ argument))).getLast? = some c ∧
        Text.isBlank c = false := by
      obtain ⟨c, hc, hblank⟩ := hargument.last
      refine ⟨c, ?_, hblank⟩
      rw [← List.append_assoc, ← List.append_assoc, List.getLast?_append_of_ne_nil _ hne, hc]
    have heq : line ++ after = before ++ ("%start".toList ++ (blanks ++ argument)) ++ last := by
      rw [hline]
      simp only [List.append_assoc]
    obtain ⟨last', rfl, rfl⟩ := exists_eq_append_of_getLast? hlast hafter heq
    simp only [List.append_assoc]
    exact .symbol hbefore hblanks hmiddle hargument (List.forall_mem_append.1 hend).1
  | missing => exact absurd rfl hne

/-- There is no symbol to be read in nothing. -/
theorem Verdict.ne_nil {cs : List Char} {symbol : WrittenSymbol}
    (h : Verdict SymbolForm cs (.ok symbol)) : cs ≠ [] := by
  rintro rfl
  cases readSymbol_eq_iff.2 h

/-- Blanks at the end make no difference to what a line says. -/
theorem tells_append_blanks_iff (hafter : ∀ c ∈ after, Text.isBlank c = true) {line : List Char}
    {statement? : Option Statement} :
    Tells (line ++ after) (.ok statement?) ↔ Tells line (.ok statement?) := by
  have hblank : (∃ c ∈ line ++ after, Text.isBlank c = false) ↔
      ∃ c ∈ line, Text.isBlank c = false := by
    refine ⟨?_, fun ⟨c, hc, h⟩ => ⟨c, List.mem_append_left _ hc, h⟩⟩
    rintro ⟨c, hc, h⟩
    refine ⟨c, (List.mem_append.1 hc).resolve_right fun hmem => ?_, h⟩
    rw [hafter c hmem] at h
    cases h
  have hverdict : ∀ {written}, Verdict LineForm (line ++ after) (.ok written) ↔
      Verdict LineForm line (.ok written) := by
    intro written
    rw [← readLine_eq_iff, readLine_append_blanks hafter, readLine_eq_iff]
  constructor
  · intro h
    cases h with
    | nothing hall => exact .nothing (List.forall_mem_append.1 hall).1
    | start hdirects hsymbol =>
      exact .start (hdirects.of_append_blanks hsymbol.ne_nil hafter) hsymbol
    | productions hne hdirects hline =>
      exact .productions (hblank.1 hne)
        (fun argument h => hdirects argument (h.append_blanks hafter)) (hverdict.1 hline)
  · intro h
    cases h with
    | nothing hall => exact .nothing (List.forall_mem_append.2 ⟨hall, hafter⟩)
    | start hdirects hsymbol => exact .start (hdirects.append_blanks hafter) hsymbol
    | productions hne _ hline =>
      have hline := hverdict.2 hline
      refine .productions (hblank.2 hne) (fun argument h => ?_) hline
      cases hline with
      | read hlexes => exact hlexes.not_directs h

/-! ### Lines with comments -/

/-- A comment is still there if blanks are left out at its end. -/
theorem exists_comment_of_append {front line comment : List Char}
    (hafter : ∀ c ∈ after, Text.isBlank c = true)
    (heq : line ++ after = front ++ '#' :: comment) :
    ∃ comment', line = front ++ '#' :: comment' := by
  have hlast : ∃ c, (front ++ ['#']).getLast? = some c ∧ Text.isBlank c = false :=
    ⟨'#', List.getLast?_concat, by decide⟩
  have heq : line ++ after = front ++ ['#'] ++ comment := by
    rw [heq, List.append_assoc]
    rfl
  obtain ⟨comment', hline, -⟩ := exists_eq_append_of_getLast? hlast hafter heq
  rw [List.append_assoc] at hline
  exact ⟨comment', hline⟩

/-- What is left of a line with blanks at its end, besides blanks, is what is left of the line. -/
theorem stripComment_append_blanks (hafter : ∀ c ∈ after, Text.isBlank c = true)
    (line : List Char) : ∃ blanks, (∀ c ∈ blanks, Text.isBlank c = true) ∧
      stripComment (line ++ after) = stripComment line ++ blanks := by
  rcases commented_or_bare line with ⟨kept, comment, hclosed, rfl⟩ | hbare
  · refine ⟨[], (fun c hc => nomatch hc), ?_⟩
    rw [stripComment_append hclosed, List.append_assoc, List.cons_append,
      stripComment_append hclosed, List.append_nil]
  · refine ⟨after, hafter, ?_⟩
    rw [stripComment_eq_self hbare, stripComment_eq_self]
    intro kept comment hclosed heq
    obtain ⟨comment', hline⟩ := exists_comment_of_append hafter heq
    exact hbare kept comment' hclosed hline

/-- What is left of a line with a comment put behind it is what was left of the
line, if that is closed. -/
theorem stripComment_append_comment {line : List Char} (h : Closed (stripComment line))
    (hafter : ∀ c ∈ after, Text.isBlank c = true) (comment : List Char) :
    ∃ blanks, (∀ c ∈ blanks, Text.isBlank c = true) ∧
      stripComment (line ++ after ++ '#' :: comment) = stripComment line ++ blanks := by
  rcases commented_or_bare line with ⟨kept, comment', hclosed, rfl⟩ | hbare
  · refine ⟨[], (fun c hc => nomatch hc), ?_⟩
    rw [stripComment_append hclosed, List.append_assoc, List.append_assoc, List.cons_append,
      stripComment_append hclosed, List.append_nil]
  · refine ⟨after, hafter, ?_⟩
    rw [stripComment_eq_self hbare] at h ⊢
    exact stripComment_append (h.append (closed_of_isBlank hafter)) comment

theorem tells_stripComment_append_blanks_iff (hafter : ∀ c ∈ after, Text.isBlank c = true)
    {line : List Char} {statement? : Option Statement} :
    Tells (stripComment (line ++ after)) (.ok statement?) ↔
      Tells (stripComment line) (.ok statement?) := by
  obtain ⟨blanks, hblanks, heq⟩ := stripComment_append_blanks hafter line
  rw [heq, tells_append_blanks_iff hblanks]

/-- A line says what it did when a comment has been put behind it. -/
theorem tells_append_comment {line : List Char} {statement? : Option Statement}
    (h : Tells (stripComment line) (.ok statement?)) (hafter : ∀ c ∈ after, Text.isBlank c = true)
    (comment : List Char) :
    Tells (stripComment (line ++ after ++ '#' :: comment)) (.ok statement?) := by
  obtain ⟨blanks, hblanks, heq⟩ := stripComment_append_comment (closed_of_tells h) hafter comment
  rw [heq, tells_append_blanks_iff hblanks]
  exact h

/-- A line that is only a comment says nothing. -/
theorem tells_comment (hafter : ∀ c ∈ after, Text.isBlank c = true) (comment : List Char) :
    Tells (stripComment (after ++ '#' :: comment)) (.ok none) := by
  rw [stripComment_append (closed_of_isBlank hafter)]
  exact .nothing hafter

end ChartParsing.Source
