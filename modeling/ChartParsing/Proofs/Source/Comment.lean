/-
ChartParsing/Proofs/Source/Comment.lean

What a comment is.

Text is closed if each quote in it belongs to a quoted text that ends, and each
`#` stands inside of one (`Closed`).  A comment begins at a `#` behind closed
text, wherever there is one (`stripComment_append`); there is no other, so a
line that is not of this form has no comment (`stripComment_eq_self`).
-/
import ChartParsing.Source.Statement

namespace ChartParsing.Source

/-- Characters other than `#` and quotes, and quoted texts with any characters
but the quote around them. -/
inductive Closed : List Char → Prop
  | nil : Closed []
  | cons {c cs} : c ≠ '#' ∧ c ≠ '\'' ∧ c ≠ '"' → Closed cs → Closed (c :: cs)
  | quoted {q text cs} : q = '\'' ∨ q = '"' → q ∉ text → Closed cs →
      Closed (q :: text ++ q :: cs)

namespace Closed

variable {cs cs' : List Char}

theorem append (h : Closed cs) (h' : Closed cs') : Closed (cs ++ cs') := by
  induction h with
  | nil => exact h'
  | cons hc _ ih => exact .cons hc ih
  | quoted hq htext _ ih =>
    rw [List.append_assoc]
    exact .quoted hq htext ih

theorem of_forall (h : ∀ c ∈ cs, c ≠ '#' ∧ c ≠ '\'' ∧ c ≠ '"') : Closed cs := by
  induction cs with
  | nil => exact .nil
  | cons c cs ih =>
    obtain ⟨hc, hcs⟩ := List.forall_mem_cons.1 h
    exact .cons hc (ih hcs)

end Closed

/-- Inside a quoted text nothing matters but the quote that ends it. -/
theorem beforeComment?_quoted {q : Char} {text : List Char} (h : q ∉ text) (rest : List Char) :
    beforeComment? (some q) (text ++ q :: rest) =
      (beforeComment? none rest).map fun kept => text ++ q :: kept := by
  induction text with
  | nil => simp [beforeComment?]
  | cons c cs ih =>
    rw [List.mem_cons, not_or] at h
    simp [beforeComment?, Ne.symm h.1, ih h.2, Function.comp_def]

/-- Closed text is kept, and a comment is looked for behind it. -/
theorem Closed.beforeComment?_append {cs : List Char} (h : Closed cs) (rest : List Char) :
    beforeComment? none (cs ++ rest) = (beforeComment? none rest).map (cs ++ ·) := by
  induction h with
  | nil => simp
  | cons hc _ ih =>
    rw [List.cons_append, beforeComment?, if_neg hc.1, if_neg (not_or.2 hc.2), ih]
    simp [Function.comp_def]
  | @quoted q text cs hq htext _ ih =>
    have hne : q ≠ '#' := by
      rintro rfl
      rcases hq with h | h <;> cases h
    rw [List.append_assoc, List.cons_append, beforeComment?, if_neg hne, if_pos hq,
      List.cons_append, beforeComment?_quoted htext, ih]
    simp [Function.comp_def]

/-- What is kept is closed, or ends the quoted text that it begins in and is closed from there. -/
theorem exists_of_beforeComment? (cs : List Char) :
    (∀ kept, beforeComment? none cs = some kept →
      Closed kept ∧ ∃ comment, cs = kept ++ '#' :: comment) ∧
    ∀ q kept, beforeComment? (some q) cs = some kept →
      (∃ text after, kept = text ++ q :: after ∧ q ∉ text ∧ Closed after) ∧
        ∃ comment, cs = kept ++ '#' :: comment := by
  induction cs with
  | nil => exact ⟨(fun _ h => nomatch h), (fun _ _ h => nomatch h)⟩
  | cons c cs ih =>
    obtain ⟨ihnone, ihsome⟩ := ih
    constructor
    · intro kept h
      rw [beforeComment?] at h
      split at h
      · rename_i hc
        obtain rfl := Option.some.inj h
        exact ⟨.nil, cs, by rw [hc]; rfl⟩
      · rename_i hc
        obtain ⟨kept, hkept, rfl⟩ := Option.map_eq_some_iff.1 h
        split at hkept
        · rename_i hq
          obtain ⟨⟨text, after, rfl, htext, hafter⟩, comment, rfl⟩ := ihsome c kept hkept
          exact ⟨.quoted hq htext hafter, comment, rfl⟩
        · rename_i hq
          obtain ⟨hclosed, comment, rfl⟩ := ihnone kept hkept
          exact ⟨.cons ⟨hc, not_or.1 hq⟩ hclosed, comment, rfl⟩
    · intro q kept h
      rw [beforeComment?] at h
      obtain ⟨kept, hkept, rfl⟩ := Option.map_eq_some_iff.1 h
      split at hkept
      · rename_i hc
        obtain ⟨hclosed, comment, rfl⟩ := ihnone kept hkept
        exact ⟨⟨[], kept, by rw [hc]; rfl, List.not_mem_nil, hclosed⟩, comment, rfl⟩
      · rename_i hc
        obtain ⟨⟨text, after, rfl, htext, hafter⟩, comment, rfl⟩ := ihsome q kept hkept
        have hmem : q ∉ c :: text := by
          rw [List.mem_cons, not_or]
          exact ⟨Ne.symm hc, htext⟩
        exact ⟨⟨c :: text, after, rfl, hmem, hafter⟩, comment, rfl⟩

/-! ### Lines with and without a comment -/

variable {line kept : List Char}

/-- What stands before the comment, whatever the comment is. -/
theorem stripComment_append (h : Closed kept) (comment : List Char) :
    stripComment (kept ++ '#' :: comment) = kept := by
  rw [stripComment, h.beforeComment?_append]
  simp [beforeComment?]

/-- A line without a `#` behind closed text has no comment. -/
theorem stripComment_eq_self (h : ∀ kept comment, Closed kept → line ≠ kept ++ '#' :: comment) :
    stripComment line = line := by
  rw [stripComment]
  cases hkept : beforeComment? none line with
  | none => rfl
  | some kept =>
    obtain ⟨hclosed, comment, hline⟩ := (exists_of_beforeComment? line).1 kept hkept
    exact absurd hline (h kept comment hclosed)

theorem Closed.stripComment_eq (h : Closed line) : stripComment line = line := by
  have hnone := h.beforeComment?_append []
  rw [List.append_nil] at hnone
  rw [stripComment, hnone]
  rfl

/-- A line has a comment behind closed text, or is kept as it is. -/
theorem commented_or_bare (line : List Char) :
    (∃ kept comment, Closed kept ∧ line = kept ++ '#' :: comment) ∨
      ∀ kept comment, Closed kept → line ≠ kept ++ '#' :: comment := by
  by_cases h : ∃ kept comment, Closed kept ∧ line = kept ++ '#' :: comment
  · exact .inl h
  · exact .inr fun kept comment hclosed hline => h ⟨kept, comment, hclosed, hline⟩

theorem stripComment_stripComment (line : List Char) :
    stripComment (stripComment line) = stripComment line := by
  rcases commented_or_bare line with ⟨kept, comment, hclosed, rfl⟩ | hbare
  · rw [stripComment_append hclosed, hclosed.stripComment_eq]
  · rw [stripComment_eq_self hbare, stripComment_eq_self hbare]

end ChartParsing.Source
