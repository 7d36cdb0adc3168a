/-
ChartParsing/Proofs/Source/Lexing.lean

What a text is read as, without places.

`Reads cs ts` says that a text consists of the tokens `ts`, with blanks between
them.  Lexing finds just these tokens (`Reads.exists_lex_eq`), and a reader
that they take to a result reads the text as that result (`readWith_eq_ok`).

A token ends where no character after it belongs to it, so a text cannot be cut
anywhere.  `Spells piece ts` says of a piece that it is read as `ts` wherever a
text goes on without a word character (`Ends`).  Such pieces can be put
together, which is how a written form is shown to be read as its tokens.
-/
import ChartParsing.Proofs.Source.Lexeme
import ChartParsing.Source.Line

namespace ChartParsing.Source

/-! ### Tokens of a text -/

/-- The text consists of the tokens, with blanks before, between and after them. -/
inductive Reads : List Char → List Token → Prop
  | nil : Reads [] []
  | blank {c cs ts} : Text.isBlank c = true → Reads cs ts → Reads (c :: cs) ts
  | token {cs t lexeme rest ts} : scan cs = some (t, lexeme, rest) → Reads rest ts →
      Reads cs (t :: ts)

theorem Reads.exists_lexes {cs : List Char} {ts : List Token} (h : Reads cs ts) (offset : Nat) :
    ∃ located, Lexes offset cs located none ∧ located.map Located.token = ts := by
  induction h generalizing offset with
  | nil => exact ⟨[], .finished, rfl⟩
  | @blank c _ _ hc _ ih =>
    obtain ⟨located, hlater, htokens⟩ := ih (offset + c.utf8Size)
    exact ⟨located, .blank hc hlater, htokens⟩
  | @token _ _ lexeme _ _ hscan _ ih =>
    obtain ⟨located, hlater, htokens⟩ := ih (offset + byteLength lexeme)
    exact ⟨_, .token (longest_of_scan hscan) hlater, congrArg (List.cons _) htokens⟩

/-- Lexing finds the tokens of a text, and no place without a token. -/
theorem Reads.exists_lex_eq {cs : List Char} {ts : List Token} (h : Reads cs ts) :
    ∃ located, lex cs = ⟨located, none⟩ ∧ located.map Located.token = ts := by
  obtain ⟨located, hlexes, htokens⟩ := h.exists_lexes 0
  exact ⟨located, lexes_iff.1 hlexes, htokens⟩

/-! ### Readers -/

theorem feedAll_eq_ok {σ : Type} {feed : σ → Token → Option σ} {located : List Located}
    {stage last : σ} (h : (located.map Located.token).foldlM feed stage = some last) :
    feedAll feed stage located = .ok last := by
  induction located generalizing stage with
  | nil => exact congrArg Except.ok (Option.some.inj h)
  | cons t ts ih =>
    rw [List.map_cons, List.foldlM_cons] at h
    obtain ⟨next, hnext, hlast⟩ := Option.bind_eq_some_iff.1 h
    rw [feedAll, hnext]
    exact ih hlast

/-- A text is read as the result that its tokens lead to. -/
theorem readWith_eq_ok {σ α : Type} {feed : σ → Token → Option σ} {result? : σ → Option α}
    {start last : σ} {cs : List Char} {ts : List Token} {a : α} (hreads : Reads cs ts)
    (hlast : ts.foldlM feed start = some last) (hresult : result? last = some a) :
    readWith feed result? start cs = .ok a := by
  obtain ⟨located, hlex, rfl⟩ := hreads.exists_lex_eq
  have hfed := feedAll_eq_ok hlast
  simp only [readWith, hlex, hfed, bind, Except.bind, hresult]

/-! ### Pieces of a text -/

/-- No word goes on into this text. -/
def Ends (rest : List Char) : Prop := ∀ c ∈ rest.head?, isWordChar c = false

/-- The piece is read as the tokens, if no word goes on behind it. -/
def Spells (piece : List Char) (ts : List Token) : Prop :=
  ∀ rest us, Ends rest → Reads rest us → Reads (piece ++ rest) (ts ++ us)

theorem ends_nil : Ends [] := by simp [Ends]

theorem ends_cons {c : Char} (h : isWordChar c = false) (cs : List Char) : Ends (c :: cs) := by
  intro d hd
  obtain rfl : c = d := Option.some.inj hd
  exact h

theorem Ends.append {piece rest : List Char} (h : Ends piece) (hrest : Ends rest) :
    Ends (piece ++ rest) := by
  cases piece with
  | nil => exact hrest
  | cons c cs => exact ends_cons (h c rfl) _

theorem spells_nil : Spells [] [] := fun _ _ _ h => h

namespace Spells

variable {piece piece' : List Char} {ts us : List Token} {t : Token}

theorem reads (h : Spells piece ts) : Reads piece ts := by
  simpa using h [] [] ends_nil .nil

/-- Two pieces make one, if no word goes on from the first into the second. -/
theorem append (h : Spells piece ts) (h' : Spells piece' us) (hends : Ends piece') :
    Spells (piece ++ piece') (ts ++ us) := by
  intro rest vs hrest hvs
  rw [List.append_assoc, List.append_assoc]
  exact h _ _ (hends.append hrest) (h' rest vs hrest hvs)

theorem blank {c : Char} (hc : Text.isBlank c = true) (h : Spells piece ts) :
    Spells (c :: piece) ts := fun rest us hrest hus => .blank hc (h rest us hrest hus)

/-- One more token before a piece, which it ends before. -/
theorem token (lexeme : List Char) (hscan : ∀ rest, Ends rest →
      scan (lexeme ++ (piece ++ rest)) = some (t, lexeme, piece ++ rest))
    (h : Spells piece ts) : Spells (lexeme ++ piece) (t :: ts) := by
  intro rest us hrest hus
  rw [List.append_assoc]
  exact .token (hscan rest hrest) (h rest us hrest hus)

end Spells

/-! ### Words, variables and quoted texts -/

/-- Word characters are taken up to where no word goes on. -/
theorem takeWhile_append_of_ends {word rest : List Char} (hword : ∀ c ∈ word, isWordChar c = true)
    (hrest : Ends rest) : (word ++ rest).takeWhile isWordChar = word ∧
      (word ++ rest).dropWhile isWordChar = rest := by
  rw [List.takeWhile_append_of_pos hword, List.dropWhile_append_of_pos hword]
  cases rest with
  | nil => simp
  | cons c cs =>
    have hc : ¬ isWordChar c = true := by simp [hrest c rfl]
    rw [List.takeWhile_cons_of_neg hc, List.dropWhile_cons_of_neg hc, List.append_nil]
    exact ⟨rfl, rfl⟩

theorem spells_word {word : List Char} (hne : word ≠ []) (hword : ∀ c ∈ word, isWordChar c = true) :
    Spells word [.name (String.ofList word)] := by
  intro rest us hrest hus
  obtain ⟨c, cs, rfl⟩ := List.exists_cons_of_ne_nil hne
  obtain ⟨hc, hcs⟩ := List.forall_mem_cons.1 hword
  obtain ⟨htake, hdrop⟩ := takeWhile_append_of_ends hcs hrest
  have hscan : scan (c :: cs ++ rest) = some (.name (String.ofList (c :: cs)), c :: cs, rest) := by
    rw [List.cons_append, scan_cons_of_isWordChar hc, htake, hdrop]
  exact .token hscan hus

theorem spells_var {c : Char} {cs : List Char} (hc : isVarStart c = true)
    (hcs : ∀ d ∈ cs, isWordChar d = true) :
    Spells ('?' :: c :: cs) [.var (String.ofList (c :: cs))] := by
  intro rest us hrest hus
  obtain ⟨htake, hdrop⟩ := takeWhile_append_of_ends hcs hrest
  have hscan : scan ('?' :: c :: (cs ++ rest)) =
      some (.var (String.ofList (c :: cs)), '?' :: c :: cs, rest) := by
    rw [scan, if_pos hc, htake, hdrop]
  exact .token hscan hus

theorem spells_quoted {text : List Char} (h : '\'' ∉ text) :
    Spells ('\'' :: text ++ ['\'']) [.quoted (String.ofList text)] := by
  intro rest us _ hus
  exact .token (scan_quoted (.inl rfl) h rest) hus

end ChartParsing.Source
