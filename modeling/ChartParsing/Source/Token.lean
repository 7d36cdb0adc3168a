/-
ChartParsing/Source/Token.lean

The tokens of a grammar line.

A token is as long as it can be: `->` is one token, and so are all the word
characters in a row.  Between tokens there may be white space: the 25 code
points with the property White_Space (`Text.isBlank`).  Text in which no token
can be found is not read any further; `Lexed` holds the tokens before it and
the place where reading stopped.

Places are counted in bytes of the UTF-8 form, from the start of the line.
-/

namespace ChartParsing

/-! ### White space -/

namespace Text

/-- Whether the character has the property White_Space. -/
def isBlank (c : Char) : Bool :=
  let n := c.toNat
  (0x9 ≤ n && n ≤ 0xd) || n == 0x20 || n == 0x85 || n == 0xa0 || n == 0x1680 ||
    (0x2000 ≤ n && n ≤ 0x200a) || n == 0x2028 || n == 0x2029 || n == 0x202f || n == 0x205f ||
    n == 0x3000

/-- The characters without the white space at their end. -/
def dropBlankEnd (cs : List Char) : List Char := (cs.reverse.dropWhile isBlank).reverse

end Text

/-! ### Tokens -/

namespace Source

/-- A token of a grammar line. -/
inductive Token where
  /-- A text in quotes of either kind. -/
  | quoted (text : String)
  /-- A word of letters, digits and underscores. -/
  | name (text : String)
  /-- A variable, without its question mark. -/
  | var (name : String)
  | plus | comma | minus | arrow | equals | openBracket | closeBracket | bar
  deriving DecidableEq

/-- A token with its written form and the bytes that it takes up. -/
structure Located where
  token : Token
  lexeme : List Char
  start : Nat
  stop : Nat
  deriving DecidableEq

/-- The tokens found, and where the text goes on without one. -/
structure Lexed where
  tokens : List Located
  invalidAt : Option Nat
  deriving DecidableEq

/-- The number of bytes that the characters take up. -/
def byteLength (cs : List Char) : Nat := cs.foldr (fun c n => c.utf8Size + n) 0

/-- A letter, digit or underscore. -/
def isWordChar (c : Char) : Bool := c.isAlphanum || c == '_'

/-- A letter or underscore. -/
def isVarStart (c : Char) : Bool := c.isAlpha || c == '_'

/-- The characters up to the quote, if it comes at all, and what comes after it. -/
def untilQuote (q : Char) : List Char → Option (List Char × List Char)
  | [] => none
  | c :: cs => if c = q then some ([], cs) else (untilQuote q cs).map fun p => (c :: p.1, p.2)

/-- The longest token at the front, its written form, and what comes after it. -/
def scan : List Char → Option (Token × List Char × List Char)
  | [] => none
  | '+' :: cs => some (.plus, ['+'], cs)
  | ',' :: cs => some (.comma, [','], cs)
  | '-' :: '>' :: cs => some (.arrow, ['-', '>'], cs)
  | '-' :: cs => some (.minus, ['-'], cs)
  | '=' :: cs => some (.equals, ['='], cs)
  | '[' :: cs => some (.openBracket, ['['], cs)
  | ']' :: cs => some (.closeBracket, [']'], cs)
  | '|' :: cs => some (.bar, ['|'], cs)
  | '?' :: c :: cs =>
    if isVarStart c then
      let word := c :: cs.takeWhile isWordChar
      some (.var (String.ofList word), '?' :: word, cs.dropWhile isWordChar)
    else none
  | c :: cs =>
    if c = '\'' ∨ c = '"' then
      (untilQuote c cs).map fun p => (.quoted (String.ofList p.1), c :: p.1 ++ [c], p.2)
    else if isWordChar c then
      let word := c :: cs.takeWhile isWordChar
      some (.name (String.ofList word), word, cs.dropWhile isWordChar)
    else none

theorem eq_of_untilQuote {q : Char} {cs text rest : List Char}
    (h : untilQuote q cs = some (text, rest)) : cs = text ++ q :: rest := by
  induction cs generalizing text with
  | nil => cases h
  | cons c cs ih =>
    rw [untilQuote] at h
    split at h
    · rename_i hc
      cases h
      simp [hc]
    · obtain ⟨⟨text', rest'⟩, hp, heq⟩ := Option.map_eq_some_iff.1 h
      cases heq
      simp [ih hp]

/-- A token and what comes after it make up the text, and no token is empty. -/
theorem eq_append_of_scan {cs lexeme rest : List Char} {t : Token}
    (h : scan cs = some (t, lexeme, rest)) : cs = lexeme ++ rest ∧ lexeme ≠ [] := by
  unfold scan at h
  split at h <;> try (cases h; simp)
  · cases h
  · split at h
    · cases h
      simp
    · cases h
  · split at h
    · obtain ⟨⟨text, rest'⟩, hp, heq⟩ := Option.map_eq_some_iff.1 h
      cases heq
      simp [eq_of_untilQuote hp]
    · split at h
      · cases h
        simp
      · cases h

/-- The tokens of a text that begins at byte `offset`, at most `limit` of them. -/
def lexFrom : (limit : Nat) → (offset : Nat) → List Char → Lexed
  | 0, _, _ => ⟨[], none⟩
  | limit + 1, offset, cs =>
    let start := offset + byteLength (cs.takeWhile Text.isBlank)
    match cs.dropWhile Text.isBlank with
    | [] => ⟨[], none⟩
    | c :: cs =>
      match scan (c :: cs) with
      | none => ⟨[], some start⟩
      | some (token, lexeme, rest) =>
        let stop := start + byteLength lexeme
        let later := lexFrom limit stop rest
        { later with tokens := ⟨token, lexeme, start, stop⟩ :: later.tokens }

/-- The tokens of a text; each takes at least one character. -/
def lex (cs : List Char) : Lexed := lexFrom (cs.length + 1) 0 cs

end Source

end ChartParsing
