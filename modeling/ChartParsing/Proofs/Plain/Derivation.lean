/-
ChartParsing/Proofs/Plain/Derivation.lean

Derivations of a plain grammar, and their trees.

A production rewrites any occurrence of its left-hand side.  This is the
relation that a reader of a grammar has in mind, but it says nothing about
which tokens come of which symbol.  A *forest* does: one tree for each symbol,
over spans that follow one another.  The two agree (`derives_word_iff`): a
rewriting step backwards puts the trees of a right-hand side under one node.

A left-hand side may be a terminal, which then stands for its token and can be
rewritten as well.
-/
import ChartParsing.Grammar
import ChartParsing.Tree
import Mathlib.Logic.Relation

namespace ChartParsing

/-- One occurrence of the left-hand side of a production gives way to the right-hand side. -/
inductive Rewrites (productions : List (Production Symbol)) : List Symbol → List Symbol → Prop
  | replace {p} (before after : List Symbol) : p ∈ productions →
      Rewrites productions (before ++ p.lhs :: after) (before ++ (p.rhs ++ after))

/-- Rewriting, any number of times. -/
def Derives (productions : List (Production Symbol)) : List Symbol → List Symbol → Prop :=
  Relation.ReflTransGen (Rewrites productions)

/-- The tokens from position `i` up to position `j`, as terminals. -/
def word (tokens : List String) (i j : Nat) : List Symbol :=
  ((tokens.drop i).take (j - i)).map .terminal

/-- Derivation trees of the symbols, over spans that follow one another from `i` to `j`. -/
inductive Forest (productions : List (Production Symbol)) (tokens : List String) :
    List Symbol → Nat → Nat → List (Tree Symbol) → Prop
  | nil {i} : Forest productions tokens [] i i []
  | leaf {w α i j ts} : tokens[i]? = some w → Forest productions tokens α (i + 1) j ts →
      Forest productions tokens (.terminal w :: α) i j (.leaf w :: ts)
  | node {p α i k j ts us} : p ∈ productions → Forest productions tokens p.rhs i k ts →
      Forest productions tokens α k j us →
      Forest productions tokens (p.lhs :: α) i j (.node p.lhs ts :: us)

variable {productions : List (Production Symbol)} {tokens : List String}
  {α α' β β' : List Symbol} {ts us : List (Tree Symbol)} {i j k : Nat}

/-! ### Words -/

theorem word_self (tokens : List String) (i : Nat) : word tokens i i = [] := by
  rw [word, Nat.sub_self, List.take_zero, List.map_nil]

theorem word_append (hij : i ≤ j) (hjk : j ≤ k) :
    word tokens i j ++ word tokens j k = word tokens i k := by
  have hsplit : k - i = (j - i) + (k - j) := by omega
  have hdrop : tokens.drop j = (tokens.drop i).drop (j - i) := by
    rw [List.drop_drop]
    congr 1
    omega
  rw [word, word, word, ← List.map_append, hsplit, List.take_add, hdrop]

theorem word_succ {w : String} (h : tokens[i]? = some w) :
    word tokens i (i + 1) = [.terminal w] := by
  obtain ⟨hlt, rfl⟩ := List.getElem?_eq_some_iff.1 h
  rw [word, List.drop_eq_getElem_cons hlt, Nat.add_sub_cancel_left, List.take_succ_cons,
    List.take_zero]
  rfl

/-! ### Rewriting -/

theorem Rewrites.append_right (h : Rewrites productions α α') (γ : List Symbol) :
    Rewrites productions (α ++ γ) (α' ++ γ) := by
  obtain ⟨before, after, hp⟩ := h
  rw [List.append_assoc, List.append_assoc, List.append_assoc, List.cons_append]
  exact .replace before (after ++ γ) hp

theorem Rewrites.append_left (γ : List Symbol) (h : Rewrites productions α α') :
    Rewrites productions (γ ++ α) (γ ++ α') := by
  obtain ⟨before, after, hp⟩ := h
  rw [← List.append_assoc, ← List.append_assoc γ]
  exact .replace (γ ++ before) after hp

theorem Derives.append_right (h : Derives productions α α') (γ : List Symbol) :
    Derives productions (α ++ γ) (α' ++ γ) :=
  Relation.ReflTransGen.lift (· ++ γ) (fun _ _ hstep => hstep.append_right γ) _ _ h

theorem Derives.append_left (γ : List Symbol) (h : Derives productions α α') :
    Derives productions (γ ++ α) (γ ++ α') :=
  Relation.ReflTransGen.lift (γ ++ ·) (fun _ _ hstep => hstep.append_left γ) _ _ h

/-- Neighbours are rewritten independently. -/
theorem Derives.append (hα : Derives productions α α') (hβ : Derives productions β β') :
    Derives productions (α ++ β) (α' ++ β') :=
  (hα.append_right β).trans (hβ.append_left α')

theorem Derives.of_production {p : Production Symbol} (hp : p ∈ productions)
    (h : Derives productions p.rhs α) : Derives productions [p.lhs] α := by
  have hstep := Rewrites.replace [] [] hp
  rw [List.append_nil] at hstep
  exact .head hstep h

/-! ### Forests -/

namespace Forest

theorem le (h : Forest productions tokens α i j ts) : i ≤ j := by
  induction h with
  | nil => exact Nat.le_refl _
  | leaf _ _ ih => omega
  | node _ _ _ ih ih' => omega

theorem append (h : Forest productions tokens α i j ts)
    (h' : Forest productions tokens β j k us) :
    Forest productions tokens (α ++ β) i k (ts ++ us) := by
  induction h with
  | nil => exact h'
  | leaf hw _ ih => exact .leaf hw (ih h')
  | node hp hchildren _ _ ih => exact .node hp hchildren (ih h')

theorem of_append (h : Forest productions tokens (α ++ β) i j ts) :
    ∃ k us vs, ts = us ++ vs ∧ Forest productions tokens α i k us ∧
      Forest productions tokens β k j vs := by
  induction α generalizing i ts with
  | nil => exact ⟨i, [], ts, rfl, .nil, h⟩
  | cons X α ih =>
    cases h with
    | leaf hw hrest =>
      obtain ⟨k, us, vs, rfl, hα, hβ⟩ := ih hrest
      exact ⟨k, _, vs, rfl, .leaf hw hα, hβ⟩
    | node hp hchildren hrest =>
      obtain ⟨k, us, vs, rfl, hα, hβ⟩ := ih hrest
      exact ⟨k, _, vs, rfl, .node hp hchildren hα, hβ⟩

/-- The root of a forest derives what is at its leaves. -/
theorem derives (h : Forest productions tokens α i j ts) :
    Derives productions α (word tokens i j) := by
  induction h with
  | nil =>
    rw [word_self]
    exact .refl
  | @leaf w α i j ts hw hrest ih =>
    -- the first token, and then the rest
    rw [← word_append (Nat.le_succ i) hrest.le, word_succ hw]
    exact ih.append_left [_]
  | @node p α i k j ts us hp hchildren hrest ih ih' =>
    rw [← word_append hchildren.le hrest.le]
    exact (Derives.of_production hp ih).append ih'

/-- The leaves alone are a forest over the tokens. -/
theorem of_word (hij : i ≤ j) (hj : j ≤ tokens.length) :
    ∃ ts, Forest productions tokens (word tokens i j) i j ts := by
  obtain ⟨n, rfl⟩ := Nat.exists_eq_add_of_le hij
  clear hij
  induction n generalizing i with
  | zero =>
    rw [Nat.add_zero, word_self]
    exact ⟨[], .nil⟩
  | succ n ih =>
    have hw : tokens[i]? = some tokens[i] := List.getElem?_eq_getElem (by omega)
    obtain ⟨ts, hts⟩ := ih (i := i + 1) (by omega)
    rw [← word_append (Nat.le_succ i) (by omega), word_succ hw]
    rw [Nat.add_right_comm] at hts
    exact ⟨_, .leaf hw hts⟩

/-- A rewriting step backwards puts some neighbouring trees under one node. -/
theorem of_rewrites (hstep : Rewrites productions α β)
    (h : Forest productions tokens β i j ts) : ∃ us, Forest productions tokens α i j us := by
  obtain ⟨before, after, hp⟩ := hstep
  -- cut the forest where the right-hand side begins and where it ends
  obtain ⟨k, us, vs, -, hbefore, hrest⟩ := h.of_append
  obtain ⟨l, ws, xs, -, hchildren, hafter⟩ := hrest.of_append
  exact ⟨_, hbefore.append (.node hp hchildren hafter)⟩

end Forest

/-- Symbols derive a stretch of the tokens if there is a forest of them over it. -/
theorem derives_word_iff (hij : i ≤ j) (hj : j ≤ tokens.length) :
    Derives productions α (word tokens i j) ↔ ∃ ts, Forest productions tokens α i j ts := by
  constructor
  · intro h
    induction h using Relation.ReflTransGen.head_induction_on with
    | refl => exact Forest.of_word hij hj
    | head hstep _ ih =>
      obtain ⟨ts, hts⟩ := ih
      exact hts.of_rewrites hstep
  · rintro ⟨ts, hts⟩
    exact hts.derives

end ChartParsing
