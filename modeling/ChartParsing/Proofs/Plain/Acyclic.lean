/-
ChartParsing/Proofs/Plain/Acyclic.lean

Derivation trees in which nothing runs in a circle.

A node of a derivation tree applies a production over a span.  Both can be
read off the tree, the production from the labels of the node and its
children, the span from the number of tokens before it and below it.  A tree
is acyclic if on no way down from its root a production is applied twice over
one span.
-/
import ChartParsing.Proofs.Plain.Derivation
import Mathlib.Data.List.Nodup

namespace ChartParsing

/-- A production applied over a span. -/
abbrev Step := Production Symbol × Nat × Nat

namespace Tree

/-- The symbol at the root. -/
def root : Tree Symbol → Symbol
  | leaf w => .terminal w
  | node A _ => A

/-- What a node applies, if its first token stands at position `i`. -/
def step (A : Symbol) (ts : List (Tree Symbol)) (i : Nat) : Step :=
  (⟨A, ts.map root⟩, i, i + (leavesOf ts).length)

mutual

/-- What is applied on each way down a tree, if its first token stands at position `i`. -/
def paths : Tree Symbol → Nat → List (List Step)
  | leaf _, _ => [[]]
  | node A [], i => [[step A [] i]]
  | node A (t :: ts), i => (pathsOf (t :: ts) i).map (step A (t :: ts) i :: ·)

/-- What is applied on each way down several trees. -/
def pathsOf : List (Tree Symbol) → Nat → List (List Step)
  | [], _ => []
  | t :: ts, i => t.paths i ++ pathsOf ts (i + t.leaves.length)

end

/-- On no way down the tree a production is applied twice over one span. -/
def Acyclic (t : Tree Symbol) (i : Nat) : Prop := ∀ path ∈ t.paths i, path.Nodup

/-- On no way down anything is applied twice, counting what is applied above. -/
def Clear (above : List Step) (paths : List (List Step)) : Prop :=
  ∀ path ∈ paths, path.Nodup ∧ ∀ s ∈ path, s ∉ above

variable {above : List Step} {A : Symbol} {t : Tree Symbol} {ts : List (Tree Symbol)} {i : Nat}

theorem acyclic_iff : t.Acyclic i ↔ Clear [] (t.paths i) :=
  forall₂_congr fun _ _ => ⟨fun h => ⟨h, fun _ _ => List.not_mem_nil⟩, fun h => h.1⟩

theorem paths_ne_nil : (t : Tree Symbol) → (i : Nat) → t.paths i ≠ []
  | leaf _, _ => List.cons_ne_nil _ _
  | node _ [], _ => List.cons_ne_nil _ _
  | node A (t :: ts), i => by
    rw [paths, pathsOf]
    intro h
    rw [List.map_eq_nil_iff, List.append_eq_nil_iff] at h
    exact paths_ne_nil t i h.1

theorem clear_leaf (w : String) : Clear above ((leaf w).paths i) := by
  intro path hpath
  rw [paths, List.mem_singleton] at hpath
  rw [hpath]
  exact ⟨List.nodup_nil, fun _ h => nomatch h⟩

theorem clear_append {paths paths' : List (List Step)} :
    Clear above (paths ++ paths') ↔ Clear above paths ∧ Clear above paths' :=
  List.forall_mem_append

/-- Below a node its own step counts as well. -/
theorem clear_node : Clear above ((node A ts).paths i) ↔
    step A ts i ∉ above ∧ Clear (step A ts i :: above) (pathsOf ts i) := by
  cases ts with
  | nil =>
    rw [paths, pathsOf]
    constructor
    · exact fun h => ⟨(h _ List.mem_cons_self).2 _ List.mem_cons_self, fun _ h => nomatch h⟩
    · rintro ⟨hstep, -⟩ path hpath
      rw [List.mem_singleton.1 hpath]
      refine ⟨List.nodup_singleton _, fun s hs => ?_⟩
      rwa [List.mem_singleton.1 hs]
  | cons t ts =>
    rw [paths]
    constructor
    · intro h
      constructor
      -- some way leads down, and the step of the node is on it
      · obtain ⟨path, hpath⟩ := List.exists_mem_of_ne_nil _ (t.paths_ne_nil i)
        have hmem : path ∈ pathsOf (t :: ts) i := List.mem_append_left _ hpath
        exact (h _ (List.mem_map_of_mem hmem)).2 _ List.mem_cons_self
      · intro path hpath
        obtain ⟨hnodup, hoff⟩ := h _ (List.mem_map_of_mem hpath)
        obtain ⟨hnot, hnodup⟩ := List.nodup_cons.1 hnodup
        refine ⟨hnodup, fun s hs hmem => ?_⟩
        rcases List.mem_cons.1 hmem with rfl | hmem
        · exact hnot hs
        · exact hoff s (List.mem_cons_of_mem _ hs) hmem
    · rintro ⟨hstep, h⟩ path hpath
      obtain ⟨rest, hrest, rfl⟩ := List.mem_map.1 hpath
      obtain ⟨hnodup, hoff⟩ := h rest hrest
      refine ⟨List.nodup_cons.2 ⟨fun hmem => hoff _ hmem List.mem_cons_self, hnodup⟩, ?_⟩
      intro s hs
      rcases List.mem_cons.1 hs with rfl | hs
      · exact hstep
      · exact fun hmem => hoff s hs (List.mem_cons_of_mem _ hmem)

end Tree

/-! ### What is read off a forest -/

namespace Forest

variable {productions : List (Production Symbol)} {tokens : List String} {α : List Symbol}
  {ts : List (Tree Symbol)} {i j : Nat}

theorem map_root (h : Forest productions tokens α i j ts) : ts.map Tree.root = α := by
  induction h with
  | nil => rfl
  | leaf _ _ ih => rw [List.map_cons, ih, Tree.root]
  | node _ _ _ _ ih => rw [List.map_cons, ih, Tree.root]

/-- As many tokens are at the leaves as the forest spans. -/
theorem stop_eq (h : Forest productions tokens α i j ts) :
    i + (Tree.leavesOf ts).length = j := by
  induction h with
  | nil => rfl
  | leaf _ _ ih =>
    rw [Tree.leavesOf, List.length_append, Tree.leaves, List.length_singleton]
    omega
  | node _ _ _ ih ih' =>
    rw [Tree.leavesOf, List.length_append, Tree.leaves]
    omega

end Forest

end ChartParsing
