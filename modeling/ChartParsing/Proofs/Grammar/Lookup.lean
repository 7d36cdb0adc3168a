/-
ChartParsing/Proofs/Grammar/Lookup.lean

Looking productions up is going through the grammar.

`ProductionIndex.ofList` goes through the productions once and files the place
of each.  What holds of the files at every moment is that they are those of
the productions filed so far (`ProductionIndex.Files`): filing one production
more keeps it (`Files.file`), and so it holds at the end (`files_ofList`).
Picking what is stored at the places filed is then searching for it
(`pick_findIdxs`).  What is found under the key of a first symbol is thus the
sublist of the productions whose right-hand side starts with a symbol of that
key (`withFirst_ofList`), and likewise for left-hand sides.  A token is covered
if it is a terminal of some right-hand side (`covers_ofList_iff`).  Together
the lookups find what a search through all productions would, and those by
first symbols, with the empty productions, miss none and find none twice
(`findsAsSearched_ofList`).

The coverage check fails on the first token that is not covered
(`checkCoverage_eq_error_iff`).
-/
import ChartParsing.Grammar
import Mathlib.Data.List.Basic
import Mathlib.Data.List.Induction

namespace ChartParsing

/-- What has no key, and what has this key or that, is everything, and each
once, if every key that occurs is among the given ones. -/
theorem perm_of_keys {α κ : Type} [DecidableEq κ] (key? : α → Option κ) {keys : List κ}
    (hkeys : keys.Nodup) {as : List α} (hall : ∀ a ∈ as, ∀ k, key? a = some k → k ∈ keys) :
    ((as.filter fun a => key? a == none) ++
      keys.flatMap fun k => as.filter fun a => key? a == some k).Perm as := by
  induction keys generalizing as with
  | nil =>
    have hnone : ∀ a ∈ as, key? a = none := fun a ha =>
      Option.eq_none_iff_forall_not_mem.2 fun k hk => nomatch hall a ha k hk
    rw [List.flatMap_nil, List.append_nil, List.filter_eq_self.2 (by simpa using hnone)]
  | cons k keys ih =>
    obtain ⟨hk, hkeys⟩ := List.nodup_cons.1 hkeys
    -- nothing but what has the key `k` is missing from the others
    let others := as.filter fun a => !(key? a == some k)
    have hnone : (others.filter fun a => key? a == none) = as.filter fun a => key? a == none := by
      rw [List.filter_filter]
      refine List.filter_congr fun a _ => ?_
      cases key? a <;> rfl
    have hsame : (keys.flatMap fun k' => others.filter fun a => key? a == some k') =
        keys.flatMap fun k' => as.filter fun a => key? a == some k' := by
      refine List.flatMap_congr fun k' hk' => ?_
      rw [List.filter_filter]
      refine List.filter_congr fun a _ => ?_
      have hne : k' ≠ k := fun h => hk (h ▸ hk')
      by_cases ha : key? a = some k' <;> simp [ha, hne]
    have hothers : ∀ a ∈ others, ∀ k', key? a = some k' → k' ∈ keys := by
      intro a ha k' hk'
      obtain ⟨ha, hne⟩ := List.mem_filter.1 ha
      refine (List.mem_cons.1 (hall a ha k' hk')).resolve_left ?_
      rintro rfl
      simp [hk'] at hne
    have hrest := ih hkeys hothers
    rw [hnone, hsame] at hrest
    calc List.Perm _ ((as.filter fun a => key? a == some k) ++
          ((as.filter fun a => key? a == none) ++
            keys.flatMap fun k' => as.filter fun a => key? a == some k')) := by
          rw [List.flatMap_cons]
          exact List.perm_append_comm_assoc ..
      List.Perm _ ((as.filter fun a => key? a == some k) ++ others) := hrest.append_left _
      List.Perm _ as := List.filter_append_perm _ _

theorem findIdxs_concat {α : Type} (q : α → Bool) (as : List α) (a : α) :
    (as ++ [a]).findIdxs q =
      if q a = true then as.findIdxs q ++ [as.length] else as.findIdxs q := by
  rw [List.findIdxs_append, List.findIdxs_singleton, Nat.zero_add]
  split
  · rfl
  · rw [List.append_nil]

/-- What is known after some tokens have been learned. -/
theorem mem_foldl_insert (token : String) (tokens : List String) (known : Std.TreeSet String) :
    token ∈ tokens.foldl (fun known t => known.insert t) known ↔
      token ∈ known ∨ token ∈ tokens := by
  induction tokens generalizing known with
  | nil => simp
  | cons t tokens ih =>
    rw [List.foldl_cons, ih, Std.TreeSet.mem_insert, Std.LawfulEqOrd.compare_eq_iff_eq,
      List.mem_cons, ← or_assoc, or_comm (a := t = token), eq_comm (a := t)]

namespace ProductionIndex

variable {L : Type}

/-- Picking at the places of what satisfies `q` is searching for it. -/
theorem pick_findIdxs {index : ProductionIndex L} {productions : List (Production L)}
    (hstored : index.stored.toList = productions) (q : Production L → Bool) :
    index.pick (productions.findIdxs q) = productions.filter q := by
  have hentry : ∀ entry ∈ productions.zipIdx,
      ((bif q entry.1 then some entry.2 else none).bind fun place => index.stored[place]?) =
        bif q entry.1 then some entry.1 else none := by
    rintro ⟨p, place⟩ hentry
    have hp : index.stored[place]? = some p := by
      rw [← Array.getElem?_toList, hstored]
      exact List.mem_zipIdx_iff_getElem?.1 hentry
    cases q p
    · rfl
    · exact hp
  calc index.pick (productions.findIdxs q)
      = productions.zipIdx.filterMap fun entry =>
          (bif q entry.1 then some entry.2 else none).bind fun place => index.stored[place]? := by
        rw [List.findIdxs_eq_filterMap_zipIdx, pick, List.filterMap_filterMap]
    _ = productions.zipIdx.filterMap fun entry => bif q entry.1 then some entry.1 else none :=
        List.filterMap_congr hentry
    _ = (productions.zipIdx.map Prod.fst).filterMap fun p => bif q p then some p else none := by
        rw [List.filterMap_map]
        rfl
    _ = productions.filter q := by
        rw [List.zipIdx_map_fst, ← List.filterMap_eq_filter]
        refine List.filterMap_congr fun p _ => ?_
        cases hq : q p <;> simp [Option.guard, hq]

variable [Label L]

/-- The key of the first symbol of a right-hand side, if there is one. -/
abbrev firstKey? (p : Production L) : Option Symbol := p.rhs.head?.map Label.key

/-- The index files the productions: each is stored at its place, and that
place is filed, in order, wherever the production is to be found. -/
structure Files (productions : List (Production L)) (index : ProductionIndex L) : Prop where
  stored : index.stored.toList = productions
  byLhs : ∀ key, index.byLhs.get key = productions.findIdxs fun p => Label.key p.lhs == key
  byFirst : ∀ key, index.byFirst.get key = productions.findIdxs fun p => firstKey? p == some key
  emptyAt : index.emptyAt.toList = productions.findIdxs fun p => firstKey? p == none
  lexicon : ∀ token, token ∈ index.lexicon ↔
    ∃ p ∈ productions, ∃ l ∈ p.rhs, Label.token? l = some token

theorem files_empty : Files [] (empty : ProductionIndex L) where
  stored := rfl
  byLhs := fun _ => Buckets.get_empty _
  byFirst := fun _ => Buckets.get_empty _
  emptyAt := rfl
  lexicon := fun _ => by simp [empty]

/-! ### Filing one production more -/

section File

variable (index : ProductionIndex L) (p : Production L) (place : Nat)

theorem stored_file : (index.file (p, place)).stored = index.stored.push p := by
  simp only [file, store, learn, fileFirst, fileLhs]
  split <;> rfl

theorem get_byLhs_file (key : Symbol) : (index.file (p, place)).byLhs.get key =
    if Label.key p.lhs = key then index.byLhs.get key ++ [place] else index.byLhs.get key := by
  rw [← Buckets.get_push]
  simp only [file, store, learn, fileFirst, fileLhs]
  split <;> rfl

theorem get_byFirst_file (key : Symbol) : (index.file (p, place)).byFirst.get key =
    if firstKey? p = some key then index.byFirst.get key ++ [place] else index.byFirst.get key := by
  simp only [file, store, learn, fileFirst, fileLhs, firstKey?]
  split
  · rename_i first hfirst
    simp only [hfirst, Option.map_some, Option.some.injEq, Buckets.get_push]
  · rename_i hnone
    simp only [hnone, Option.map_none, reduceCtorEq, if_false]

theorem emptyAt_file : (index.file (p, place)).emptyAt.toList =
    if firstKey? p = none then index.emptyAt.toList ++ [place] else index.emptyAt.toList := by
  simp only [file, store, learn, fileFirst, fileLhs, firstKey?]
  split
  · rename_i first hfirst
    simp only [hfirst, Option.map_some, reduceCtorEq, if_false]
  · rename_i hnone
    simp only [hnone, Option.map_none, if_true, Array.toList_push]

theorem mem_lexicon_file (token : String) : token ∈ (index.file (p, place)).lexicon ↔
    token ∈ index.lexicon ∨ ∃ l ∈ p.rhs, Label.token? l = some token := by
  have hlexicon : (index.fileFirst p place).lexicon = index.lexicon := by
    rw [fileFirst]
    split <;> rfl
  have hfile : (index.file (p, place)).lexicon =
      (tokens p.rhs).foldl (fun known t => known.insert t) index.lexicon := by
    simp only [file, store, learn, fileFirst, fileLhs]
    split <;> rfl
  rw [hfile, mem_foldl_insert, tokens, List.mem_filterMap]

end File

/-- Filing the next production, at the next place, keeps the files as they should be. -/
theorem Files.file {productions : List (Production L)} {index : ProductionIndex L}
    (h : Files productions index) (p : Production L) :
    Files (productions ++ [p]) (index.file (p, productions.length)) where
  stored := by rw [stored_file, Array.toList_push, h.stored]
  byLhs := by
    intro key
    rw [get_byLhs_file, h.byLhs, findIdxs_concat]
    simp only [beq_iff_eq]
  byFirst := by
    intro key
    rw [get_byFirst_file, h.byFirst, findIdxs_concat]
    simp only [beq_iff_eq]
  emptyAt := by
    rw [emptyAt_file, h.emptyAt, findIdxs_concat]
    simp only [beq_iff_eq]
  lexicon := by
    intro token
    rw [mem_lexicon_file, h.lexicon]
    simp only [List.mem_append, List.mem_singleton, or_and_right, exists_or, exists_eq_left]

/-- Going once through the productions files them all. -/
theorem files_ofList (productions : List (Production L)) :
    Files productions (ofList productions) := by
  induction productions using List.reverseRecOn with
  | nil => exact files_empty
  | append_singleton productions p ih =>
    have hlast : ofList (productions ++ [p]) =
        (ofList productions).file (p, productions.length) := by
      rw [ofList, List.zipIdx_append, List.foldl_append]
      simp only [Nat.zero_add]
      rfl
    rw [hlast]
    exact ih.file p

/-! ### Looking up what was filed -/

namespace Files

variable {productions : List (Production L)} {index : ProductionIndex L}
  (h : Files productions index)

include h

theorem withLhs (key : Symbol) :
    index.withLhs key = productions.filter fun p => Label.key p.lhs == key := by
  rw [ProductionIndex.withLhs, h.byLhs, pick_findIdxs h.stored]

theorem withFirst (key : Symbol) :
    index.withFirst key = productions.filter fun p => firstKey? p == some key := by
  rw [ProductionIndex.withFirst, h.byFirst, pick_findIdxs h.stored]

theorem empties : index.empties = productions.filter fun p => firstKey? p == none := by
  rw [ProductionIndex.empties, h.emptyAt, pick_findIdxs h.stored]

/-- Every place filed is that of a production. -/
theorem lt_size (key : Symbol) (place : Nat)
    (hplace : place ∈ index.byLhs.get key ++ index.byFirst.get key ++ index.emptyAt.toList) :
    place < index.stored.size := by
  have hbelow : ∀ q : Production L → Bool, place ∈ productions.findIdxs q →
      place < index.stored.size := by
    intro q hq
    rw [← Array.length_toList, h.stored]
    exact List.lt_add_of_mem_findIdxs place hq
  rw [h.byLhs, h.byFirst, h.emptyAt] at hplace
  rcases List.mem_append.1 hplace with hplace | hempty
  · rcases List.mem_append.1 hplace with hlhs | hfirst
    · exact hbelow _ hlhs
    · exact hbelow _ hfirst
  · exact hbelow _ hempty

theorem covers_iff (token : String) : index.covers token = true ↔
    ∃ p ∈ productions, ∃ l ∈ p.rhs, Label.token? l = some token := by
  rw [covers, ← Std.TreeSet.mem_iff_contains, h.lexicon]

end Files

@[simp] theorem all_ofList (productions : List (Production L)) :
    (ofList productions).all = productions := (files_ofList productions).stored

/-- The productions whose left-hand side has this key. -/
theorem withLhs_ofList (productions : List (Production L)) (key : Symbol) :
    (ofList productions).withLhs key = productions.filter fun p => Label.key p.lhs == key :=
  (files_ofList productions).withLhs key

/-- The productions whose right-hand side starts with a label of this key. -/
theorem withFirst_ofList (productions : List (Production L)) (key : Symbol) :
    (ofList productions).withFirst key =
      productions.filter fun p => p.rhs.head?.map Label.key == some key :=
  (files_ofList productions).withFirst key

theorem mem_withFirst_ofList {productions : List (Production L)} {key : Symbol}
    {p : Production L} :
    p ∈ (ofList productions).withFirst key ↔
      p ∈ productions ∧ ∃ first, p.rhs[0]? = some first ∧ Label.key first = key := by
  rw [withFirst_ofList, List.mem_filter, beq_iff_eq, Option.map_eq_some_iff,
    List.head?_eq_getElem?]

/-- A covered token is a terminal of some right-hand side. -/
theorem covers_ofList_iff {productions : List (Production L)} {token : String} :
    (ofList productions).covers token = true ↔
      ∃ p ∈ productions, ∃ l ∈ p.rhs, Label.token? l = some token :=
  (files_ofList productions).covers_iff token

/-- The empty productions are those without a first symbol. -/
theorem empties_ofList (productions : List (Production L)) :
    (ofList productions).empties = productions.filter Production.isEmpty := by
  rw [(files_ofList productions).empties]
  refine List.filter_congr fun p _ => ?_
  rw [Production.isEmpty, firstKey?]
  cases p.rhs <;> rfl

/-- Each lookup finds, in grammar order, what a search through the productions would find. -/
structure FindsAsSearched (productions : List (Production L)) (index : ProductionIndex L) :
    Prop where
  all : index.all = productions
  withLhs : ∀ key, index.withLhs key = productions.filter fun p => Label.key p.lhs == key
  withFirst : ∀ key, index.withFirst key =
    productions.filter fun p => p.rhs.head?.map Label.key == some key
  empties : index.empties = productions.filter fun p => p.rhs.isEmpty
  /-- Every place filed is that of a production, so that no lookup runs into a gap. -/
  stored : ∀ key, ∀ place ∈ index.byLhs.get key ++ index.byFirst.get key ++ index.emptyAt.toList,
    place < index.stored.size
  /-- Every production is found in one place only. -/
  found : ∀ p ∈ productions,
    (p ∈ index.empties ∧ ∀ key, p ∉ index.withFirst key) ∨
      (p ∉ index.empties ∧ ∃! key, p ∈ index.withFirst key)
  /-- And there as often as the grammar has it. -/
  perm : ∀ keys : List Symbol, keys.Nodup →
    (∀ p ∈ productions, ∀ first, p.rhs.head? = some first → Label.key first ∈ keys) →
      (index.empties ++ keys.flatMap index.withFirst).Perm productions
  covers : ∀ token, index.covers token = true ↔
    ∃ p ∈ productions, ∃ l ∈ p.rhs, Label.token? l = some token

/-- Whatever the productions, with repetitions, empty sides and terminals
anywhere, the lookups find what a search would. -/
theorem findsAsSearched_ofList (productions : List (Production L)) :
    FindsAsSearched productions (ofList productions) where
  all := all_ofList productions
  withLhs := withLhs_ofList productions
  withFirst := withFirst_ofList productions
  empties := empties_ofList productions
  stored := (files_ofList productions).lt_size
  found := by
    intro p hp
    have hfiles := files_ofList productions
    simp only [hfiles.empties, hfiles.withFirst, List.mem_filter, hp, true_and, beq_iff_eq]
    cases firstKey? p with
    | none => exact .inl ⟨rfl, fun key h => nomatch h⟩
    | some key =>
      refine .inr ⟨(fun h => nomatch h), key, rfl, fun key' h => ?_⟩
      exact (Option.some.inj h).symm
  perm := by
    intro keys hkeys hall
    have hfiles := files_ofList productions
    rw [hfiles.empties, funext hfiles.withFirst]
    refine perm_of_keys _ hkeys fun p hp key hkey => ?_
    obtain ⟨first, hfirst, rfl⟩ := Option.map_eq_some_iff.1 hkey
    exact hall p hp first hfirst
  covers := (files_ofList productions).covers_iff

end ProductionIndex

namespace Grammar

variable {L : Type} [Label L]

/-- The lookups are those among the grammar's own productions. -/
def Indexed (g : Grammar L) : Prop := g.index = .ofList g.productions

@[simp] theorem productions_ofList (start : L) (productions : List (Production L)) :
    (ofList start productions).productions = productions := ProductionIndex.all_ofList productions

theorem indexed_ofList (start : L) (productions : List (Production L)) :
    (ofList start productions).Indexed := by
  rw [Indexed, productions_ofList]
  rfl

omit [Label L] in
theorem checkCoverage_eq_ok_iff {g : Grammar L} {tokens : List String} :
    g.checkCoverage tokens = .ok () ↔ ∀ t ∈ tokens, g.index.covers t = true := by
  rw [checkCoverage]
  split
  · rename_i token position hfind
    have hmem := List.mem_of_find?_eq_some hfind
    have hnot := List.find?_some hfind
    simp only [Bool.not_eq_true'] at hnot
    -- the token that was found is not covered
    refine ⟨fun h => (by cases h), fun hall => ?_⟩
    have htoken : token ∈ tokens := List.fst_mem_of_mem_zipIdx hmem
    rw [hall token htoken] at hnot
    cases hnot
  · rename_i hnone
    refine ⟨fun _ t ht => ?_, fun _ => rfl⟩
    obtain ⟨i, hi⟩ := List.mem_iff_getElem?.1 ht
    have hpair := List.find?_eq_none.1 hnone (t, i) (List.mem_zipIdx_iff_getElem?.2 hi)
    simpa using hpair

omit [Label L] in
/-- The check fails on the first token that is not covered, and names its position. -/
theorem checkCoverage_eq_error_iff {g : Grammar L} {tokens : List String} {x : ChartError} :
    g.checkCoverage tokens = .error x ↔ ∃ t i, x = .uncoveredToken t i ∧ tokens[i]? = some t ∧
      g.index.covers t = false ∧
        ∀ (j : Nat) (t' : String), j < i → tokens[j]? = some t' → g.index.covers t' = true := by
  have hfind : ∀ t i, (tokens.zipIdx.find? fun p => !g.index.covers p.1) = some (t, i) ↔
      tokens[i]? = some t ∧ g.index.covers t = false ∧
        ∀ (j : Nat) (t' : String), j < i → tokens[j]? = some t' → g.index.covers t' = true := by
    intro t i
    rw [List.find?_eq_some_iff_getElem]
    simp only [Bool.not_eq_true', List.length_zipIdx, List.getElem_zipIdx, Nat.zero_add,
      Prod.mk.injEq, Bool.not_not]
    constructor
    · rintro ⟨hnot, k, hk, ⟨htoken, rfl⟩, hbefore⟩
      refine ⟨List.getElem?_eq_some_iff.2 ⟨hk, htoken⟩, hnot, fun j t' hj ht' => ?_⟩
      obtain ⟨-, rfl⟩ := List.getElem?_eq_some_iff.1 ht'
      exact hbefore j hj
    · rintro ⟨htoken, hnot, hbefore⟩
      obtain ⟨hi, htoken⟩ := List.getElem?_eq_some_iff.1 htoken
      refine ⟨hnot, i, hi, ⟨htoken, rfl⟩, fun j hj => ?_⟩
      exact hbefore j _ hj (List.getElem?_eq_getElem (Nat.lt_trans hj hi))
  rw [checkCoverage]
  split
  · rename_i t i hsome
    constructor
    · intro h
      exact ⟨t, i, (Except.error.inj h).symm, (hfind t i).1 hsome⟩
    · rintro ⟨t', i', rfl, hfirst⟩
      obtain ⟨rfl, rfl⟩ := Prod.mk.inj (Option.some.inj (hsome.symm.trans ((hfind t' i').2 hfirst)))
      rfl
  · rename_i hnone
    refine ⟨fun h => (by cases h), ?_⟩
    rintro ⟨t, i, -, hfirst⟩
    cases hnone.symm.trans ((hfind t i).2 hfirst)

end Grammar

end ChartParsing
