/-
ChartParsing/Proofs/Rule/Proposals.lean

Which insertions a rule makes, one after the other.

A rule that runs under a cursor looks at each edge that the cursor delivers
and may propose an insertion for it; `Chart.WorksThrough` says which insertions
come of that, in order, while the cursor also reaches what they add.  A
proposal leads to one course only (`WorksThrough.unique`), and the sweep of the
fundamental rule is one (`worksThrough_of_exits`).

An index is only a shorter way: a cursor on all edges comes by the partners of
an edge in the same order, and if nothing is proposed for any other edge, the
insertions are the same (`WorksThrough.over_all`).
-/
import ChartParsing.Proofs.Rule.Apply

namespace ChartParsing

variable {L : Type} [Label L]

namespace Chart

/-! ### Charts with the same contents -/

/-- The charts differ in their indexes at most. -/
structure SameContents (c c' : Chart L) : Prop where
  tokens : c'.tokens = c.tokens
  entries : c'.entries = c.entries

namespace SameContents

variable {c c' d : Chart L}

theorem edges (h : SameContents c c') : c'.edges = c.edges := by
  rw [Chart.edges, h.entries, Chart.edges]

theorem size (h : SameContents c c') : c'.size = c.size := by
  rw [Chart.size, h.entries, Chart.size]

theorem edge (h : SameContents c c') (id : EdgeId) : c'.edge id = c.edge id := by
  rw [Chart.edge, Chart.edge, edge?, edge?, h.entries]

theorem cpls (h : SameContents c c') (id : EdgeId) : c'.cpls id = c.cpls id := by
  rw [Chart.cpls, Chart.cpls, h.entries]

theorem of_grows_nil (h : Grows c c' []) : SameContents c' c where
  tokens := h.tokens.symm
  entries := Array.ext_getElem? fun id => (h.unchanged id List.not_mem_nil).symm

variable [DecidableEq L]

/-- Insertions do not depend on indexes. -/
theorem insert (h : SameContents c c') {e : Edge L} {offered : List Pointers}
    {id? : Option EdgeId} (hinsert : c.insert e offered = .ok (d, id?)) :
    ∃ d', c'.insert e offered = .ok (d', id?) ∧ SameContents d d' := by
  have hid : c'.idOf? e = c.idOf? e := by
    rw [idOf?_eq_findIdx?, h.edges, idOf?_eq_findIdx?]
  by_cases he : e ∈ c.edges
  · obtain ⟨id, entry, hsome, hentry, -⟩ := exists_entry_of_mem he
    rw [insert_of_idOf? hsome hentry] at hinsert
    rw [insert_of_idOf? (hid.trans hsome) (h.entries ▸ hentry), h.size]
    split at hinsert
    · cases hinsert
    · split at hinsert
      · rename_i hall
        obtain ⟨rfl, rfl⟩ := Prod.mk.inj (Except.ok.inj hinsert)
        exact ⟨c', if_pos hall, h⟩
      · rename_i hnot
        obtain ⟨rfl, rfl⟩ := Prod.mk.inj (Except.ok.inj hinsert)
        refine ⟨_, if_neg hnot, h.tokens, ?_⟩
        rw [entries_justify, entries_justify, h.entries]
  · rw [insert_of_not_mem he] at hinsert
    rw [insert_of_not_mem (h.edges ▸ he), h.size]
    split at hinsert
    · rename_i hempty
      obtain ⟨rfl, rfl⟩ := Prod.mk.inj (Except.ok.inj hinsert)
      exact ⟨c', if_pos hempty, h⟩
    · rename_i hne
      rw [if_neg hne]
      split at hinsert
      · cases hinsert
      · obtain ⟨rfl, rfl⟩ := Prod.mk.inj (Except.ok.inj hinsert)
        refine ⟨_, rfl, h.tokens, ?_⟩
        rw [entries_append, entries_append, h.entries]

end SameContents

/-! ### Proposals -/

/-- The insertion that is proposed for an edge, if any is. -/
abbrev Proposal (L : Type) [Label L] :=
  Chart L → EdgeId → Except ChartError (Option (Edge L × List Pointers))

/-- Makes an insertion, if one has been proposed. -/
def makeProposed [DecidableEq L] (c : Chart L) :
    Option (Edge L × List Pointers) → Except ChartError (Chart L × List EdgeId)
  | none => .ok (c, [])
  | some o => do
    let (c, id?) ← c.insert o.1 o.2
    .ok (c, id?.toList)

/-- Makes the insertion that is proposed for an edge. -/
def acting [DecidableEq L] (propose : Proposal L) : Sweep.Act L := fun c id => do
  let proposed ← propose c id
  c.makeProposed proposed

/-- Going through the edges that the cursor delivers, those included that are
inserted on the way, these insertions are made, in this order, and lead to `c'`;
`changed` has the ids of those that change the chart. -/
inductive WorksThrough [DecidableEq L] (propose : Proposal L) :
    Chart L → Cursor → List (Edge L × List Pointers) → Chart L → List EdgeId → Prop
  | done {c cursor} : c.next? cursor = none → WorksThrough propose c cursor [] c []
  | skip {c cursor id cursor' offers c' changed} : c.next? cursor = some (id, cursor') →
      propose c id = .ok none → WorksThrough propose c cursor' offers c' changed →
      WorksThrough propose c cursor offers c' changed
  | insert {c cursor id cursor' o d id? offers c' changed} :
      c.next? cursor = some (id, cursor') → propose c id = .ok (some o) →
      c.insert o.1 o.2 = .ok (d, id?) → WorksThrough propose d cursor' offers c' changed →
      WorksThrough propose c cursor (o :: offers) c' (id?.toList ++ changed)

namespace WorksThrough

variable [DecidableEq L] {propose : Proposal L} {c c' c'' : Chart L} {cursor : Cursor}
  {offers offers' : List (Edge L × List Pointers)} {changed changed' : List EdgeId}

/-- There is one course that a proposal leads to. -/
theorem unique (h : WorksThrough propose c cursor offers c' changed)
    (h' : WorksThrough propose c cursor offers' c'' changed') :
    offers' = offers ∧ c'' = c' ∧ changed' = changed := by
  induction h generalizing offers' c'' changed' with
  | done hnext =>
    cases h' with
    | done => exact ⟨rfl, rfl, rfl⟩
    | skip hnext' => cases hnext.symm.trans hnext'
    | insert hnext' => cases hnext.symm.trans hnext'
  | skip hnext hpropose _ ih =>
    cases h' with
    | done hnext' => cases hnext.symm.trans hnext'
    | skip hnext' _ hrest =>
      cases hnext.symm.trans hnext'
      exact ih hrest
    | insert hnext' hpropose' =>
      cases hnext.symm.trans hnext'
      cases hpropose.symm.trans hpropose'
  | insert hnext hpropose hinsert _ ih =>
    cases h' with
    | done hnext' => cases hnext.symm.trans hnext'
    | skip hnext' hpropose' =>
      cases hnext.symm.trans hnext'
      cases hpropose.symm.trans hpropose'
    | insert hnext' hpropose' hinsert' hrest =>
      cases hnext.symm.trans hnext'
      cases hpropose.symm.trans hpropose'
      cases hinsert.symm.trans hinsert'
      obtain ⟨rfl, rfl, rfl⟩ := ih hrest
      exact ⟨rfl, rfl, rfl⟩

end WorksThrough

/-- A sweep that ends by itself has worked through its cursor. -/
theorem worksThrough_of_exits [DecidableEq L] {propose : Proposal L} {n : Nat} {s t : Sweep L}
    (h : Exits Sweep.pending (Sweep.advance (acting propose)) n s t) :
    ∃ offers changed, s.chart.WorksThrough propose s.cursor offers t.chart changed ∧
      t.changed.toList = s.changed.toList ++ changed := by
  obtain ⟨hrepeats, hexit⟩ := h
  induction hrepeats with
  | @zero s =>
    refine ⟨[], [], .done ?_, (List.append_nil _).symm⟩
    rwa [Sweep.pending, Option.isSome_eq_false_iff, Option.isNone_iff_eq_none] at hexit
  | @succ n s t u hmore hrun _ ih =>
    obtain ⟨offers, changed, hworks, hchanged⟩ := ih hexit
    obtain ⟨c, cursor, noted⟩ := s
    obtain ⟨⟨id, cursor'⟩, hnext⟩ := Option.isSome_iff_exists.1 hmore
    rw [Sweep.advance, hnext] at hrun
    obtain ⟨⟨d, more⟩, hact, hrun⟩ := exists_of_bind_eq_ok hrun
    obtain rfl := Except.ok.inj hrun
    obtain ⟨proposed, hpropose, hact⟩ := exists_of_bind_eq_ok hact
    cases proposed with
    | none =>
      obtain ⟨rfl, rfl⟩ := Prod.mk.inj (Except.ok.inj hact)
      refine ⟨offers, changed, .skip hnext hpropose hworks, ?_⟩
      rw [hchanged]
      simp
    | some o =>
      obtain ⟨⟨d', id?⟩, hinsert, hact⟩ := exists_of_bind_eq_ok hact
      obtain ⟨rfl, rfl⟩ := Prod.mk.inj (Except.ok.inj hact)
      refine ⟨o :: offers, id?.toList ++ changed, .insert hnext hpropose hinsert hworks, ?_⟩
      rw [hchanged]
      simp

/-! ### With an index and without -/

/-- The cursor on the scan and the one on all edges have delivered the same
edges of the scan: the one has delivered `j` of them, the other one the edges
with ids below `k`. -/
structure Aligned (cs : List Constraint) (c : Chart L) (j k : Nat) : Prop where
  le_size : k ≤ c.size
  lt_iff : ∀ m id : Nat, (c.scan cs)[m]? = some id → (m < j ↔ id < k)

theorem lt_of_getElem?_scan {cs : List Constraint} {c : Chart L} {m n id id' : Nat}
    (hid : (c.scan cs)[m]? = some id) (hid' : (c.scan cs)[n]? = some id') (h : m < n) :
    id < id' := by
  obtain ⟨hm, rfl⟩ := List.getElem?_eq_some_iff.1 hid
  obtain ⟨hn, rfl⟩ := List.getElem?_eq_some_iff.1 hid'
  exact List.pairwise_iff_getElem.1 (c.pairwise_scan cs) m n hm hn h

/-- Both cursors have just delivered the same edge. -/
theorem aligned_succ {cs : List Constraint} {c : Chart L} {j id : Nat}
    (hid : (c.scan cs)[j]? = some id) : Aligned cs c (j + 1) (id + 1) where
  le_size := by
    obtain ⟨e, he, -⟩ := mem_scan.1 (List.mem_of_getElem? hid)
    exact lt_size he
  lt_iff := by
    intro m id' hid'
    rcases Nat.lt_trichotomy m j with hlt | rfl | hgt
    · have hless := lt_of_getElem?_scan hid' hid hlt
      omega
    · obtain rfl := Option.some.inj (hid.symm.trans hid')
      omega
    · have hless := lt_of_getElem?_scan hid hid' hgt
      omega

/-- Between two edges that the cursor on the scan delivers there is none of the scan. -/
theorem Aligned.not_mem_scan {cs : List Constraint} {c : Chart L} {j k id : Nat}
    (h : Aligned cs c j k) (hk : k ≤ id)
    (hnext : ∀ next : Nat, (c.scan cs)[j]? = some next → id < next) : id ∉ c.scan cs := by
  intro hmem
  obtain ⟨m, hm⟩ := List.mem_iff_getElem?.1 hmem
  have hj : j ≤ m := by
    have := h.lt_iff m id hm
    omega
  -- the next edge of the scan comes no later than this one
  have hlt : j < (c.scan cs).length :=
    Nat.lt_of_le_of_lt hj (List.getElem?_eq_some_iff.1 hm).1
  have hget := List.getElem?_eq_getElem hlt
  have hbefore := hnext _ hget
  rcases Nat.lt_or_eq_of_le hj with hless | rfl
  · exact Nat.lt_asymm hbefore (lt_of_getElem?_scan hget hm hless)
  · exact Nat.ne_of_lt hbefore (Option.some.inj (hm.symm.trans hget))

theorem next?_all {c : Chart L} {k : Nat} (h : k < c.size) :
    c.next? ⟨.all, k⟩ = some (k, ⟨.all, k + 1⟩) :=
  next?_eq_some_iff.2 ⟨List.getElem?_range h, rfl⟩

namespace WorksThrough

variable [DecidableEq L] {propose propose' : Proposal L} {c c' d : Chart L} {cursor : Cursor}
  {offers : List (Edge L × List Pointers)} {changed : List EdgeId} {j k : Nat}

/-- A cursor on all edges passes by those for which nothing is proposed. -/
theorem of_later {n : Nat} (hle : k + n ≤ c.size)
    (hnone : ∀ id, k ≤ id → id < k + n → propose c id = .ok none)
    (h : WorksThrough propose c ⟨.all, k + n⟩ offers c' changed) :
    WorksThrough propose c ⟨.all, k⟩ offers c' changed := by
  induction n generalizing k with
  | zero => exact h
  | succ n ih =>
    refine .skip (next?_all (by omega)) (hnone k (Nat.le_refl k) (by omega)) (ih (by omega) ?_ ?_)
    · intro id hid hlt
      exact hnone id (by omega) (by omega)
    · rwa [Nat.add_right_comm, Nat.add_assoc]

/-- Where nothing is proposed for edges outside the scan, going through all
edges makes the insertions that going through the scan does. -/
theorem over_all {cs : List Constraint} {I : Chart L → Prop}
    (hinsert : ∀ (d d' : Chart L) (o : Edge L × List Pointers) id?, I d →
      d.insert o.1 o.2 = .ok (d', id?) → I d' ∧ Grows d d' id?.toList)
    (hscan : ∀ d d' id, I d → SameContents d d' → id ∈ d.scan cs → propose' d' id = propose d id)
    (hother : ∀ d d' id, I d → SameContents d d' → id < d.size → id ∉ d.scan cs →
      propose' d' id = .ok none)
    (h : WorksThrough propose c cursor offers c' changed) (hcursor : cursor = ⟨sourceOf cs, j⟩)
    (hI : I c) (hserves : c.Serves (sourceOf cs)) (hsame : SameContents c d)
    (haligned : Aligned cs c j k) :
    ∃ d', WorksThrough propose' d ⟨.all, k⟩ offers d' changed ∧ SameContents c' d' := by
  -- the cursor on all edges comes by the next edge of the scan, and skips what lies before it
  have harrive : ∀ {c d : Chart L} {j k id : Nat} {offers d' changed}, I c → SameContents c d →
      Aligned cs c j k → (c.scan cs)[j]? = some id →
      WorksThrough propose' d ⟨.all, id⟩ offers d' changed →
      WorksThrough propose' d ⟨.all, k⟩ offers d' changed := by
    intro c d j k id offers d' changed hI hsame haligned hid hrest
    obtain ⟨n, rfl⟩ := Nat.exists_eq_add_of_le
      (Nat.le_of_not_lt fun hlt => Nat.lt_irrefl j ((haligned.lt_iff j id hid).2 hlt))
    obtain ⟨e, he, -⟩ := mem_scan.1 (List.mem_of_getElem? hid)
    have hlt : k + n < c.size := lt_size he
    refine of_later (by rw [hsame.size]; omega) (fun id' hk hid' => ?_) hrest
    refine hother c d id' hI hsame (by omega) (haligned.not_mem_scan hk fun next hnext => ?_)
    obtain rfl := Option.some.inj (hid.symm.trans hnext)
    exact hid'
  induction h generalizing j k d with
  | @done c cursor hnext =>
    subst hcursor
    -- none of the edges that are left is in the scan
    have hnone : (c.scan cs)[j]? = none := by
      rw [next?_eq_none_iff, remaining, reached_sourceOf hserves] at hnext
      rw [List.getElem?_eq_none_iff]
      exact List.drop_eq_nil_iff.1 hnext
    obtain ⟨n, hn⟩ := Nat.exists_eq_add_of_le haligned.le_size
    refine ⟨d, of_later (n := n) (by rw [hsame.size, hn]) (fun id hk hlt => ?_) (.done ?_), hsame⟩
    · refine hother c d id hI hsame (by omega) (haligned.not_mem_scan hk fun next hnext => ?_)
      cases hnone.symm.trans hnext
    · rw [next?_eq_none_iff, remaining, reached, hsame.size, hn, List.drop_eq_nil_iff,
        List.length_range]
  | @skip c cursor id cursor' offers c' changed hnext hpropose _ ih =>
    subst hcursor
    obtain ⟨hid, rfl⟩ := next?_eq_some_iff.1 hnext
    rw [reached_sourceOf hserves] at hid
    have hmem := List.mem_of_getElem? hid
    obtain ⟨e, he, -⟩ := mem_scan.1 hmem
    obtain ⟨d', hworks, hsame'⟩ := ih rfl hI hserves hsame (aligned_succ hid)
    have hlt : id < d.size := hsame.size ▸ lt_size he
    have hpropose' := hscan c d id hI hsame hmem
    exact ⟨d', harrive hI hsame haligned hid
      (.skip (next?_all hlt) (hpropose'.trans hpropose) hworks), hsame'⟩
  | @insert c cursor id cursor' o d₁ id? offers c' changed hnext hpropose hins _ ih =>
    subst hcursor
    obtain ⟨hid, rfl⟩ := next?_eq_some_iff.1 hnext
    rw [reached_sourceOf hserves] at hid
    have hmem := List.mem_of_getElem? hid
    obtain ⟨e, he, -⟩ := mem_scan.1 hmem
    obtain ⟨hI₁, hgrows⟩ := hinsert c d₁ o id? hI hins
    obtain ⟨d₂, hins', hsame₁⟩ := hsame.insert hins
    -- what was inserted comes behind this edge, also in the scan
    have hid₁ : (d₁.scan cs)[j]? = some id := by
      obtain ⟨later, hlater⟩ := hgrows.scan_prefix cs
      rw [← hlater, List.getElem?_append_left (List.getElem?_eq_some_iff.1 hid).1, hid]
    obtain ⟨d', hworks, hsame'⟩ :=
      ih rfl hI₁ (hgrows.serves _ hserves) hsame₁ (aligned_succ hid₁)
    have hlt : id < d.size := hsame.size ▸ lt_size he
    have hpropose' := hscan c d id hI hsame hmem
    exact ⟨d', harrive hI hsame haligned hid
      (.insert (next?_all hlt) (hpropose'.trans hpropose) hins' hworks), hsame'⟩

end WorksThrough

end Chart

end ChartParsing
