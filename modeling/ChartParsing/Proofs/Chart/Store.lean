/-
ChartParsing/Proofs/Chart/Store.lean

What a chart holds, and what an insertion does to it.

A chart is read through two views: `c.edges`, the edges by id, and
`c.pointers id`, the child pointer lists of one edge.  Together they give the
relation that parsing is about:

    c.Justifies (e, es)

says that `e` is an edge of the chart, and that one of its lists names the
edges `es`, in order.

Two notions carry every later proof.

* `c.WellFormed`: edges are distinct, each has a list, and no list names an
  edge that the chart does not have.
* `Grows c c' changed`: `c'` has everything that `c` has, under the same ids,
  and differs from it exactly at the ids in `changed`.

Both are kept by insertion (`ChartParsing.Proofs.Chart.Insertion`), and so by
everything that fills a chart.
-/
import ChartParsing.Chart.Cursor
import ChartParsing.Proofs.Steps
import Mathlib.Algebra.GroupWithZero.Nat
import Mathlib.Data.List.Basic
import Mathlib.Data.List.Nodup

namespace ChartParsing

/-! ### Taking lists in -/

namespace Roster

variable {α : Type} [Ord α] [Std.TransOrd α] [Std.LawfulEqOrd α]

/-- Behind those that are there stand the newcomers, each where it came first. -/
theorem toList_enterAll [BEq α] [LawfulBEq α] (r : Roster α) (as : List α) :
    (r.enterAll as).toList = r.toList ++ (as.filter (· ∉ r.toList)).eraseDups := by
  have : DecidableEq α := instDecidableEqOfLawfulBEq
  induction as generalizing r with
  | nil => simp [enterAll]
  | cons a as ih =>
    have hstep : r.enterAll (a :: as) = (r.enter a).enterAll as := rfl
    rw [hstep, ih, toList_enter]
    by_cases ha : a ∈ r.toList
    · rw [if_pos ha, List.filter_cons_of_neg (by simpa using ha)]
    · have hfilter : as.filter (· ∉ r.toList ++ [a]) =
          (as.filter (· ∉ r.toList)).filter fun b => !b == a := by
        rw [List.filter_filter]
        refine List.filter_congr fun b _ => ?_
        by_cases hb : b = a <;> simp [hb]
      rw [if_neg ha, List.filter_cons_of_pos (by simpa using ha), List.eraseDups_cons, hfilter,
        List.append_assoc, List.singleton_append]

variable [DecidableEq α]

theorem mem_toList_enterAll (r : Roster α) (as : List α) (b : α) :
    b ∈ (r.enterAll as).toList ↔ b ∈ r.toList ∨ b ∈ as := by
  rw [toList_enterAll]
  by_cases hb : b ∈ r.toList <;> simp [List.mem_eraseDups, hb]

theorem toList_prefix_enterAll (r : Roster α) (as : List α) :
    r.toList <+: (r.enterAll as).toList := by
  rw [toList_enterAll]
  exact List.prefix_append _ _

theorem toList_length_lt_enterAll {r : Roster α} {as : List α} {a : α} (ha : a ∈ as)
    (hnew : a ∉ r.toList) : r.toList.length < (r.enterAll as).toList.length := by
  have hle := r.toList_prefix_enterAll as
  refine Nat.lt_of_le_of_ne hle.length_le fun heq => hnew ?_
  rw [hle.eq_of_length heq]
  exact (r.mem_toList_enterAll as a).2 (.inr ha)

end Roster

namespace Chart

variable {L : Type} [Label L]

/-! ### Views -/

/-- The child pointer lists of an edge, in order of discovery; none where there is no edge. -/
def pointers (c : Chart L) (id : EdgeId) : List Pointers :=
  match c.entries[id]? with
  | some entry => entry.cpls.toList
  | none => []

/-- The edge is in the chart, justified by a list that names these edges. -/
def Justifies (c : Chart L) (x : Edge L × List (Edge L)) : Prop :=
  ∃ id, c.edges[id]? = some x.1 ∧ ∃ p ∈ c.pointers id, p.map (c.edges[·]?) = x.2.map some

theorem getElem?_edges (c : Chart L) (id : EdgeId) :
    c.edges[id]? = c.entries[id]?.map Entry.edge := by
  simp [edges]

theorem lt_size_iff {c : Chart L} {id : EdgeId} : id < c.size ↔ ∃ e, c.edges[id]? = some e := by
  rw [size_eq_length_edges]
  constructor
  · intro h
    exact ⟨c.edges[id], List.getElem?_eq_getElem h⟩
  · rintro ⟨e, he⟩
    exact (List.getElem?_eq_some_iff.1 he).1

theorem lt_size {c : Chart L} {id : EdgeId} {e : Edge L} (h : c.edges[id]? = some e) :
    id < c.size :=
  lt_size_iff.2 ⟨e, h⟩

theorem edge_eq_ok {c : Chart L} {id : EdgeId} {e : Edge L} (h : c.edges[id]? = some e) :
    c.edge id = .ok e := by
  rw [edge, edge?_eq_getElem?, h]

theorem getElem?_of_edge_eq_ok {c : Chart L} {id : EdgeId} {e : Edge L} (h : c.edge id = .ok e) :
    c.edges[id]? = some e := by
  rw [edge, edge?_eq_getElem?] at h
  cases he : c.edges[id]? with
  | none =>
    rw [he] at h
    cases h
  | some e' =>
    rw [he] at h
    exact congrArg some (Except.ok.inj h)

/-- The entry of an edge holds the edge and the lists that justify it. -/
theorem exists_entry_of_edge {c : Chart L} {id : EdgeId} {e : Edge L} (h : c.edges[id]? = some e) :
    ∃ cpls, c.entries[id]? = some ⟨e, cpls⟩ ∧ c.pointers id = cpls.toList := by
  rw [getElem?_edges] at h
  obtain ⟨⟨e', cpls⟩, hentry, rfl⟩ := Option.map_eq_some_iff.1 h
  exact ⟨cpls, hentry, by rw [pointers, hentry]⟩

theorem pointers_of_le_size {c : Chart L} {id : EdgeId} (h : c.size ≤ id) : c.pointers id = [] := by
  rw [pointers, Array.getElem?_eq_none h]

theorem cpls_eq_ok {c : Chart L} {id : EdgeId} (h : id < c.size) :
    c.cpls id = .ok (c.pointers id) := by
  have hentry : c.entries[id]? = some c.entries[id] := Array.getElem?_eq_getElem h
  rw [cpls, pointers, hentry]

theorem countPointers_eq_sum (c : Chart L) :
    c.countPointers = (c.entries.toList.map fun entry => entry.cpls.toList.length).sum := by
  rw [countPointers, ← Array.foldl_toList]
  -- the fold adds to what it begins with
  have hfold : ∀ (entries : List (Entry L)) (n : Nat),
      entries.foldl (fun n entry => n + entry.cpls.size) n =
        n + (entries.map fun entry => entry.cpls.toList.length).sum := by
    intro entries
    induction entries with
    | nil => simp
    | cons entry rest ih =>
      intro n
      rw [List.foldl_cons, ih, List.map_cons, List.sum_cons, Roster.size_eq_length_toList,
        Nat.add_assoc]
  rw [hfold, Nat.zero_add]

/-- The lists are counted edge by edge. -/
theorem countPointers_eq_sum_range (c : Chart L) :
    c.countPointers = ((List.range c.size).map fun id => (c.pointers id).length).sum := by
  rw [countPointers_eq_sum]
  refine congrArg List.sum (List.ext_getElem? fun i => ?_)
  simp only [List.getElem?_map, Array.getElem?_toList]
  by_cases hi : i < c.size
  · have hentry : c.entries[i]? = some c.entries[i] := Array.getElem?_eq_getElem hi
    rw [List.getElem?_range hi, Option.map_some, pointers, hentry]
    rfl
  · rw [Array.getElem?_eq_none (Nat.le_of_not_lt hi), List.getElem?_eq_none (by simpa using hi)]
    rfl

/-! ### Well-formed charts -/

/-- Edges are distinct and justified, and lists name edges of the chart. -/
structure WellFormed (c : Chart L) : Prop where
  nodup : c.edges.Nodup
  justified : ∀ id < c.size, c.pointers id ≠ []
  child_lt : ∀ id, ∀ p ∈ c.pointers id, ∀ child ∈ p, child < c.size

theorem wellFormed_new (tokens : List String) : (new tokens : Chart L).WellFormed where
  nodup := List.nodup_nil
  justified := fun _ h => absurd h (Nat.not_lt_zero _)
  child_lt := fun id p hp => by
    rw [pointers_of_le_size (Nat.zero_le id)] at hp
    cases hp

/-- An edge has one id. -/
theorem WellFormed.id_unique {c : Chart L} (h : c.WellFormed) {i j : EdgeId} {e : Edge L}
    (hi : c.edges[i]? = some e) (hj : c.edges[j]? = some e) : i = j := by
  obtain ⟨hlt, -⟩ := List.getElem?_eq_some_iff.1 hi
  exact (List.getElem?_inj hlt h.nodup).1 (hi.trans hj.symm)

/-- The edges of a list, for the ids of a list. -/
theorem WellFormed.children {c : Chart L} (h : c.WellFormed) {id : EdgeId} {p : Pointers}
    (hp : p ∈ c.pointers id) : ∃ es : List (Edge L), p.map (c.edges[·]?) = es.map some := by
  have hall : ∀ child ∈ p, ∃ e, c.edges[child]? = some e := fun child hchild =>
    lt_size_iff.1 (h.child_lt id p hp child hchild)
  -- from here on only the ids matter, not where the list stands
  clear hp
  induction p with
  | nil => exact ⟨[], rfl⟩
  | cons child p ih =>
    obtain ⟨e, he⟩ := hall child List.mem_cons_self
    obtain ⟨es, hes⟩ := ih fun child hchild => hall child (List.mem_cons_of_mem _ hchild)
    exact ⟨e :: es, by rw [List.map_cons, List.map_cons, he, hes]⟩

/-- The edges of a well-formed chart are those that it justifies. -/
theorem WellFormed.mem_edges_iff {c : Chart L} (h : c.WellFormed) {e : Edge L} :
    e ∈ c.edges ↔ ∃ es, c.Justifies (e, es) := by
  constructor
  · intro he
    obtain ⟨id, hid⟩ := List.mem_iff_getElem?.1 he
    obtain ⟨p, hp⟩ := List.exists_mem_of_ne_nil _ (h.justified id (lt_size hid))
    obtain ⟨es, hes⟩ := h.children hp
    exact ⟨es, id, hid, p, hp, hes⟩
  · rintro ⟨es, id, hid, -⟩
    exact List.mem_of_getElem? hid

/-! ### Growing charts -/

/-- Whether the chart can serve a cursor on this source: an index, once asked for, stays. -/
def Serves (c : Chart L) : Source → Prop
  | .all => True
  | .bucket attributes _ => (c.index? attributes).isSome = true

/-- While the ids below `n` are known, each of these ids is a known one or the
next one, which is then known as well; in the end those below `m` are. -/
inductive Introduces : Nat → List EdgeId → Nat → Prop
  | nil {n} : Introduces n [] n
  | known {n id ids m} : id < n → Introduces n ids m → Introduces n (id :: ids) m
  | next {n ids m} : Introduces (n + 1) ids m → Introduces n (n :: ids) m

namespace Introduces

variable {n m k : Nat} {ids ids' : List EdgeId}

theorem append (h : Introduces n ids m) (h' : Introduces m ids' k) :
    Introduces n (ids ++ ids') k := by
  induction h with
  | nil => exact h'
  | known hlt _ ih => exact .known hlt (ih h')
  | next _ ih => exact .next (ih h')

/-- Each id comes first right behind the one below it. -/
theorem eraseDups_filter (h : Introduces n ids m) :
    n ≤ m ∧ (ids.filter (n ≤ ·)).eraseDups = List.range' n (m - n) := by
  induction h with
  | nil => simp
  | @known n id ids m hlt _ ih =>
    rw [List.filter_cons_of_neg (by simpa using hlt)]
    exact ih
  | @next n ids m _ ih =>
    obtain ⟨hle, hrest⟩ := ih
    have hlength : m - n = m - (n + 1) + 1 := by omega
    -- behind its first place, the id itself counts among the known ones
    have hfilter : (ids.filter (n ≤ ·)).filter (fun id => !id == n) = ids.filter (n + 1 ≤ ·) := by
      rw [List.filter_filter]
      refine List.filter_congr fun id _ => ?_
      rw [Bool.eq_iff_iff]
      simp
      omega
    refine ⟨by omega, ?_⟩
    rw [List.filter_cons_of_pos (by simp), List.eraseDups_cons, hfilter, hrest, hlength,
      List.range'_succ]

/-- No id is introduced without being mentioned. -/
theorem le_add_length (h : Introduces n ids m) : m ≤ n + ids.length := by
  induction h with
  | nil => exact Nat.le_refl _
  | known _ _ ih =>
    rw [List.length_cons]
    omega
  | next _ ih =>
    rw [List.length_cons]
    omega

end Introduces

/-- `c'` has all that `c` has under the same ids, and differs from it at the
ids in `changed`: these edges are new or have gained lists, the new ones in
the order of their ids. -/
structure Grows (c c' : Chart L) (changed : List EdgeId) : Prop where
  tokens : c'.tokens = c.tokens
  edges : c.edges <+: c'.edges
  pointers : ∀ id, c.pointers id <+: c'.pointers id
  unchanged : ∀ id, id ∉ changed → c'.entries[id]? = c.entries[id]?
  gained : ∀ id ∈ changed, (c.pointers id).length < (c'.pointers id).length
  count : c.countPointers + changed.length ≤ c'.countPointers
  introduces : Introduces c.size changed c'.size
  serves : ∀ source, c.Serves source → c'.Serves source

namespace Grows

variable {c c' c'' : Chart L} {changed changed' : List EdgeId}

theorem refl (c : Chart L) : Grows c c [] where
  tokens := rfl
  edges := List.prefix_refl _
  pointers := fun _ => List.prefix_refl _
  unchanged := fun _ _ => rfl
  gained := fun _ h => nomatch h
  count := Nat.le_refl _
  introduces := .nil
  serves := fun _ h => h

theorem trans (h : Grows c c' changed) (h' : Grows c' c'' changed') :
    Grows c c'' (changed ++ changed') where
  tokens := h'.tokens.trans h.tokens
  edges := h.edges.trans h'.edges
  pointers := fun id => (h.pointers id).trans (h'.pointers id)
  unchanged := by
    intro id hid
    rw [List.mem_append, not_or] at hid
    rw [h'.unchanged id hid.2, h.unchanged id hid.1]
  gained := by
    intro id hid
    have hle := (h.pointers id).length_le
    have hle' := (h'.pointers id).length_le
    rcases List.mem_append.1 hid with hid | hid
    · exact Nat.lt_of_lt_of_le (h.gained id hid) hle'
    · exact Nat.lt_of_le_of_lt hle (h'.gained id hid)
  count := by
    have := h.count
    have := h'.count
    rw [List.length_append]
    omega
  introduces := h.introduces.append h'.introduces
  serves := fun source hs => h'.serves source (h.serves source hs)

theorem getElem? (h : Grows c c' changed) {id : EdgeId} {e : Edge L}
    (he : c.edges[id]? = some e) : c'.edges[id]? = some e := by
  obtain ⟨rest, hrest⟩ := h.edges
  obtain ⟨hlt, -⟩ := List.getElem?_eq_some_iff.1 he
  rw [← hrest, List.getElem?_append_left hlt, he]

theorem mem_edges (h : Grows c c' changed) {e : Edge L} (he : e ∈ c.edges) : e ∈ c'.edges :=
  h.edges.subset he

theorem size_le (h : Grows c c' changed) : c.size ≤ c'.size := by
  rw [size_eq_length_edges, size_eq_length_edges]
  exact h.edges.length_le

theorem lt_size_of_mem (h : Grows c c' changed) {id : EdgeId} (hid : id ∈ changed) :
    id < c'.size := by
  have hgained := h.gained id hid
  by_contra hge
  rw [pointers_of_le_size (c := c') (Nat.le_of_not_lt hge)] at hgained
  cases hgained

/-- A list names the edges that it named. -/
theorem map_getElem? (h : Grows c c' changed) {p : Pointers}
    (hp : ∀ child ∈ p, child < c.size) : p.map (c'.edges[·]?) = p.map (c.edges[·]?) := by
  refine List.map_congr_left fun child hchild => ?_
  obtain ⟨e, he⟩ := lt_size_iff.1 (hp child hchild)
  rw [he, h.getElem? he]

/-- What is justified stays so. -/
theorem justifies (h : Grows c c' changed) {x : Edge L × List (Edge L)} (hx : c.Justifies x) :
    c'.Justifies x := by
  obtain ⟨id, hid, p, hp, hmap⟩ := hx
  refine ⟨id, h.getElem? hid, p, (h.pointers id).subset hp, ?_⟩
  rw [← hmap]
  refine h.map_getElem? fun child hchild => ?_
  -- the list named an edge at each child already
  have hsome : c.edges[child]? ∈ x.2.map some := hmap ▸ List.mem_map_of_mem hchild
  obtain ⟨e, -, he⟩ := List.mem_map.1 hsome
  exact lt_size he.symm

theorem pointers_eq (h : Grows c c' changed) {id : EdgeId} (hid : id ∉ changed) :
    c'.pointers id = c.pointers id := by
  rw [Chart.pointers, Chart.pointers, h.unchanged id hid]

theorem getElem?_eq (h : Grows c c' changed) {id : EdgeId} (hid : id ∉ changed) :
    c'.edges[id]? = c.edges[id]? := by
  rw [getElem?_edges, getElem?_edges, h.unchanged id hid]

/-- A chart that has grown nowhere holds what it held. -/
theorem justifies_iff_of_nil (h : Grows c c' []) {x : Edge L × List (Edge L)} :
    c'.Justifies x ↔ c.Justifies x := by
  have hedges : ∀ id, c'.edges[id]? = c.edges[id]? := fun id => h.getElem?_eq List.not_mem_nil
  have hpointers : ∀ id, c'.pointers id = c.pointers id :=
    fun id => h.pointers_eq List.not_mem_nil
  simp only [Justifies, hedges, hpointers]

end Grows

end Chart

end ChartParsing
