/-
ChartParsing/Proofs/Chart/Insertion.lean

What one insertion does to a chart.

A successful insertion keeps a chart well formed and lets it grow at one edge
at most; afterwards that edge has its old lists and the offered ones, and
every other edge has the lists that it had (`Inserted`, `insert_inserted`).
In terms of what is justified:

    c'.Justifies x  ↔  c.Justifies x, or x is the edge with an offered list

(`Inserted.justifies_iff`).  An insertion succeeds if no offered list names an
id beyond the edges there will be (`insert_succeeds`).
-/
import ChartParsing.Proofs.Chart.Store

namespace ChartParsing

namespace Chart

variable {L : Type} [Label L]

/-! ### The two ways to change a chart -/

theorem entries_append (c : Chart L) (e : Edge L) (cpls : Roster Pointers) :
    (c.append e cpls).entries = c.entries.push ⟨e, cpls⟩ := rfl

theorem entries_justify (c : Chart L) (id : EdgeId) (cpls : Roster Pointers) :
    (c.justify id cpls).entries = c.entries.modify id fun entry => { entry with cpls } := rfl

theorem size_append (c : Chart L) (e : Edge L) (cpls : Roster Pointers) :
    (c.append e cpls).size = c.size + 1 := by
  rw [size, entries_append, Array.size_push, size]

theorem size_justify (c : Chart L) (id : EdgeId) (cpls : Roster Pointers) :
    (c.justify id cpls).size = c.size := by
  rw [size_eq_length_edges, edges_justify, ← size_eq_length_edges]

theorem pointers_append (c : Chart L) (e : Edge L) (cpls : Roster Pointers) (id : EdgeId) :
    (c.append e cpls).pointers id = if id = c.size then cpls.toList else c.pointers id := by
  rw [pointers, pointers, entries_append, Array.getElem?_push]
  by_cases h : id = c.entries.size <;> simp [h, size]

theorem pointers_justify {c : Chart L} {id : EdgeId} (hid : id < c.size) (cpls : Roster Pointers)
    (id' : EdgeId) :
    (c.justify id cpls).pointers id' = if id' = id then cpls.toList else c.pointers id' := by
  rw [pointers, pointers, entries_justify, Array.getElem?_modify]
  by_cases h : id' = id
  · subst h
    have hentry : c.entries[id']? = some c.entries[id'] := Array.getElem?_eq_getElem hid
    simp [hentry]
  · simp [h, Ne.symm h]

theorem index?_append (c : Chart L) (e : Edge L) (cpls : Roster Pointers)
    (attributes : List Attribute) :
    (c.append e cpls).index? attributes =
      (c.index? attributes).map fun index => index.add c.size e := by
  have hindexes : (c.append e cpls).indexes = c.indexes.map fun index => index.add c.size e := rfl
  rw [index?, hindexes, List.find?_map]
  rfl

/-- A new edge that something justifies. -/
theorem grows_append (c : Chart L) (e : Edge L) {cpls : Roster Pointers} (h : cpls.toList ≠ []) :
    Grows c (c.append e cpls) [c.size] where
  tokens := rfl
  edges := by
    rw [edges_append]
    exact List.prefix_append _ _
  pointers := by
    intro id
    rw [pointers_append]
    split
    · rename_i hid
      rw [pointers_of_le_size (Nat.le_of_eq hid.symm)]
      exact List.nil_prefix
    · exact List.prefix_refl _
  unchanged := by
    intro id hid
    rw [List.mem_singleton] at hid
    rw [entries_append, Array.getElem?_push]
    exact if_neg hid
  gained := by
    intro id hid
    rw [List.mem_singleton] at hid
    rw [pointers_append, if_pos hid, pointers_of_le_size (Nat.le_of_eq hid.symm)]
    exact List.length_pos_of_ne_nil h
  count := by
    have hpos := List.length_pos_of_ne_nil h
    rw [countPointers_eq_sum, countPointers_eq_sum, entries_append, Array.toList_push,
      List.map_append, List.sum_append]
    simp only [List.map_cons, List.map_nil, List.sum_cons, List.sum_nil, List.length_singleton]
    omega
  introduces := by
    rw [size_append]
    exact .next .nil
  serves := by
    rintro (_ | ⟨attributes, values⟩) hs
    · exact hs
    · rw [Serves, index?_append, Option.isSome_map]
      exact hs

omit [Label L] in
theorem sum_length_modify (entries : List (Entry L)) {id : EdgeId} {entry : Entry L}
    (h : entries[id]? = some entry) (cpls : Roster Pointers) :
    ((entries.modify id fun entry => { entry with cpls }).map
        fun entry => entry.cpls.toList.length).sum + entry.cpls.toList.length =
      (entries.map fun entry => entry.cpls.toList.length).sum + cpls.toList.length := by
  induction entries generalizing id with
  | nil => cases h
  | cons first rest ih =>
    cases id with
    | zero =>
      obtain rfl := Option.some.inj h
      simp only [List.modify_zero_cons, List.map_cons, List.sum_cons]
      omega
    | succ id =>
      have hrest := @ih id (by simpa using h)
      simp only [List.modify_succ_cons, List.map_cons, List.sum_cons]
      omega

/-- A known edge that gains lists. -/
theorem grows_justify {c : Chart L} {id : EdgeId} {entry : Entry L} {cpls : Roster Pointers}
    (hentry : c.entries[id]? = some entry) (hkept : entry.cpls.toList <+: cpls.toList)
    (hlt : entry.cpls.toList.length < cpls.toList.length) :
    Grows c (c.justify id cpls) [id] := by
  have hid : id < c.size := by
    obtain ⟨h, -⟩ := Array.getElem?_eq_some_iff.1 hentry
    exact h
  have hold : c.pointers id = entry.cpls.toList := by rw [pointers, hentry]
  exact
    { tokens := rfl
      edges := edges_justify c id cpls ▸ List.prefix_refl c.edges
      pointers := by
        intro id'
        rw [pointers_justify hid]
        split
        · rename_i h
          rw [h, hold]
          exact hkept
        · exact List.prefix_refl _
      unchanged := by
        intro id' hid'
        rw [List.mem_singleton] at hid'
        rw [entries_justify, Array.getElem?_modify, if_neg (Ne.symm hid')]
      gained := by
        intro id' hid'
        rw [List.mem_singleton] at hid'
        rw [pointers_justify hid, if_pos hid', hid', hold]
        exact hlt
      count := by
        -- only the changed entry counts differently
        have hsum := sum_length_modify c.entries.toList (by simpa using hentry) cpls
        rw [countPointers_eq_sum, countPointers_eq_sum, entries_justify, Array.toList_modify,
          List.length_singleton]
        omega
      introduces := by
        rw [size_justify]
        exact .known hid .nil
      serves := fun source hs => by
        cases source with
        | all => exact hs
        | bucket attributes values => exact hs }

/-! ### Finding the edge -/

variable [DecidableEq L]

theorem idOf?_eq_none_iff (c : Chart L) (e : Edge L) : c.idOf? e = none ↔ e ∉ c.edges := by
  rw [idOf?_eq_findIdx?, List.findIdx?_eq_none_iff]
  constructor
  · intro h he
    simpa using h e he
  · intro h f hf
    rw [beq_eq_false_iff_ne]
    rintro rfl
    exact h hf

theorem getElem?_of_idOf? {c : Chart L} {e : Edge L} {id : EdgeId} (h : c.idOf? e = some id) :
    c.edges[id]? = some e := by
  rw [idOf?_eq_findIdx?] at h
  obtain ⟨hlt, heq, -⟩ := List.findIdx?_eq_some_iff_getElem.1 h
  rw [List.getElem?_eq_getElem hlt, eq_of_beq heq]

/-- In a well-formed chart an edge is found where it is, and nowhere else. -/
theorem WellFormed.idOf?_eq_some_iff {c : Chart L} (h : c.WellFormed) {e : Edge L}
    {id : EdgeId} : c.idOf? e = some id ↔ c.edges[id]? = some e := by
  constructor
  · exact getElem?_of_idOf?
  · intro he
    have hne : c.idOf? e ≠ none := fun hnone =>
      (c.idOf?_eq_none_iff e).1 hnone (List.mem_of_getElem? he)
    obtain ⟨id', hid'⟩ := Option.ne_none_iff_exists'.1 hne
    rw [hid', h.id_unique (getElem?_of_idOf? hid') he]

/-- The entry of an edge that the chart has. -/
theorem exists_entry_of_mem {c : Chart L} {e : Edge L} (he : e ∈ c.edges) :
    ∃ (id : EdgeId) (entry : Entry L),
      c.idOf? e = some id ∧ c.entries[id]? = some entry ∧ entry.edge = e := by
  have hsome : c.idOf? e ≠ none := fun hnone => (c.idOf?_eq_none_iff e).1 hnone he
  obtain ⟨id, hid⟩ := Option.ne_none_iff_exists'.1 hsome
  have hedge := getElem?_of_idOf? hid
  obtain ⟨cpls, hentry, -⟩ := exists_entry_of_edge hedge
  exact ⟨id, ⟨e, cpls⟩, hid, hentry, rfl⟩

/-! ### Insertion -/

/-- Inserting an edge that the chart does not have. -/
theorem insert_of_not_mem {c : Chart L} {e : Edge L} (he : e ∉ c.edges)
    (offered : List Pointers) :
    c.insert e offered =
      if offered.isEmpty then .ok (c, none)
      else
        match dangling? (c.size + 1) offered with
        | some child => .error (.danglingChild child)
        | none => .ok (c.append e (Roster.empty.enterAll offered), some c.size) := by
  rewrite [insert, (c.idOf?_eq_none_iff e).2 he]
  rfl

/-- Inserting an edge that the chart has. -/
theorem insert_of_idOf? {c : Chart L} {e : Edge L} {id : EdgeId} {entry : Entry L}
    (hid : c.idOf? e = some id) (hentry : c.entries[id]? = some entry) (offered : List Pointers) :
    c.insert e offered =
      match dangling? c.size offered with
      | some child => .error (.danglingChild child)
      | none =>
        if offered.all entry.cpls.contains then .ok (c, none)
        else .ok (c.justify id (entry.cpls.enterAll offered), some id) := by
  rewrite [insert, hid]
  dsimp only
  rewrite [hentry]
  rfl

/-- The outcome of inserting `e` with the lists `offered`. -/
structure Inserted (c : Chart L) (e : Edge L) (offered : List Pointers) (c' : Chart L)
    (id? : Option EdgeId) : Prop where
  wellFormed : c'.WellFormed
  grows : Grows c c' id?.toList
  mem_edges : ∀ x, x ∈ c'.edges ↔ x ∈ c.edges ∨ (x = e ∧ offered ≠ [])
  mem_pointers : ∀ id p, p ∈ c'.pointers id ↔
    p ∈ c.pointers id ∨ (c'.edges[id]? = some e ∧ p ∈ offered)

theorem lt_of_dangling?_eq_none {limit : Nat} {offered : List Pointers}
    (h : dangling? limit offered = none) : ∀ p ∈ offered, ∀ child ∈ p, child < limit := by
  intro p hp child hchild
  have hnot := List.find?_eq_none.1 h child (List.mem_flatten.2 ⟨p, hp, hchild⟩)
  simpa using hnot

theorem dangling?_eq_none {limit : Nat} {offered : List Pointers}
    (h : ∀ p ∈ offered, ∀ child ∈ p, child < limit) : dangling? limit offered = none := by
  refine List.find?_eq_none.2 fun child hchild => ?_
  obtain ⟨p, hp, hmem⟩ := List.mem_flatten.1 hchild
  simpa using h p hp child hmem

omit [DecidableEq L] in
/-- Offering nothing new leaves the chart as it is. -/
theorem inserted_same {c : Chart L} (hwf : c.WellFormed) {e : Edge L} {offered : List Pointers}
    (hold : ∀ p ∈ offered, ∃ id, c.edges[id]? = some e ∧ p ∈ c.pointers id) :
    Inserted c e offered c none where
  wellFormed := hwf
  grows := Grows.refl c
  mem_edges := by
    intro x
    refine ⟨Or.inl, ?_⟩
    rintro (hx | ⟨rfl, hne⟩)
    · exact hx
    · obtain ⟨p, hp⟩ := List.exists_mem_of_ne_nil _ hne
      obtain ⟨id, hid, -⟩ := hold p hp
      exact List.mem_of_getElem? hid
  mem_pointers := by
    intro id p
    refine ⟨Or.inl, ?_⟩
    rintro (hp | ⟨hid, hp⟩)
    · exact hp
    · obtain ⟨id', hid', hp'⟩ := hold p hp
      rwa [hwf.id_unique hid hid']

omit [DecidableEq L] in
/-- A new edge with lists that name edges of the chart, or the edge itself. -/
theorem inserted_append {c : Chart L} (hwf : c.WellFormed) {e : Edge L} (hnew : e ∉ c.edges)
    {offered : List Pointers} (hne : offered ≠ [])
    (hlt : ∀ p ∈ offered, ∀ child ∈ p, child < c.size + 1) :
    Inserted c e offered (c.append e (Roster.empty.enterAll offered)) (some c.size) := by
  have hmem : ∀ p, p ∈ (Roster.empty.enterAll offered).toList ↔ p ∈ offered := by
    intro p
    rw [Roster.mem_toList_enterAll, Roster.toList_empty]
    simp
  have hlists : (Roster.empty.enterAll offered).toList ≠ [] := by
    obtain ⟨p, hp⟩ := List.exists_mem_of_ne_nil _ hne
    exact List.ne_nil_of_mem ((hmem p).2 hp)
  have hgrows := grows_append c e hlists
  have hlast : (c.append e (Roster.empty.enterAll offered)).edges[c.size]? = some e := by
    rw [edges_append, size_eq_length_edges, List.getElem?_append_right (Nat.le_refl _)]
    simp
  have hsize := c.size_append e (Roster.empty.enterAll offered)
  refine ⟨⟨?_, ?_, ?_⟩, hgrows, ?_, ?_⟩
  · -- distinct edges
    rw [edges_append]
    exact List.nodup_append.2 ⟨hwf.nodup, List.nodup_singleton e, by
      rintro x hx y hy rfl
      rw [List.mem_singleton] at hy
      exact hnew (hy ▸ hx)⟩
  · -- every edge justified
    intro id hid
    rw [pointers_append]
    split
    · exact hlists
    · rename_i hid'
      rw [hsize] at hid
      exact hwf.justified id (Nat.lt_of_le_of_ne (Nat.le_of_lt_succ hid) hid')
  · -- no dangling child
    intro id p hp child hchild
    rw [hsize]
    rw [pointers_append] at hp
    split at hp
    · exact hlt p ((hmem p).1 hp) child hchild
    · exact Nat.lt_succ_of_lt (hwf.child_lt id p hp child hchild)
  · intro x
    simp [edges_append, hne]
  · intro id p
    rw [pointers_append]
    split
    · rename_i hid
      rw [hid, hlast, pointers_of_le_size (Nat.le_refl _), hmem]
      simp
    · rename_i hid
      constructor
      · exact Or.inl
      · rintro (hp | ⟨hid', -⟩)
        · exact hp
        · -- the new edge has one place only
          rw [edges_append, List.getElem?_append] at hid'
          split at hid'
          · exact absurd (List.mem_of_getElem? hid') hnew
          · rename_i hle
            have hlast := (List.getElem?_eq_some_iff.1 hid').1
            rw [← size_eq_length_edges] at hle hlast
            have hsub : id - c.size = 0 := Nat.lt_one_iff.1 hlast
            exact absurd (Nat.le_antisymm (Nat.le_of_sub_eq_zero hsub) (Nat.not_lt.1 hle)) hid

omit [DecidableEq L] in
/-- A known edge with lists that name edges of the chart, one of them new. -/
theorem inserted_justify {c : Chart L} (hwf : c.WellFormed) {id : EdgeId} {entry : Entry L}
    (hentry : c.entries[id]? = some entry) {offered : List Pointers}
    (hnew : ∃ p ∈ offered, p ∉ entry.cpls.toList)
    (hlt : ∀ p ∈ offered, ∀ child ∈ p, child < c.size) :
    Inserted c entry.edge offered (c.justify id (entry.cpls.enterAll offered)) (some id) := by
  obtain ⟨fresh, hfresh, hnotin⟩ := hnew
  have hedge : c.edges[id]? = some entry.edge := by rw [getElem?_edges, hentry]; rfl
  have hid : id < c.size := lt_size hedge
  have hold : c.pointers id = entry.cpls.toList := by rw [pointers, hentry]
  have hgrows := grows_justify hentry (entry.cpls.toList_prefix_enterAll offered)
    (Roster.toList_length_lt_enterAll hfresh hnotin)
  refine ⟨⟨?_, ?_, ?_⟩, hgrows, ?_, ?_⟩
  · rw [edges_justify]
    exact hwf.nodup
  -- the edge keeps a list, and so does every other
  · intro id' hid'
    rw [pointers_justify hid]
    split
    · exact List.ne_nil_of_mem ((Roster.mem_toList_enterAll _ _ fresh).2 (.inr hfresh))
    · exact hwf.justified id' (size_justify c id _ ▸ hid')
  · intro id' p hp child hchild
    rw [size_justify]
    rw [pointers_justify hid] at hp
    split at hp
    · rcases (Roster.mem_toList_enterAll _ _ p).1 hp with hp | hp
      · exact hwf.child_lt id p (hold ▸ hp) child hchild
      · exact hlt p hp child hchild
    · exact hwf.child_lt id' p hp child hchild
  · intro x
    rw [edges_justify]
    refine ⟨Or.inl, ?_⟩
    rintro (hx | ⟨rfl, -⟩)
    · exact hx
    · exact List.mem_of_getElem? hedge
  · intro id' p
    rw [pointers_justify hid, edges_justify]
    split
    · rename_i h
      rw [h, hold, Roster.mem_toList_enterAll, hedge]
      simp
    · rename_i h
      refine ⟨Or.inl, ?_⟩
      rintro (hp | ⟨hid', -⟩)
      · exact hp
      -- only one place holds the edge
      · exact absurd (hwf.id_unique hid' hedge) h

/-- What a successful insertion does. -/
theorem insert_inserted {c c' : Chart L} {id? : Option EdgeId} (hwf : c.WellFormed) {e : Edge L}
    {offered : List Pointers} (h : c.insert e offered = .ok (c', id?)) :
    Inserted c e offered c' id? := by
  by_cases he : e ∈ c.edges
  · obtain ⟨id, entry, hid, hentry, rfl⟩ := exists_entry_of_mem he
    rw [insert_of_idOf? hid hentry] at h
    split at h
    · cases h
    · rename_i hdangling
      split at h
      · -- nothing new is offered
        rename_i hall
        obtain ⟨rfl, rfl⟩ := Prod.mk.inj (Except.ok.inj h)
        refine inserted_same hwf fun p hp => ⟨id, getElem?_of_idOf? hid, ?_⟩
        rw [pointers, hentry]
        exact (entry.cpls.contains_iff_mem p).1 (List.all_eq_true.1 hall p hp)
      · rename_i hnot
        obtain ⟨rfl, rfl⟩ := Prod.mk.inj (Except.ok.inj h)
        refine inserted_justify hwf hentry ?_ (lt_of_dangling?_eq_none hdangling)
        -- if all offered lists were there, nothing new would be offered
        by_contra hnone
        refine hnot (List.all_eq_true.2 fun p hp => (entry.cpls.contains_iff_mem p).2 ?_)
        exact Classical.byContradiction fun hp' => hnone ⟨p, hp, hp'⟩
  · rw [insert_of_not_mem he] at h
    split at h
    · -- a new edge that nothing justifies
      rename_i hempty
      obtain ⟨rfl, rfl⟩ := Prod.mk.inj (Except.ok.inj h)
      rw [List.isEmpty_iff] at hempty
      subst hempty
      exact inserted_same hwf fun _ hp => absurd hp List.not_mem_nil
    · rename_i hne
      rw [List.isEmpty_iff] at hne
      split at h
      · cases h
      · rename_i hdangling
        obtain ⟨rfl, rfl⟩ := Prod.mk.inj (Except.ok.inj h)
        exact inserted_append hwf he hne (lt_of_dangling?_eq_none hdangling)

/-- An insertion succeeds if its lists name edges of the chart. -/
theorem insert_succeeds (c : Chart L) (e : Edge L) {offered : List Pointers}
    (hlt : ∀ p ∈ offered, ∀ child ∈ p, child < c.size) : ∃ r, c.insert e offered = .ok r := by
  by_cases he : e ∈ c.edges
  · obtain ⟨id, entry, hid, hentry, -⟩ := exists_entry_of_mem he
    rw [insert_of_idOf? hid hentry, dangling?_eq_none hlt]
    dsimp only
    split
    · exact ⟨_, rfl⟩
    · exact ⟨_, rfl⟩
  · have hnone : dangling? (c.size + 1) offered = none :=
      dangling?_eq_none fun p hp child hchild => Nat.lt_succ_of_lt (hlt p hp child hchild)
    rw [insert_of_not_mem he, hnone]
    split
    · exact ⟨_, rfl⟩
    · exact ⟨_, rfl⟩

namespace Inserted

variable {c c' : Chart L} {e : Edge L} {offered : List Pointers} {id? : Option EdgeId}

omit [DecidableEq L] in
/-- An insertion justifies the edge by the offered lists, and nothing else. -/
theorem justifies_iff (hwf : c.WellFormed) (h : Inserted c e offered c' id?)
    {x : Edge L × List (Edge L)} :
    c'.Justifies x ↔
      c.Justifies x ∨
        (x.1 = e ∧ ∃ p ∈ offered, p.map (c'.edges[·]?) = x.2.map some) := by
  constructor
  · rintro ⟨id, hid, p, hp, hmap⟩
    rcases (h.mem_pointers id p).1 hp with hold | ⟨hid', hoffered⟩
    · refine .inl ⟨id, ?_, p, hold, ?_⟩
      · -- the list is old, so its edge is
        have hlt : id < c.size := by
          by_contra hge
          rw [pointers_of_le_size (Nat.not_lt.1 hge)] at hold
          cases hold
        obtain ⟨e', he'⟩ := lt_size_iff.1 hlt
        rw [he', ← hid, h.grows.getElem? he']
      · rw [← hmap]
        exact (h.grows.map_getElem? (hwf.child_lt id p hold)).symm
    · exact .inr ⟨Option.some.inj (hid.symm.trans hid'), p, hoffered, hmap⟩
  · rintro (hx | ⟨hxe, p, hp, hmap⟩)
    · exact h.grows.justifies hx
    · have hmem : e ∈ c'.edges := (h.mem_edges e).2 (.inr ⟨rfl, List.ne_nil_of_mem hp⟩)
      obtain ⟨id, hid⟩ := List.mem_iff_getElem?.1 hmem
      exact ⟨id, by rw [hid, hxe], p, (h.mem_pointers id p).2 (.inr ⟨hid, hp⟩), hmap⟩

end Inserted

/-! ### Charts built by insertions -/

/-- The charts that successful insertions lead to. -/
inductive Built : Chart L → Prop
  | new (tokens : List String) : Built (.new tokens)
  | insert {c c' : Chart L} {e : Edge L} {offered : List Pointers} {id? : Option EdgeId} :
      Built c → c.insert e offered = .ok (c', id?) → Built c'

theorem Built.wellFormed {c : Chart L} (h : c.Built) : c.WellFormed := by
  induction h with
  | new tokens => exact wellFormed_new tokens
  | insert _ hinsert ih => exact (insert_inserted ih hinsert).wellFormed

end Chart

end ChartParsing
