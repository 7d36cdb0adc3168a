/-
ChartParsing/Proofs/Tree/Visit.lean

What a visit finds, whatever has been marked before.

A result may be both too small and too large.  It lacks the trees through the
edges of the path that the visit came upon, and it may have trees through
other edges of the path, taken over from results that were kept.  What is
right about it is what is left of it when all trees through the *blockers*
are dropped, the edges of the path from the reported depth on
(`Chart.Finds`).  To drop more is always right as well (`Finds.mono`), so
findings with different blockers can be put together.

A visit that came upon nothing above it has no blockers, and its result is
right as it stands.  Only such results are kept (`Chart.Marked`).

A leaf past the tokens ends a visit.  A visit that does not end so has gone by
no such leaf, unless behind a blocker (`Chart.Strays`).
-/
import ChartParsing.Proofs.Tree.Avoiding
import Mathlib.Data.Finset.Dedup
import Mathlib.Logic.Relation

namespace ChartParsing

variable {L : Type} [Label L] {α β : Type}

/-! ### Visits that end -/

/-- The visit ends within its depth: with an answer as `P` says, or with the
complaint that an edge as `E` says is not in the chart. -/
def Ends (m : ExceptT ChartError Option α) (P : α → Prop) (E : EdgeId → Prop) : Prop :=
  (∃ a, m.run = some (.ok a) ∧ P a) ∨ ∃ x, m.run = some (.error (.edgeNotInChart x)) ∧ E x

namespace Ends

variable {m : ExceptT ChartError Option α} {f : α → ExceptT ChartError Option β}
  {P P' : α → Prop} {Q : β → Prop} {E E' : EdgeId → Prop}

theorem pure {a : α} (h : P a) : Ends (Pure.pure a) P E := .inl ⟨a, rfl, h⟩

theorem throw {x : EdgeId} (h : E x) : Ends (MonadExcept.throw (.edgeNotInChart x)) P E :=
  .inr ⟨x, rfl, h⟩

theorem bind (hm : Ends m P E) (hf : ∀ a, P a → Ends (f a) Q E) : Ends (m >>= f) Q E := by
  rcases hm with ⟨a, hrun, ha⟩ | ⟨x, hrun, hx⟩
  · have hbind : (m >>= f).run = (f a).run := by
      rw [ExceptT.run_bind, hrun]
      rfl
    rw [Ends, hbind]
    exact hf a ha
  · refine .inr ⟨x, ?_, hx⟩
    rw [ExceptT.run_bind, hrun]
    rfl

theorem mono (h : Ends m P E) (hP : ∀ a, P a → P' a) (hE : ∀ x, E x → E' x) : Ends m P' E' := by
  rcases h with ⟨a, hrun, ha⟩ | ⟨x, hrun, hx⟩
  · exact .inl ⟨a, hrun, hP a ha⟩
  · exact .inr ⟨x, hrun, hE x hx⟩

theorem of_run {a : α} (h : Ends m P E) (hrun : m.run = some (.ok a)) : P a := by
  rcases h with ⟨b, hb, hP⟩ | ⟨x, hx, -⟩
  · obtain rfl : b = a := Except.ok.inj (Option.some.inj (hb.symm.trans hrun))
    exact hP
  · cases hx.symm.trans hrun

end Ends

/-! ### Leaves past the tokens -/

namespace Chart

/-- A leaf that stands past the tokens. -/
def Stray (c : Chart L) (id : EdgeId) : Prop :=
  ∃ e, c.edges[id]? = some e ∧ e.isLeaf = true ∧ c.tokens.length ≤ e.start

/-- A list of an edge that is opened names the child. -/
def Under (c : Chart L) (complete : Bool) (id child : EdgeId) : Prop :=
  ∃ e, c.Opens complete id e ∧ ∃ cpl ∈ c.pointers id, child ∈ cpl

/-- Going down the lists of edges that are opened leads from one edge to the other. -/
def Reaches (c : Chart L) (complete : Bool) : EdgeId → EdgeId → Prop :=
  Relation.ReflTransGen (c.Under complete)

/-- Off the path, a leaf past the tokens can be reached from the edge. -/
inductive Strays (c : Chart L) (complete : Bool) (path : Finset EdgeId) : EdgeId → Prop
  | here {id} : id ∉ path → c.Stray id → Strays c complete path id
  | down {id child} : id ∉ path → c.Under complete id child → Strays c complete path child →
      Strays c complete path id

variable {c : Chart L} {complete : Bool} {path path' : Finset EdgeId} {id : EdgeId} {e : Edge L}

theorem Opens.not_stray (h : c.Opens complete id e) : ¬ c.Stray id := by
  rintro ⟨e', he', hleaf, -⟩
  obtain rfl : e = e' := Option.some.inj (h.edge.symm.trans he')
  rw [h.isLeaf] at hleaf
  cases hleaf

theorem Strays.not_mem (h : c.Strays complete path id) : id ∉ path := by
  cases h with
  | here hid _ => exact hid
  | down hid _ _ => exact hid

theorem Strays.mono (hsub : path ⊆ path') (h : c.Strays complete path' id) :
    c.Strays complete path id := by
  induction h with
  | here hid hstray => exact .here (fun hmem => hid (hsub hmem)) hstray
  | down hid hunder _ ih => exact .down (fun hmem => hid (hsub hmem)) hunder ih

/-- A way that passes through an opened edge can be taken up behind its last
passing through it. -/
theorem Strays.off {y : EdgeId} (hid : c.Opens complete id e) (h : c.Strays complete path y) :
    c.Strays complete (path ∪ {id}) y ∨
      ∃ child, c.Under complete id child ∧ c.Strays complete (path ∪ {id}) child := by
  have hnot : ∀ z, z ∉ path → z ≠ id → z ∉ path ∪ {id} := by
    intro z hz hne hmem
    rcases Finset.mem_union.1 hmem with hmem | hmem
    · exact hz hmem
    · exact hne (Finset.mem_singleton.1 hmem)
  induction h with
  | @here z hz hstray =>
    refine .inl (.here (hnot z hz fun heq => ?_) hstray)
    rw [heq] at hstray
    exact hid.not_stray hstray
  | @down z child hz hunder _ ih =>
    rcases ih with hchild | hbehind
    · by_cases heq : z = id
      · rw [heq] at hunder
        exact .inr ⟨child, hunder, hchild⟩
      · exact .inl (.down (hnot z hz heq) hunder hchild)
    · exact .inr hbehind

/-- An edge that is opened leads to no leaf past the tokens if no child of it
does without coming back. -/
theorem not_strays_of_children (hid : c.Opens complete id e)
    (h : ∀ child, c.Under complete id child → ¬ c.Strays complete (path ∪ {id}) child) :
    ¬ c.Strays complete path id := by
  intro hstrays
  rcases hstrays.off hid with hself | ⟨child, hunder, hchild⟩
  · exact hself.not_mem (Finset.mem_union_right _ (Finset.mem_singleton_self _))
  · exact h child hunder hchild

theorem strays_empty_iff :
    c.Strays complete ∅ id ↔ ∃ x, c.Reaches complete id x ∧ c.Stray x := by
  constructor
  · intro h
    induction h with
    | @here z _ hstray => exact ⟨z, .refl, hstray⟩
    | down _ hunder _ ih =>
      obtain ⟨x, hreaches, hstray⟩ := ih
      exact ⟨x, .head hunder hreaches, hstray⟩
  · rintro ⟨x, hreaches, hstray⟩
    induction hreaches using Relation.ReflTransGen.head_induction_on with
    | refl => exact .here (Finset.notMem_empty _) hstray
    | head hunder _ ih => exact .down (Finset.notMem_empty _) hunder ih

/-! ### Findings -/

/-- What is left of the readings without those through `path` is right, and
off `path` there is no leaf past the tokens. -/
structure Finds (c : Chart L) (complete : Bool) (path : Finset EdgeId) (id : EdgeId)
    (found : List (Reading L)) : Prop where
  filter_eq : found.filter (Reading.avoids path) = c.readings complete path id
  not_strays : ¬ c.Strays complete path id

theorem Finds.mono {found : List (Reading L)} (hsub : path ⊆ path')
    (h : c.Finds complete path id found) : c.Finds complete path' id found where
  filter_eq := by
    have hunion : path ∪ path' = path' := Finset.union_eq_right.2 hsub
    rw [← hunion, readings_union, ← h.filter_eq, List.filter_filter, hunion]
    refine List.filter_congr fun r _ => ?_
    cases havoids : r.avoids path' with
    | false => rfl
    | true =>
      rw [Reading.avoids_eq_true_iff] at havoids
      exact (Reading.avoids_eq_true_iff.2 fun x hx hmem => havoids x hx (hsub hmem)).symm
  not_strays := fun hstrays => h.not_strays (hstrays.mono hsub)

/-- The edges of the path that the visits from a depth on stand for. -/
def blockers (path : List EdgeId) : Option Nat → Finset EdgeId
  | none => ∅
  | some depth => (path.drop depth).toFinset

theorem blockers_shallowest (path : List EdgeId) (a b : Option Nat) :
    blockers path a ⊆ blockers path (shallowest a b) ∧
      blockers path b ⊆ blockers path (shallowest a b) := by
  have hdrop : ∀ m n, m ≤ n → (path.drop n).toFinset ⊆ (path.drop m).toFinset := by
    intro m n hle x hx
    rw [List.mem_toFinset] at hx ⊢
    exact (List.drop_sublist_drop_left path hle).subset hx
  cases a with
  | none => exact ⟨Finset.empty_subset _, Finset.Subset.refl _⟩
  | some a =>
    cases b with
    | none => exact ⟨Finset.Subset.refl _, Finset.empty_subset _⟩
    | some b => exact ⟨hdrop _ _ (Nat.min_le_left a b), hdrop _ _ (Nat.min_le_right a b)⟩

/-- Back above an edge, what it blocked itself no longer counts. -/
theorem blockers_leave (path : List EdgeId) (id : EdgeId) (blockedAt : Option Nat) :
    blockers (path ++ [id]) blockedAt ⊆
      blockers path (blockedAt.filter fun d => d < path.length) ∪ {id} := by
  cases blockedAt with
  | none => exact Finset.empty_subset _
  | some d =>
    rw [Option.filter_some]
    intro x hx
    rw [blockers, List.mem_toFinset] at hx
    by_cases hd : d < path.length
    · rw [if_pos (decide_eq_true hd), blockers, Finset.mem_union, List.mem_toFinset,
        Finset.mem_singleton]
      rw [List.drop_append_of_le_length (Nat.le_of_lt hd), List.mem_append,
        List.mem_singleton] at hx
      exact hx
    · rw [List.drop_append, List.drop_eq_nil_of_le (Nat.le_of_not_lt hd), List.nil_append] at hx
      exact Finset.mem_union_right _
        (Finset.mem_singleton.2 (List.mem_singleton.1 (List.mem_of_mem_drop hx)))

omit [Label L] in
theorem getElem?_snoc_of_ne {path : List EdgeId} {id x : EdgeId} (hne : x ≠ id) (d : Nat) :
    (path ++ [id])[d]? = some x ↔ path[d]? = some x := by
  by_cases hlt : d < path.length
  · rw [List.getElem?_append_left hlt]
  · rw [List.getElem?_append_right (Nat.le_of_not_lt hlt),
      List.getElem?_eq_none (Nat.le_of_not_lt hlt)]
    constructor
    · exact fun hd => absurd (List.mem_singleton.1 (List.mem_of_getElem? hd)) hne
    · exact fun h => nomatch h

/-- The marks are those of a path of opened edges, and of right results. -/
structure Marked (c : Chart L) (complete : Bool) (path : List EdgeId) (v : Visited L) : Prop where
  depth_eq : v.depth = path.length
  nodup : path.Nodup
  lt_size : ∀ id ∈ path, id < c.size
  onPath_iff : ∀ id d, v.get? id = some (.onPath d) ↔ path[d]? = some id
  read : ∀ id rs, v.get? id = some (.read rs) → c.Finds complete ∅ id rs

namespace Marked

variable {v : Visited L} {path : List EdgeId}

theorem nothing : c.Marked complete [] Visited.nothing where
  depth_eq := rfl
  nodup := List.nodup_nil
  lt_size := fun _ h => nomatch h
  onPath_iff := by
    intro id d
    have hnone : (Visited.nothing : Visited L).get? id = none := by
      simp [Visited.nothing, Visited.get?]
    rw [hnone]
    simp
  read := by
    intro id rs h
    simp [Visited.nothing, Visited.get?] at h

theorem not_mem (h : c.Marked complete path v) (hid : v.get? id = none) : id ∉ path := by
  intro hmem
  obtain ⟨d, hd⟩ := List.mem_iff_getElem?.1 hmem
  rw [(h.onPath_iff id d).2 hd] at hid
  cases hid

/-- Before the children of an edge are visited. -/
theorem enter (h : c.Marked complete path v) (hid : v.get? id = none) (hlt : id < c.size) :
    c.Marked complete (path ++ [id]) (v.enter id) where
  depth_eq := by
    rw [List.length_append, ← h.depth_eq]
    rfl
  nodup := List.nodup_append.2 ⟨h.nodup, List.nodup_singleton _, fun x hx y hy heq =>
    h.not_mem hid (List.mem_singleton.1 hy ▸ heq ▸ hx)⟩
  lt_size := by
    intro x hx
    rcases List.mem_append.1 hx with hx | hx
    · exact h.lt_size x hx
    · rw [List.mem_singleton.1 hx]
      exact hlt
  onPath_iff := by
    intro x d
    show (v.set id (.onPath v.depth)).get? x = _ ↔ _
    rw [Visited.get?_set, h.depth_eq]
    by_cases heq : id = x
    · rw [if_pos heq, ← heq]
      constructor
      · intro hmark
        obtain rfl : path.length = d := by simpa using hmark
        exact List.getElem?_concat_length
      · intro hd
        by_cases hlt : d < path.length
        · rw [List.getElem?_append_left hlt] at hd
          exact absurd (List.mem_of_getElem? hd) (h.not_mem hid)
        · have hle := (List.getElem?_eq_some_iff.1 hd).1
          rw [List.length_append, List.length_singleton] at hle
          obtain rfl : path.length = d := by omega
          rfl
    · rw [if_neg heq, h.onPath_iff, getElem?_snoc_of_ne (Ne.symm heq)]
  read := by
    intro x rs hx
    change (v.set id (.onPath v.depth)).get? x = _ at hx
    rw [Visited.get?_set] at hx
    split at hx
    · cases hx
    · exact h.read x rs hx

/-- After the children of an edge have been visited: its mark is another one. -/
theorem leave {v' : Visited L} (h : c.Marked complete (path ++ [id]) v)
    (hdepth : v'.depth = v.depth - 1) (hother : ∀ x, x ≠ id → v'.get? x = v.get? x)
    (honPath : ∀ d, v'.get? id ≠ some (.onPath d))
    (hread : ∀ rs, v'.get? id = some (.read rs) → c.Finds complete ∅ id rs) :
    c.Marked complete path v' where
  depth_eq := by
    rw [hdepth, h.depth_eq, List.length_append, List.length_singleton, Nat.add_sub_cancel]
  nodup := (List.nodup_append.1 h.nodup).1
  lt_size := fun x hx => h.lt_size x (List.mem_append_left _ hx)
  onPath_iff := by
    intro x d
    by_cases heq : x = id
    · rw [heq]
      refine ⟨fun hx => absurd hx (honPath d), fun hd => ?_⟩
      have hnot := (List.nodup_append.1 h.nodup).2.2 id (List.mem_of_getElem? hd) id
        (List.mem_singleton_self _)
      exact absurd rfl hnot
    · rw [hother x heq, h.onPath_iff, getElem?_snoc_of_ne heq]
  read := by
    intro x rs hx
    by_cases heq : x = id
    · rw [heq] at hx ⊢
      exact hread rs hx
    · rw [hother x heq] at hx
      exact h.read x rs hx

/-- A result that was cut short is not kept. -/
theorem leave_erase (h : c.Marked complete (path ++ [id]) v) :
    c.Marked complete path (v.leave.erase id) := by
  have hnone : (v.leave.erase id).get? id = none := by
    rw [Visited.get?_erase, if_pos rfl]
  refine h.leave rfl (fun x hx => ?_) (fun d hd => ?_) (fun rs hrs => ?_)
  · rw [Visited.get?_erase, if_neg (Ne.symm hx)]
    rfl
  · rw [hnone] at hd
    cases hd
  · rw [hnone] at hrs
    cases hrs

/-- A result that nothing cut short is kept. -/
theorem leave_set (h : c.Marked complete (path ++ [id]) v) {found : List (Reading L)}
    (hfinds : c.Finds complete ∅ id found) :
    c.Marked complete path (v.leave.set id (.read found)) := by
  have hread : (v.leave.set id (.read found)).get? id = some (.read found) := by
    rw [Visited.get?_set, if_pos rfl]
  refine h.leave rfl (fun x hx => ?_) (fun d hd => ?_) (fun rs hrs => ?_)
  · rw [Visited.get?_set, if_neg (Ne.symm hx)]
    rfl
  · rw [hread] at hd
    cases hd
  · obtain rfl : found = rs := by simpa [hread] using hrs
    exact hfinds

end Marked

end Chart

/-! ### Visiting -/

namespace Reading

omit [Label L] in
theorem assemble_eq (id : EdgeId) (e : Edge L) (children : List (Reading L)) :
    assemble id e children =
      if children.all (avoids {id}) then some (above id e children) else none := by
  have hcontains : ∀ r : Reading L, r.edges.contains id = !r.avoids {id} := by
    intro r
    rw [Bool.eq_iff_iff, Bool.not_eq_true', ← Bool.not_eq_true, avoids_eq_true_iff]
    simp
  rw [assemble]
  simp only [hcontains, ← List.not_all_eq_any_not]
  cases children.all (avoids {id}) with
  | true => rfl
  | false => rfl

omit [Label L] in
theorem filterMap_assemble (id : EdgeId) (e : Edge L) (choices : List (List (Reading L))) :
    choices.filterMap (assemble id e) =
      (choices.filter fun children => children.all (avoids {id})).map (above id e) := by
  induction choices with
  | nil => rfl
  | cons children choices ih =>
    rw [List.filterMap_cons, List.filter_cons, assemble_eq, ih]
    cases children.all (avoids {id}) with
    | true => rfl
    | false => rfl

variable {c : Chart L} {complete : Bool} {id : EdgeId} {e : Edge L}

/-- What is right about one list: the choices among what is right about its children. -/
theorem filter_assemble {path : Finset EdgeId} (hid : id ∉ path) {cpl : Pointers}
    {choices : List (List (Reading L))}
    (h : List.Forall₂ (c.Finds complete (path ∪ {id})) cpl choices) :
    ((Odometer.all choices).filterMap (assemble id e)).filter (avoids path) =
      (combinations (cpl.map fun child => c.readings complete (path ∪ {id}) child)).map
        (above id e) := by
  have hchoices : cpl.map (fun child => c.readings complete (path ∪ {id}) child) =
      choices.map fun found => found.filter (avoids (path ∪ {id})) := by
    induction h with
    | nil => rfl
    | cons hfinds _ ih => rw [List.map_cons, List.map_cons, hfinds.filter_eq, ih]
  have habove : avoids path ∘ above id e = fun children => children.all (avoids path) :=
    funext fun children => avoids_above hid e children
  rw [hchoices, combinations_filter, Odometer.all_eq_combinations, filterMap_assemble,
    List.filter_map, habove, List.filter_filter]
  simp only [all_avoids_union]

/-- What a visit to an edge comes to, under a path of edges. -/
abbrev Visits (c : Chart L) (complete : Bool) (path : List EdgeId) (visit : Visit L)
    (id : EdgeId) : Prop :=
  ∀ v, c.Marked complete path v →
    Ends (visit id v)
      (fun r => c.Marked complete path r.2 ∧
        c.Finds complete (Chart.blockers path r.1.blockedAt) id r.1.readings)
      fun x => c.Reaches complete id x ∧ c.Stray x

theorem visitChildren_spec {visit : Visit L} {path : List EdgeId} (cpl : Pointers)
    (hvisit : ∀ child ∈ cpl, Visits c complete path visit child) {v : Visited L}
    (hv : c.Marked complete path v) :
    Ends (visitChildren visit cpl v)
      (fun r => c.Marked complete path r.2.2 ∧
        List.Forall₂ (c.Finds complete (Chart.blockers path r.2.1)) cpl r.1)
      fun x => (∃ child ∈ cpl, c.Reaches complete child x) ∧ c.Stray x := by
  induction cpl generalizing v with
  | nil => exact .pure ⟨hv, .nil⟩
  | cons child rest ih =>
    have hchild := hvisit child List.mem_cons_self v hv
    refine .bind (hchild.mono (fun _ h => h) fun x hx => ?_) fun found hfound => ?_
    · exact ⟨⟨child, List.mem_cons_self, hx.1⟩, hx.2⟩
    have hrest := ih (fun x hx => hvisit x (List.mem_cons_of_mem _ hx)) hfound.1
    refine .bind (hrest.mono (fun _ h => h) fun x hx => ?_) fun r hr => ?_
    · obtain ⟨⟨y, hy, hreaches⟩, hstray⟩ := hx
      exact ⟨⟨y, List.mem_cons_of_mem _ hy, hreaches⟩, hstray⟩
    obtain ⟨hfirst, hlater⟩ := Chart.blockers_shallowest path found.1.blockedAt r.2.1
    exact .pure ⟨hr.1, .cons (hfound.2.mono hfirst)
      (hr.2.imp fun _ _ hfinds => hfinds.mono hlater)⟩

theorem visitLists_spec {visit : Visit L} {path : List EdgeId} (id : EdgeId) (e : Edge L)
    (cpls : List Pointers)
    (hvisit : ∀ cpl ∈ cpls, ∀ child ∈ cpl, Visits c complete path visit child) {v : Visited L}
    (hv : c.Marked complete path v) :
    Ends (visitLists visit id e cpls v)
      (fun r => c.Marked complete path r.2.2 ∧
        ∀ avoided : Finset EdgeId, id ∉ avoided →
          Chart.blockers path r.2.1 ⊆ avoided ∪ {id} →
            r.1.filter (avoids avoided) = (cpls.flatMap fun cpl =>
              (combinations (cpl.map fun child =>
                c.readings complete (avoided ∪ {id}) child)).map (above id e)) ∧
            ∀ cpl ∈ cpls, ∀ child ∈ cpl, ¬ c.Strays complete (avoided ∪ {id}) child)
      fun x => (∃ cpl ∈ cpls, ∃ child ∈ cpl, c.Reaches complete child x) ∧ c.Stray x := by
  induction cpls generalizing v with
  | nil => exact .pure ⟨hv, fun _ _ _ => ⟨rfl, fun _ h => nomatch h⟩⟩
  | cons cpl rest ih =>
    have hfirst := visitChildren_spec cpl (hvisit cpl List.mem_cons_self) hv
    refine .bind (hfirst.mono (fun _ h => h) fun x hx => ?_) fun first hfirst => ?_
    · exact ⟨⟨cpl, List.mem_cons_self, hx.1⟩, hx.2⟩
    obtain ⟨hmarked, hfinds⟩ := hfirst
    have hrest := ih (fun cpl' h => hvisit cpl' (List.mem_cons_of_mem _ h)) hmarked
    refine .bind (hrest.mono (fun _ h => h) fun x hx => ?_) fun later hlater => ?_
    · obtain ⟨⟨cpl', hcpl', hchild⟩, hstray⟩ := hx
      exact ⟨⟨cpl', List.mem_cons_of_mem _ hcpl', hchild⟩, hstray⟩
    obtain ⟨hmarked', hlater⟩ := hlater
    refine .pure ⟨hmarked', fun avoided hid hsub => ?_⟩
    obtain ⟨hsubFirst, hsubLater⟩ := Chart.blockers_shallowest path first.2.1 later.2.1
    have hfinds' := hfinds.imp fun _ _ h => h.mono (hsubFirst.trans hsub)
    obtain ⟨hfilter, hclear⟩ := hlater avoided hid (hsubLater.trans hsub)
    constructor
    · rw [List.filter_append, List.flatMap_cons, hfilter, filter_assemble hid hfinds']
    · intro cpl' hcpl'
      rcases List.mem_cons.1 hcpl' with rfl | hcpl'
      · exact ((List.forall₂_and_left _ _).1 (hfinds'.imp fun _ _ h => ⟨h.not_strays, h⟩)).1
      · exact hclear cpl' hcpl'

end Reading

namespace Chart

variable {c : Chart L} {complete : Bool} {id : EdgeId} {e : Edge L} {path : List EdgeId}
  {v : Visited L}

theorem Marked.length_le (h : c.Marked complete path v) : path.length ≤ c.size := by
  rw [← List.toFinset_card_of_nodup h.nodup, ← Finset.card_range c.size]
  refine Finset.card_le_card fun id hid => ?_
  exact Finset.mem_range.2 (h.lt_size id (List.mem_toFinset.1 hid))

/-- A right result may be kept for an edge that has no mark. -/
theorem Marked.keep (h : c.Marked complete path v) (hid : v.get? id = none)
    {found : List (Reading L)} (hfinds : c.Finds complete ∅ id found) :
    c.Marked complete path (v.set id (.read found)) where
  depth_eq := h.depth_eq
  nodup := h.nodup
  lt_size := h.lt_size
  onPath_iff := by
    intro x d
    rw [Visited.get?_set]
    by_cases heq : id = x
    · rw [if_pos heq]
      refine ⟨fun h => (by cases h), fun hd => ?_⟩
      exact absurd (heq ▸ List.mem_of_getElem? hd) (h.not_mem hid)
    · rw [if_neg heq]
      exact h.onPath_iff x d
  read := by
    intro x rs hx
    rw [Visited.get?_set] at hx
    by_cases heq : id = x
    · rw [if_pos heq] at hx
      obtain rfl : found = rs := by simpa using hx
      exact heq ▸ hfinds
    · rw [if_neg heq] at hx
      exact h.read x rs hx

/-! ### Findings that need no visit to children -/

theorem finds_onPath {d : Nat} (hd : path[d]? = some id) :
    c.Finds complete (blockers path (some d)) id [] := by
  have hid : id ∈ blockers path (some d) := by
    rw [blockers, List.mem_toFinset, List.mem_iff_getElem?]
    exact ⟨0, by rw [List.getElem?_drop, Nat.add_zero, hd]⟩
  exact ⟨(enumerate_of_mem hid).symm, fun h => h.not_mem hid⟩

theorem finds_skipped (hedge : c.edges[id]? = some e)
    (hskip : (complete && e.isIncomplete) = true) : c.Finds complete ∅ id [] where
  filter_eq := by
    rw [readings, enumerate_of_skip hedge hskip]
    rfl
  not_strays := by
    rintro (⟨-, e', he', hleaf, -⟩ | ⟨-, ⟨e', hopens, -⟩, -⟩)
    · obtain rfl : e = e' := Option.some.inj (hedge.symm.trans he')
      rw [isIncomplete_of_isLeaf hleaf, Bool.and_false] at hskip
      cases hskip
    · obtain rfl : e = e' := Option.some.inj (hedge.symm.trans hopens.edge)
      rw [hopens.kept] at hskip
      cases hskip

theorem finds_leaf (complete : Bool) (hedge : c.edges[id]? = some e) (hleaf : e.isLeaf = true)
    {token : String} (htoken : c.tokens[e.start]? = some token) :
    c.Finds complete ∅ id [⟨.leaf token, [id]⟩] where
  filter_eq := by
    rw [readings, enumerate_of_leaf (Finset.notMem_empty id) hedge hleaf, htoken]
    simp [Reading.avoids]
  not_strays := by
    rintro (⟨-, e', he', -, hpast⟩ | ⟨-, ⟨e', hopens, -⟩, -⟩)
    · obtain rfl : e = e' := Option.some.inj (hedge.symm.trans he')
      rw [List.getElem?_eq_none hpast] at htoken
      cases htoken
    · obtain rfl : e = e' := Option.some.inj (hedge.symm.trans hopens.edge)
      rw [hopens.isLeaf] at hleaf
      cases hleaf

/-- What the lists of an opened edge come to is right about the edge. -/
theorem finds_opened {avoided : Finset EdgeId} {found : List (Reading L)}
    (hopens : c.Opens complete id e) (hid : id ∉ avoided)
    (hfound : found.filter (Reading.avoids avoided) = (c.pointers id).flatMap fun cpl =>
      (combinations (cpl.map fun child => c.readings complete (avoided ∪ {id}) child)).map
        (Reading.above id e))
    (hclear : ∀ cpl ∈ c.pointers id, ∀ child ∈ cpl, ¬ c.Strays complete (avoided ∪ {id}) child) :
    c.Finds complete avoided id found where
  filter_eq := by
    rw [hfound, readings, enumerate_of_opens hid hopens]
    rfl
  not_strays := not_strays_of_children hopens fun child ⟨_, _, cpl, hcpl, hchild⟩ =>
    hclear cpl hcpl child hchild

theorem not_mem_blockers (hid : id ∉ path) (blockedAt : Option Nat) :
    id ∉ blockers path blockedAt := by
  cases blockedAt with
  | none => exact Finset.notMem_empty id
  | some d => exact fun hmem => hid (List.mem_of_mem_drop (List.mem_toFinset.1 hmem))

end Chart

namespace Reading

variable {c : Chart L} {complete : Bool}

/-- A visit finds the readings, provided that it may go deep enough. -/
theorem visit_spec (hwf : c.WellFormed) (limit : Nat) (path : List EdgeId)
    (hlimit : c.size < limit + path.length) (id : EdgeId) (hid : id < c.size) :
    Visits c complete path (visit c complete limit) id := by
  induction limit generalizing path id with
  | zero =>
    intro v hv
    have := hv.length_le
    omega
  | succ limit ih =>
    intro v hv
    obtain ⟨e, hedge⟩ := Chart.lt_size_iff.1 hid
    obtain ⟨cpls, hentry, hpointers⟩ := Chart.exists_entry_of_edge hedge
    rw [visit]
    cases hmark : v.get? id with
    | some mark =>
      cases mark with
      | read found => exact .pure ⟨hv, hv.read id found hmark⟩
      | onPath d => exact .pure ⟨hv, Chart.finds_onPath ((hv.onPath_iff id d).1 hmark)⟩
    | none =>
      rw [hentry]
      simp only
      split
      · rename_i hskip
        exact .pure ⟨hv, Chart.finds_skipped hedge hskip⟩
      · rename_i hkept
        split
        · rename_i hleaf
          cases htoken : c.tokens[e.start]? with
          | none =>
            exact .throw ⟨.refl, e, hedge, hleaf, List.getElem?_eq_none_iff.1 htoken⟩
          | some token =>
            have hfinds := Chart.finds_leaf complete hedge hleaf htoken
            exact .pure ⟨hv.keep hmark hfinds, hfinds⟩
        · rename_i hnotLeaf
          have hopens : c.Opens complete id e :=
            ⟨hedge, Bool.not_eq_true _ ▸ hnotLeaf, Bool.not_eq_true _ ▸ hkept⟩
          have hlists := visitLists_spec id e cpls.toList
            (fun cpl hcpl child hchild => ih (path ++ [id])
              (by rw [List.length_append, List.length_singleton]; omega) child
              (hwf.child_lt id cpl (hpointers ▸ hcpl) child hchild))
            (hv.enter hmark hid)
          refine .bind (hlists.mono (fun _ h => h) fun x hx => ?_) ?_
          · obtain ⟨⟨cpl, hcpl, child, hchild, hreaches⟩, hstray⟩ := hx
            exact ⟨.head ⟨e, hopens, cpl, hpointers ▸ hcpl, hchild⟩ hreaches, hstray⟩
          rintro ⟨found, blockedAt, v'⟩ ⟨hmarked, hright⟩
          -- the edge itself is no longer one that a reading may not come back to
          have hnot : id ∉ Chart.blockers path (blockedAt.filter fun d => d < path.length) :=
            Chart.not_mem_blockers (hv.not_mem hmark) _
          obtain ⟨hfilter, hclear⟩ :=
            hright _ hnot (Chart.blockers_leave path id blockedAt)
          rw [← hpointers] at hfilter hclear
          have hfinds := Chart.finds_opened hopens hnot hfilter hclear
          rw [hv.depth_eq]
          cases hblocked : blockedAt.filter fun d => d < path.length with
          | some d =>
            rw [hblocked] at hfinds
            exact .pure ⟨hmarked.leave_erase, hfinds⟩
          | none =>
            rw [hblocked] at hfinds
            exact .pure ⟨hmarked.leave_set hfinds, hfinds⟩

end Reading

end ChartParsing
