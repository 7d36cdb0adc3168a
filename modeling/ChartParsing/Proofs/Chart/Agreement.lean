/-
ChartParsing/Proofs/Chart/Agreement.lean

Charts that hold the same, under whichever ids.

Two well-formed charts over the same tokens *agree* if the same lists of edges
justify the same edges in both.  Their ids may differ, and the order of their
edges and lists.  Then they have as many edges and as many lists
(`Agrees.size_eq`, `Agrees.countPointers_eq`), and the trees of an edge are the
same in both, up to their order (`Agrees.treesAvoiding_perm`).

For trees it is enough that one chart holds what the other does with each edge
moved elsewhere, and it may hold more (`Embeds.treesAvoiding_perm`).
-/
import ChartParsing.Proofs.Chart.Capacity
import ChartParsing.Proofs.Tree.Avoiding
import Mathlib.Data.List.Perm.Basic

namespace ChartParsing

/-! ### Choices up to order -/

section Choices

variable {α β γ δ : Type}

/-- Lists that match up to order, put together from parts that do. -/
theorem perm_flatMap_of_perm_map {as : List α} {bs : List β} {key : α → γ} {key' : β → γ}
    {f : α → List δ} {g : β → List δ} (h : (as.map key).Perm (bs.map key'))
    (hfg : ∀ a ∈ as, ∀ b ∈ bs, key a = key' b → (f a).Perm (g b)) :
    (as.flatMap f).Perm (bs.flatMap g) := by
  induction as generalizing bs with
  | nil =>
    have hnil : bs = [] := by simpa using h
    rw [hnil]
    exact .refl _
  | cons a as ih =>
    have hmem : key a ∈ bs.map key' := h.subset List.mem_cons_self
    obtain ⟨b, hb, hkey⟩ := List.mem_map.1 hmem
    -- take the partner of the first part out of the other list
    obtain ⟨before, after, rfl⟩ := List.append_of_mem hb
    have hmiddle : (before ++ b :: after).Perm (b :: (before ++ after)) := List.perm_middle
    have hrest : (as.map key).Perm ((before ++ after).map key') := by
      have hcons := h.trans (hmiddle.map key')
      rw [List.map_cons, List.map_cons, hkey] at hcons
      exact hcons.cons_inv
    refine .trans ?_ (hmiddle.flatMap_right g).symm
    rw [List.flatMap_cons, List.flatMap_cons]
    refine (hfg a List.mem_cons_self b hb hkey.symm).append (ih hrest fun a' ha' b' hb' => ?_)
    exact hfg a' (List.mem_cons_of_mem _ ha') b'
      (hmiddle.symm.subset (List.mem_cons_of_mem _ hb'))

theorem combinations_perm {xss yss : List (List α)} (h : List.Forall₂ List.Perm xss yss) :
    (combinations xss).Perm (combinations yss) := by
  induction h with
  | nil => exact .refl _
  | @cons xs ys xss yss hxy _ ih =>
    rw [combinations, combinations]
    exact (hxy.flatMap_right _).trans (List.Perm.flatMap_left ys fun y _ => ih.map _)

end Choices

variable {L : Type} [Label L]

namespace Chart

/-! ### Lists by the edges that they name -/

/-- The edges that a list names. -/
def named (c : Chart L) (p : Pointers) : List (Edge L) := p.filterMap (c.edges[·]?)

variable {c c' : Chart L} {id id' : EdgeId} {p q : Pointers} {e : Edge L}

theorem named_of_map {es : List (Edge L)} (h : p.map (c.edges[·]?) = es.map some) :
    c.named p = es := by
  have hfilter : c.named p = (p.map (c.edges[·]?)).filterMap fun x => x := by
    rw [List.filterMap_map]
    rfl
  rw [hfilter, h, List.filterMap_map]
  exact List.filterMap_some

theorem WellFormed.map_eq_named (h : c.WellFormed) (hp : p ∈ c.pointers id) :
    p.map (c.edges[·]?) = (c.named p).map some := by
  obtain ⟨es, hes⟩ := h.children hp
  rw [named_of_map hes, hes]

theorem WellFormed.forall₂_named (h : c.WellFormed) (hp : p ∈ c.pointers id) :
    List.Forall₂ (fun child b => c.edges[child]? = some b) p (c.named p) := by
  have heq := h.map_eq_named hp
  rwa [← List.forall₂_eq_eq_eq, List.forall₂_map_left_iff, List.forall₂_map_right_iff] at heq

/-- A list is settled by the edges that it names. -/
theorem WellFormed.eq_of_map_eq (h : c.WellFormed) {es : List (Edge L)}
    (hp : p.map (c.edges[·]?) = es.map some) (hq : q.map (c.edges[·]?) = es.map some) :
    p = q := by
  have hmap : p.map (c.edges[·]?) = q.map (c.edges[·]?) := hp.trans hq.symm
  refine List.ext_getElem? fun i => ?_
  have hi := congrArg (·[i]?) hmap
  have hchild := congrArg (·[i]?) hp
  simp only [List.getElem?_map] at hi hchild
  cases hpi : p[i]? with
  | none =>
    rw [hpi, Option.map_none, eq_comm, Option.map_eq_none_iff] at hi
    exact hi.symm
  | some child =>
    rw [hpi, Option.map_some, eq_comm, Option.map_eq_some_iff] at hchild
    obtain ⟨e, -, he⟩ := hchild
    rw [hpi, Option.map_some, ← he, eq_comm, Option.map_eq_some_iff] at hi
    obtain ⟨child', hchild', he'⟩ := hi
    rw [hchild', h.id_unique he.symm he']

theorem WellFormed.eq_of_named_eq (h : c.WellFormed) (hp : p ∈ c.pointers id)
    (hq : q ∈ c.pointers id') (heq : c.named p = c.named q) : p = q :=
  h.eq_of_map_eq (h.map_eq_named hp) (heq ▸ h.map_eq_named hq)

/-- The lists of an edge, read as the edges that they name, are distinct. -/
theorem WellFormed.nodup_named (h : c.WellFormed) (id : EdgeId) :
    ((c.pointers id).map c.named).Nodup :=
  (c.nodup_pointers id).map_on fun _ hp _ hq heq => h.eq_of_named_eq hp hq heq

theorem WellFormed.justifies_iff_mem_named (h : c.WellFormed) (he : c.edges[id]? = some e)
    {es : List (Edge L)} : c.Justifies (e, es) ↔ es ∈ (c.pointers id).map c.named := by
  rw [List.mem_map]
  constructor
  · rintro ⟨id', he', p, hp, hmap⟩
    obtain rfl := h.id_unique he' he
    exact ⟨p, hp, named_of_map hmap⟩
  · rintro ⟨p, hp, rfl⟩
    exact ⟨id, he, p, hp, h.map_eq_named hp⟩

/-! ### Edges moved elsewhere -/

/-- `c'` holds what `c` holds, with `move e` in the place of `e`, and possibly more. -/
structure Embeds (move : Edge L → Edge L) (c c' : Chart L) : Prop where
  wellFormed : c.WellFormed
  wellFormed' : c'.WellFormed
  injective : Function.Injective move
  lhs : ∀ e, (move e).lhs = e.lhs
  rhs : ∀ e, (move e).rhs = e.rhs
  dot : ∀ e, (move e).dot = e.dot
  length : ∀ e, (move e).length = e.length
  token : ∀ e ∈ c.edges, e.isLeaf = true → c'.tokens[(move e).start]? = c.tokens[e.start]?
  justifies_iff : ∀ e ∈ c.edges, ∀ es',
    c'.Justifies (move e, es') ↔ ∃ es, c.Justifies (e, es) ∧ es' = es.map move

namespace Embeds

variable {move : Edge L → Edge L}

/-- An edge has the same lists in both charts, with the edges that they name moved. -/
theorem named_perm (h : Embeds move c c') (he : c.edges[id]? = some e)
    (he' : c'.edges[id']? = some (move e)) :
    ((c.pointers id).map fun p => (c.named p).map move).Perm
      ((c'.pointers id').map c'.named) := by
  have hmoved : ((c.pointers id).map fun p => (c.named p).map move) =
      ((c.pointers id).map c.named).map (List.map move) := by
    rw [List.map_map]
    rfl
  have hnodup : (((c.pointers id).map c.named).map (List.map move)).Nodup :=
    (h.wellFormed.nodup_named id).map (List.map_injective_iff.2 h.injective)
  rw [hmoved]
  refine (List.perm_ext_iff_of_nodup hnodup (h.wellFormed'.nodup_named id')).2 fun es' => ?_
  rw [← h.wellFormed'.justifies_iff_mem_named he', h.justifies_iff e (List.mem_of_getElem? he)]
  simp only [List.mem_map (f := List.map move), ← h.wellFormed.justifies_iff_mem_named he]
  exact exists_congr fun es => and_congr_right' eq_comm

/-- Lists that name the same edges, moved, name them child by child. -/
theorem forall₂_of_named_eq (h : Embeds move c c') (hp : p ∈ c.pointers id)
    (hq : q ∈ c'.pointers id') (heq : (c.named p).map move = c'.named q) :
    List.Forall₂ (fun child child' =>
      ∃ b, c.edges[child]? = some b ∧ c'.edges[child']? = some (move b)) p q := by
  have hnames := h.wellFormed.forall₂_named hp
  have hnames' := h.wellFormed'.forall₂_named hq
  rw [← heq] at hnames'
  generalize c.named p = es at hnames hnames'
  clear hp hq heq
  induction hnames generalizing q with
  | nil =>
    cases hnames'
    exact .nil
  | @cons child b _ _ hchild _ ih =>
    cases hnames' with
    | cons hchild' hnames' => exact .cons ⟨b, hchild, hchild'⟩ (ih hnames')

/-- Paths that stand for the same edges, moved. -/
def SamePath (move : Edge L → Edge L) (c c' : Chart L) (path path' : Finset EdgeId) : Prop :=
  ∀ j j' b, c.edges[j]? = some b → c'.edges[j']? = some (move b) → (j ∈ path ↔ j' ∈ path')

theorem SamePath.extend {path path' : Finset EdgeId} (hpath : SamePath move c c' path path')
    (h : Embeds move c c') (he : c.edges[id]? = some e)
    (he' : c'.edges[id']? = some (move e)) :
    SamePath move c c' (path ∪ {id}) (path' ∪ {id'}) := by
  intro j j' b hj hj'
  rw [Finset.mem_union, Finset.mem_union, Finset.mem_singleton, Finset.mem_singleton,
    hpath j j' b hj hj']
  refine or_congr_right ⟨fun heq => ?_, fun heq => ?_⟩
  · obtain rfl : b = e := Option.some.inj (hj.symm.trans (heq ▸ he))
    exact h.wellFormed'.id_unique hj' he'
  · have hmove : move b = move e := Option.some.inj (hj'.symm.trans (heq ▸ he'))
    obtain rfl : b = e := h.injective hmove
    exact h.wellFormed.id_unique hj he

/-- An edge has the trees of the edge that it was moved from, up to their order. -/
theorem treesAvoiding_perm (h : Embeds move c c') (complete : Bool) (path : Finset EdgeId)
    (id : EdgeId) (path' : Finset EdgeId) (id' : EdgeId) (e : Edge L)
    (he : c.edges[id]? = some e) (he' : c'.edges[id']? = some (move e))
    (hpath : SamePath move c c' path path') :
    (c.treesAvoiding complete path id).Perm (c'.treesAvoiding complete path' id') := by
  have hisLeaf : ∀ f, (move f).isLeaf = f.isLeaf := fun f => by
    rw [Edge.isLeaf, Edge.isLeaf, h.rhs, h.length]
  have hisIncomplete : ∀ f, (move f).isIncomplete = f.isIncomplete := fun f => by
    rw [Edge.isIncomplete, Edge.isIncomplete, Edge.isComplete, Edge.isComplete, h.rhs, h.dot]
  rw [treesAvoiding, treesAvoiding]
  induction path, id using c.path_induction complete generalizing path' id' e with
  | onPath path id hid =>
    have hid' : id' ∈ path' := (hpath id id' e he he').1 hid
    rw [enumerate_of_mem hid, enumerate_of_mem hid']
  | missing path id hedge =>
    rw [hedge] at he
    cases he
  | skipped path id f hf hskip =>
    obtain rfl : e = f := Option.some.inj (he.symm.trans hf)
    rw [enumerate_of_skip he hskip, enumerate_of_skip he' (hisIncomplete e ▸ hskip)]
  | leaf path id f hid hf hleaf =>
    obtain rfl : e = f := Option.some.inj (he.symm.trans hf)
    have hid' : id' ∉ path' := fun hmem => hid ((hpath id id' e he he').2 hmem)
    rw [enumerate_of_leaf hid he hleaf, enumerate_of_leaf hid' he' (hisLeaf e ▸ hleaf),
      h.token e (List.mem_of_getElem? he) hleaf]
  | opened path id f hid hopens ih =>
    obtain rfl : e = f := Option.some.inj (he.symm.trans hopens.edge)
    have hid' : id' ∉ path' := fun hmem => hid ((hpath id id' e he he').2 hmem)
    have hopens' : c'.Opens complete id' (move e) :=
      ⟨he', hisLeaf e ▸ hopens.isLeaf, hisIncomplete e ▸ hopens.kept⟩
    rw [enumerate_of_opens hid hopens, enumerate_of_opens hid' hopens', Edge.unmatched,
      Edge.unmatched, h.lhs, h.rhs, h.dot]
    refine perm_flatMap_of_perm_map (h.named_perm he he') fun p hp q hq heq => ?_
    refine (combinations_perm ?_).map _
    rw [List.forall₂_map_left_iff, List.forall₂_map_right_iff]
    refine (h.forall₂_of_named_eq hp hq heq).imp fun child child' hchild => ?_
    obtain ⟨b, hb, hb'⟩ := hchild
    exact ih child _ child' b hb hb' (hpath.extend h he he')

end Embeds

/-! ### Agreement -/

/-- The same lists of edges justify the same edges over the same tokens. -/
structure Agrees (c c' : Chart L) : Prop where
  wellFormed : c.WellFormed
  wellFormed' : c'.WellFormed
  tokens_eq : c'.tokens = c.tokens
  justifies_iff : ∀ x, c.Justifies x ↔ c'.Justifies x

namespace Agrees

theorem mem_edges_iff (h : Agrees c c') : e ∈ c.edges ↔ e ∈ c'.edges := by
  rw [h.wellFormed.mem_edges_iff, h.wellFormed'.mem_edges_iff]
  exact exists_congr fun es => h.justifies_iff (e, es)

theorem edges_perm (h : Agrees c c') : c.edges.Perm c'.edges :=
  (List.perm_ext_iff_of_nodup h.wellFormed.nodup h.wellFormed'.nodup).2 fun _ => h.mem_edges_iff

theorem size_eq (h : Agrees c c') : c.size = c'.size := by
  rw [size_eq_length_edges, size_eq_length_edges]
  exact h.edges_perm.length_eq

/-- Where charts agree, no edge has to be moved. -/
theorem embeds (h : Agrees c c') : Embeds (fun e => e) c c' where
  wellFormed := h.wellFormed
  wellFormed' := h.wellFormed'
  injective := Function.injective_id
  lhs := fun _ => rfl
  rhs := fun _ => rfl
  dot := fun _ => rfl
  length := fun _ => rfl
  token := fun _ _ _ => by rw [h.tokens_eq]
  justifies_iff := by
    intro e _ es
    rw [← h.justifies_iff]
    simp

/-- An edge has the same lists in both charts, by the edges that they name. -/
theorem named_perm (h : Agrees c c') (he : c.edges[id]? = some e)
    (he' : c'.edges[id']? = some e) :
    ((c.pointers id).map c.named).Perm ((c'.pointers id').map c'.named) := by
  have hperm := h.embeds.named_perm he he'
  simp only [List.map_id'] at hperm
  exact hperm

/-- The ids in both charts, by the edges that they stand for. -/
theorem range_perm (h : Agrees c c') :
    ((List.range c.size).map (c.edges[·]?)).Perm ((List.range c'.size).map (c'.edges[·]?)) := by
  have hmap : ∀ d : Chart L, (List.range d.size).map (d.edges[·]?) = d.edges.map some := by
    intro d
    refine List.ext_getElem? fun i => ?_
    rw [List.getElem?_map, List.getElem?_map, size_eq_length_edges]
    by_cases hi : i < d.edges.length
    · rw [List.getElem?_range hi, List.getElem?_eq_getElem hi]
      exact congrArg some (List.getElem?_eq_getElem hi)
    · rw [List.getElem?_eq_none (by simpa using hi), List.getElem?_eq_none (by simpa using hi)]
      rfl
  rw [hmap, hmap]
  exact h.edges_perm.map some

theorem countPointers_eq (h : Agrees c c') : c.countPointers = c'.countPointers := by
  -- count the lists edge by edge, so that edges can be matched
  have hcount : ∀ d : Chart L, d.countPointers =
      ((List.range d.size).flatMap fun id => (d.pointers id).map d.named).length := by
    intro d
    simp only [countPointers_eq_sum_range, List.length_flatMap, List.length_map]
  rw [hcount, hcount]
  refine (perm_flatMap_of_perm_map h.range_perm fun id hid id' _ heq => ?_).length_eq
  obtain ⟨e, he⟩ := lt_size_iff.1 (List.mem_range.1 hid)
  exact h.named_perm he (heq ▸ he)

/-- Paths that stand for the same edges. -/
def SamePath (c c' : Chart L) (path path' : Finset EdgeId) : Prop :=
  ∀ j j' b, c.edges[j]? = some b → c'.edges[j']? = some b → (j ∈ path ↔ j' ∈ path')

/-- The trees of an edge are the same in both charts, up to their order. -/
theorem treesAvoiding_perm (h : Agrees c c') (complete : Bool) (path : Finset EdgeId)
    (id : EdgeId) (path' : Finset EdgeId) (id' : EdgeId) (e : Edge L)
    (he : c.edges[id]? = some e) (he' : c'.edges[id']? = some e)
    (hpath : SamePath c c' path path') :
    (c.treesAvoiding complete path id).Perm (c'.treesAvoiding complete path' id') :=
  h.embeds.treesAvoiding_perm complete path id path' id' e he he' hpath

end Agrees

end Chart

end ChartParsing
