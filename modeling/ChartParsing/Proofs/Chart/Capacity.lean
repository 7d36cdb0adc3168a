/-
ChartParsing/Proofs/Chart/Capacity.lean

The bounds on loops are never reached.

Edges put together from given ones (`Edge.Within`) end no later than these,
have no longer right-hand sides, and carry labels that advancing over the
given labels leads to.  There are at most `2 ^ Edge.capacityBits` of them
(`length_le_pow_capacityBits`), and a chart of such edges, whose child pointer
lists are as long as the dots of their edges, has at most
`2 ^ Edge.pointerBits` lists (`countPointers_le_pow_pointerBits`).
-/
import ChartParsing.Chart.Capacity
import ChartParsing.Proofs.Chart.Store
import ChartParsing.Proofs.Label.Lawful
import Mathlib.Algebra.BigOperators.Group.List.Lemmas
import Mathlib.Algebra.Order.BigOperators.Group.List
import Mathlib.Algebra.Order.Ring.Nat
import Mathlib.Data.Finset.Option
import Mathlib.Data.Finset.Prod
import Mathlib.Data.Fintype.BigOperators
import Mathlib.Data.Fintype.Pi

namespace ChartParsing

/-! ### Counting lists -/

section Rows

variable {α : Type}

/-- What a list holds at the first `n` places. -/
def rowOf (n : Nat) (as : List α) : Fin n → Option α := fun i => as[i.1]?

theorem eq_of_rowOf_eq {n : Nat} {as bs : List α} (ha : as.length ≤ n) (hb : bs.length ≤ n)
    (h : rowOf n as = rowOf n bs) : as = bs := by
  refine List.ext_getElem? fun i => ?_
  by_cases hi : i < n
  · exact congrFun h ⟨i, hi⟩
  · rw [List.getElem?_eq_none (by omega), List.getElem?_eq_none (by omega)]

theorem rowOf_mem [DecidableEq α] {n : Nat} {s : Finset α} {as : List α} (h : ∀ a ∈ as, a ∈ s) :
    rowOf n as ∈ Fintype.piFinset fun _ : Fin n => Finset.insertNone s :=
  Fintype.mem_piFinset.2 fun _ => Finset.mem_insertNone.2 fun a ha => h a (List.mem_of_getElem? ha)

theorem card_rows (n : Nat) (s : Finset α) [DecidableEq α] :
    (Fintype.piFinset fun _ : Fin n => Finset.insertNone s).card = (s.card + 1) ^ n := by
  rw [Fintype.card_piFinset, Finset.prod_const, Finset.card_insertNone, Finset.card_univ,
    Fintype.card_fin]

/-- How many lists over a set there are, none longer than `n`. -/
theorem length_le_pow_of_nodup [DecidableEq α] {n : Nat} {s : Finset α} {lists : List (List α)}
    (hnodup : lists.Nodup) (hlength : ∀ as ∈ lists, as.length ≤ n)
    (hmem : ∀ as ∈ lists, ∀ a ∈ as, a ∈ s) : lists.length ≤ (s.card + 1) ^ n := by
  rw [← List.toFinset_card_of_nodup hnodup, ← card_rows]
  -- a list is settled by what it holds at the first `n` places
  refine Finset.card_le_card_of_injOn (rowOf n) ?_ ?_
  · intro as has
    exact rowOf_mem (hmem as (List.mem_toFinset.1 has))
  · intro as has bs hbs heq
    exact eq_of_rowOf_eq (hlength as (List.mem_toFinset.1 has))
      (hlength bs (List.mem_toFinset.1 hbs)) heq

/-- How many lists over a set there are, each of length `n`. -/
theorem length_le_pow_of_length_eq [DecidableEq α] {n : Nat} {s : Finset α}
    {lists : List (List α)} (hnodup : lists.Nodup) (hlength : ∀ as ∈ lists, as.length = n)
    (hmem : ∀ as ∈ lists, ∀ a ∈ as, a ∈ s) : lists.length ≤ s.card ^ n := by
  have hcard : (Fintype.piFinset fun _ : Fin n => s.map Function.Embedding.some).card =
      s.card ^ n := by
    rw [Fintype.card_piFinset, Finset.prod_const, Finset.card_map, Finset.card_univ,
      Fintype.card_fin]
  rw [← List.toFinset_card_of_nodup hnodup, ← hcard]
  refine Finset.card_le_card_of_injOn (rowOf n) ?_ ?_
  · intro as has
    have has := List.mem_toFinset.1 has
    -- every one of the first `n` places is taken
    refine Fintype.mem_piFinset.2 fun i => ?_
    have hi : i.1 < as.length := hlength as has ▸ i.2
    rw [rowOf, List.getElem?_eq_getElem hi]
    exact Finset.mem_map_of_mem _ (hmem as has _ (List.getElem_mem hi))
  · intro as has bs hbs heq
    exact eq_of_rowOf_eq (hlength as (List.mem_toFinset.1 has)).le
      (hlength bs (List.mem_toFinset.1 hbs)).le heq

end Rows

namespace Edge

variable {L : Type}

/-! ### Making edges -/

theorem make_eq_ok {start stop dot : Nat} {lhs : L} {rhs : List L} {e : Edge L}
    (h : make start stop lhs rhs dot = .ok e) :
    e.start = start ∧ e.stop = stop ∧ e.lhs = lhs ∧ e.rhs = rhs ∧ e.dot = dot := by
  rw [make] at h
  split at h
  · split at h
    · obtain rfl := Except.ok.inj h
      exact ⟨rfl, rfl, rfl, rfl, rfl⟩
    · cases h
  · cases h

theorem exists_make {start stop dot : Nat} (lhs : L) {rhs : List L} (hspan : start ≤ stop)
    (hdot : dot ≤ rhs.length) : ∃ e, make start stop lhs rhs dot = .ok e :=
  ⟨_, by rw [make, dif_pos hspan, dif_pos hdot]⟩

/-- What has advanced over a label has a place for its dot. -/
theorem exists_make_advance [Label L] [LawfulLabel L] {start stop dot : Nat} {lhs found : L}
    {rhs : List L} {a : Advance L} (hspan : start ≤ stop)
    (h : Label.advance lhs rhs dot found = some a) :
    ∃ e, make start stop a.lhs a.rhs (dot + 1) = .ok e := by
  refine exists_make a.lhs hspan ?_
  rw [LawfulLabel.advance_length h]
  exact LawfulLabel.dot_lt_of_advance h

/-- An edge is made of its own parts. -/
theorem make_self (e : Edge L) : make e.start e.stop e.lhs e.rhs e.dot = .ok e := by
  rw [make, dif_pos e.start_le_stop, dif_pos e.dot_le_length]

/-- An edge is settled by its parts. -/
theorem ext_parts {e f : Edge L} (hstart : e.start = f.start) (hstop : e.stop = f.stop)
    (hlhs : e.lhs = f.lhs) (hrhs : e.rhs = f.rhs) (hdot : e.dot = f.dot) : e = f := by
  cases e
  cases f
  cases hstart
  cases hstop
  cases hlhs
  cases hrhs
  cases hdot
  rfl

/-- What settles an edge whose right-hand side is no longer than `n`. -/
def shape (n : Nat) (e : Edge L) : Nat × Nat × L × (Fin n → Option L) × Nat :=
  (e.start, e.stop, e.lhs, rowOf n e.rhs, e.dot)

theorem eq_of_shape_eq {n : Nat} {e f : Edge L} (he : e.rhs.length ≤ n) (hf : f.rhs.length ≤ n)
    (h : shape n e = shape n f) : e = f := by
  simp only [shape, Prod.mk.injEq] at h
  obtain ⟨hstart, hstop, hlhs, hrow, hdot⟩ := h
  exact ext_parts hstart hstop hlhs (eq_of_rowOf_eq he hf hrow) hdot

/-! ### Edges put together from others -/

theorem le_foldl_max {α : Type} (f : α → Nat) (as : List α) (n : Nat) :
    n ≤ as.foldl (fun n a => max n (f a)) n ∧
      ∀ a ∈ as, f a ≤ as.foldl (fun n a => max n (f a)) n := by
  induction as generalizing n with
  | nil => exact ⟨Nat.le_refl n, fun _ h => nomatch h⟩
  | cons a as ih =>
    obtain ⟨hle, hall⟩ := ih (max n (f a))
    rw [List.foldl_cons]
    refine ⟨le_trans (le_max_left _ _) hle, fun b hb => ?_⟩
    rcases List.mem_cons.1 hb with rfl | hb
    · exact le_trans (le_max_right _ _) hle
    · exact hall b hb

theorem stop_le_lastStop {seeds : List (Edge L)} {e : Edge L} (h : e ∈ seeds) :
    e.stop ≤ lastStop seeds :=
  (le_foldl_max (fun e : Edge L => e.stop) seeds 0).2 e h

theorem length_rhs_le_longestRhs {seeds : List (Edge L)} {e : Edge L} (h : e ∈ seeds) :
    e.rhs.length ≤ longestRhs seeds :=
  (le_foldl_max (fun e : Edge L => e.rhs.length) seeds 0).2 e h

variable [Label L] [LawfulLabel L]

/-- No later end, no longer right-hand side, and only labels that advancing leads to. -/
structure Within (seeds : List (Edge L)) (e : Edge L) : Prop where
  stop_le : e.stop ≤ lastStop seeds
  length_le : e.rhs.length ≤ longestRhs seeds
  lhs_mem : e.lhs ∈ LawfulLabel.reach L (seeds.flatMap labels)
  rhs_mem : ∀ l ∈ e.rhs, l ∈ LawfulLabel.reach L (seeds.flatMap labels)

theorem within_of_mem {seeds : List (Edge L)} {e : Edge L} (h : e ∈ seeds) : Within seeds e where
  stop_le := stop_le_lastStop h
  length_le := length_rhs_le_longestRhs h
  lhs_mem := LawfulLabel.mem_reach (List.mem_flatMap.2 ⟨e, h, List.mem_cons_self⟩)
  rhs_mem := fun _ hl =>
    LawfulLabel.mem_reach (List.mem_flatMap.2 ⟨e, h, List.mem_cons_of_mem _ hl⟩)

/-- Advancing an edge over another one, or a production over an edge, stays within. -/
theorem Within.advance {seeds : List (Edge L)} {l r e : Edge L} {start dot : Nat} {a : Advance L}
    (hl : Within seeds l) (hr : Within seeds r)
    (ha : Label.advance l.lhs l.rhs dot r.lhs = some a)
    (he : make start r.stop a.lhs a.rhs (dot + 1) = .ok e) : Within seeds e := by
  obtain ⟨-, hstop, hlhs, hrhs, -⟩ := make_eq_ok he
  obtain ⟨halhs, harhs⟩ :=
    LawfulLabel.closedUnderAdvance_reach (seeds.flatMap labels) hl.lhs_mem hl.rhs_mem hr.lhs_mem ha
  refine ⟨hstop ▸ hr.stop_le, ?_, hlhs ▸ halhs, hrhs ▸ harhs⟩
  rw [hrhs, LawfulLabel.advance_length ha]
  exact hl.length_le

/-! ### Counting edges -/

theorem card_labels_le (seeds : List (Edge L)) :
    (LawfulLabel.reach L (seeds.flatMap labels)).card ≤ 2 ^ labelBits seeds := by
  refine le_trans (LawfulLabel.card_reach_le _) ?_
  have hlt := lt_pow_bitLength (seeds.flatMap labels).length
  calc (seeds.flatMap labels).length * Nat.pow 2 (Label.varietyBits (seeds.flatMap labels))
      ≤ 2 ^ bitLength (seeds.flatMap labels).length *
          2 ^ Label.varietyBits (seeds.flatMap labels) :=
        Nat.mul_le_mul_right _ (Nat.le_of_lt hlt)
    _ = 2 ^ labelBits seeds := (Nat.pow_add _ _ _).symm

variable [DecidableEq L]

variable (L) in
/-- The shapes of edges that end by `last`, with labels from `s` and no more than `n` to match. -/
def shapes (last n : Nat) (s : Finset L) : Finset (Nat × Nat × L × (Fin n → Option L) × Nat) :=
  Finset.range (last + 1) ×ˢ Finset.range (last + 1) ×ˢ s ×ˢ
    (Fintype.piFinset fun _ : Fin n => Finset.insertNone s) ×ˢ Finset.range (n + 1)

theorem Within.shape_mem {seeds : List (Edge L)} {e : Edge L} (h : Within seeds e) :
    shape (longestRhs seeds) e ∈
      shapes L (lastStop seeds) (longestRhs seeds)
        (LawfulLabel.reach L (seeds.flatMap labels)) := by
  have hstart := e.start_le_stop
  have hdot := e.dot_le_length
  have hstop := h.stop_le
  have hlength := h.length_le
  simp only [shape, shapes, Finset.mem_product, Finset.mem_range]
  exact ⟨by omega, by omega, h.lhs_mem, rowOf_mem h.rhs_mem, by omega⟩

theorem succ_pow_le {m bits : Nat} (h : m ≤ 2 ^ bits) (n : Nat) :
    (m + 1) ^ n ≤ 2 ^ (n * (bits + 1)) := by
  have hpos := Nat.two_pow_pos bits
  have hsucc : m + 1 ≤ 2 ^ (bits + 1) := by
    rw [Nat.pow_succ]
    omega
  calc (m + 1) ^ n ≤ (2 ^ (bits + 1)) ^ n := Nat.pow_le_pow_left hsucc n
    _ = 2 ^ (n * (bits + 1)) := by rw [← Nat.pow_mul, Nat.mul_comm]

theorem card_shapes_le (seeds : List (Edge L)) :
    (shapes L (lastStop seeds) (longestRhs seeds)
      (LawfulLabel.reach L (seeds.flatMap labels))).card ≤ 2 ^ capacityBits seeds := by
  have hlast : lastStop seeds + 1 ≤ 2 ^ bitLength (lastStop seeds) := lt_pow_bitLength _
  have hlongest : longestRhs seeds + 1 ≤ 2 ^ bitLength (longestRhs seeds) := lt_pow_bitLength _
  have hlabels := card_labels_le seeds
  have hrows := succ_pow_le hlabels (longestRhs seeds)
  -- one factor for each component of a shape
  have hcard := Nat.mul_le_mul hlast
    (Nat.mul_le_mul hlast (Nat.mul_le_mul hlabels (Nat.mul_le_mul hrows hlongest)))
  rw [shapes, Finset.card_product, Finset.card_product, Finset.card_product,
    Finset.card_product, Finset.card_range, Finset.card_range, card_rows]
  refine le_trans hcard (le_of_eq ?_)
  rw [← Nat.pow_add, ← Nat.pow_add, ← Nat.pow_add, ← Nat.pow_add]
  congr 1
  rw [capacityBits]
  omega

/-- Only so many edges can be put together from given ones. -/
theorem length_le_pow_capacityBits {seeds edges : List (Edge L)} (hnodup : edges.Nodup)
    (h : ∀ e ∈ edges, Within seeds e) : edges.length ≤ 2 ^ capacityBits seeds := by
  rw [← List.toFinset_card_of_nodup hnodup]
  refine le_trans ?_ (card_shapes_le seeds)
  -- an edge is settled by its shape, and there are only so many shapes
  refine Finset.card_le_card_of_injOn (shape (longestRhs seeds)) ?_ ?_
  · intro e he
    exact (h e (List.mem_toFinset.1 he)).shape_mem
  · intro e he f hf heq
    exact eq_of_shape_eq (h e (List.mem_toFinset.1 he)).length_le
      (h f (List.mem_toFinset.1 hf)).length_le heq

end Edge

namespace Chart

variable {L : Type} [Label L]

/-! ### Counting child pointer lists -/

theorem countPointers_le_mul {c : Chart L} {bound : Nat}
    (h : ∀ id, (c.pointers id).length ≤ bound) : c.countPointers ≤ c.size * bound := by
  have hall : ∀ n ∈ c.entries.toList.map fun entry => entry.cpls.toList.length, n ≤ bound := by
    intro n hn
    obtain ⟨entry, hentry, rfl⟩ := List.mem_map.1 hn
    obtain ⟨id, hid⟩ := List.mem_iff_getElem?.1 hentry
    have hpointers : c.pointers id = entry.cpls.toList := by
      rw [pointers, ← Array.getElem?_toList, hid]
    exact hpointers ▸ h id
  rw [countPointers_eq_sum]
  have hsum := List.sum_le_card_nsmul _ bound hall
  simpa [size] using hsum

theorem nodup_pointers (c : Chart L) (id : EdgeId) : (c.pointers id).Nodup := by
  rw [pointers]
  split
  · exact Roster.nodup_toList _
  · exact List.nodup_nil

theorem length_pointers_le {c : Chart L} (hwf : c.WellFormed) {id : EdgeId} {n : Nat}
    (h : ∀ p ∈ c.pointers id, p.length ≤ n) : (c.pointers id).length ≤ (c.size + 1) ^ n := by
  have hlength := length_le_pow_of_nodup (s := Finset.range c.size) (c.nodup_pointers id) h
    fun p hp child hchild => Finset.mem_range.2 (hwf.child_lt id p hp child hchild)
  rwa [Finset.card_range] at hlength

theorem length_pointers_le_pow {c : Chart L} (hwf : c.WellFormed) {id : EdgeId} {n : Nat}
    (h : ∀ p ∈ c.pointers id, p.length = n) : (c.pointers id).length ≤ c.size ^ n := by
  have hlength := length_le_pow_of_length_eq (s := Finset.range c.size) (c.nodup_pointers id) h
    fun p hp child hchild => Finset.mem_range.2 (hwf.child_lt id p hp child hchild)
  rwa [Finset.card_range] at hlength

variable [LawfulLabel L] [DecidableEq L]

theorem size_le_pow_capacityBits {c : Chart L} (hwf : c.WellFormed) {seeds : List (Edge L)}
    (h : ∀ e ∈ c.edges, e.Within seeds) : c.size ≤ 2 ^ Edge.capacityBits seeds := by
  rw [size_eq_length_edges]
  exact Edge.length_le_pow_capacityBits hwf.nodup h

/-- Only so many lists justify edges put together from given ones, if no list
is longer than the right-hand side of its edge. -/
theorem countPointers_le_pow_pointerBits {c : Chart L} (hwf : c.WellFormed)
    {seeds : List (Edge L)} (h : ∀ e ∈ c.edges, e.Within seeds)
    (hlength : ∀ id e, c.edges[id]? = some e → ∀ p ∈ c.pointers id, p.length ≤ e.rhs.length) :
    c.countPointers ≤ 2 ^ Edge.pointerBits seeds := by
  have hsize := size_le_pow_capacityBits hwf h
  have hpointers : ∀ id, (c.pointers id).length ≤ (c.size + 1) ^ Edge.longestRhs seeds := by
    intro id
    refine length_pointers_le hwf fun p hp => ?_
    -- where there is a list there is an edge
    have hlt : id < c.size := by
      by_contra hge
      rw [pointers_of_le_size (Nat.not_lt.1 hge)] at hp
      cases hp
    obtain ⟨e, he⟩ := lt_size_iff.1 hlt
    exact le_trans (hlength id e he p hp) (h e (List.mem_of_getElem? he)).length_le
  calc c.countPointers ≤ c.size * (c.size + 1) ^ Edge.longestRhs seeds :=
        countPointers_le_mul hpointers
    _ ≤ 2 ^ Edge.capacityBits seeds *
          2 ^ (Edge.longestRhs seeds * (Edge.capacityBits seeds + 1)) :=
        Nat.mul_le_mul hsize (Edge.succ_pow_le hsize _)
    _ = 2 ^ Edge.pointerBits seeds := (Nat.pow_add _ _ _).symm

end Chart

end ChartParsing
