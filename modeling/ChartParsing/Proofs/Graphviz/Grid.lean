/-
ChartParsing/Proofs/Graphviz/Grid.lean

The nodes of a chart's graph, and the arcs between them.

Nodes at distinct places have distinct names (`node_inj`), since the name of a
node tells its column and its row.  So a list that goes through all nodes, row
by row or column by column, has every name once (`count_flatMap_map`).

The arcs in the row of an edge are a walk from column 0 to the last one
(`leads_rowArcs`).  But for the loop of an edge that spans nothing they visit
the nodes of the row one after the other (`visits_rowArcs`).
-/
import ChartParsing.Graphviz
import Mathlib.Data.List.Nodup

namespace ChartParsing.Graphviz

variable {L : Type} [Label L]

/-! ### Names -/

theorem isDigit_of_mem_padded {n : Nat} {ch : Char} (h : ch ∈ (padded n).toList) :
    ch.isDigit = true := by
  rw [padded, String.toList_ofList, List.mem_append] at h
  rcases h with hzero | hdigit
  · rw [List.eq_of_mem_replicate hzero]
    rfl
  · exact Nat.isDigit_of_mem_toDigits (by decide) (by decide) hdigit

/-- The zeros in front do not change what number it is. -/
theorem ofDigitChars_padded (n : Nat) : Nat.ofDigitChars 10 (padded n).toList 0 = n := by
  rw [padded, String.toList_ofList, Nat.ofDigitChars_append, Nat.ofDigitChars_replicate_zero,
    Nat.mul_zero, Nat.ofDigitChars_ten_toDigits]

theorem padded_inj {m n : Nat} : padded m = padded n ↔ m = n := by
  refine ⟨fun h => ?_, congrArg padded⟩
  rw [← ofDigitChars_padded m, h, ofDigitChars_padded]

theorem toList_node (column row : Nat) :
    (node column row).toList = (padded column).toList ++ '.' :: (padded row).toList := by
  simp [node]

/-- The column of a node stands before the dot of its name. -/
theorem takeWhile_node (column row : Nat) :
    (node column row).toList.takeWhile Char.isDigit = (padded column).toList := by
  rw [toList_node, List.takeWhile_append_of_pos fun _ h => isDigit_of_mem_padded h]
  exact List.append_nil _

/-- Nodes at distinct places have distinct names. -/
theorem node_inj {column row column' row' : Nat} :
    node column row = node column' row' ↔ column = column' ∧ row = row' := by
  refine ⟨fun h => ?_, fun ⟨hcolumn, hrow⟩ => by rw [hcolumn, hrow]⟩
  have hcolumn : column = column' := by
    rw [← padded_inj, ← String.toList_inj, ← takeWhile_node column row, h, takeWhile_node]
  subst hcolumn
  rw [← String.toList_inj, toList_node, toList_node, List.append_right_inj, List.cons_inj_right,
    String.toList_inj, padded_inj] at h
  exact ⟨rfl, h⟩

/-! ### Places -/

section Places

variable (c : Chart L)

theorem visible_edge {e : Edge L} {id : EdgeId} (h : c.edges[id]? = some e) (column : Nat) :
    visible c column (id + 1) = (column ≤ e.start || e.stop ≤ column) := by
  rw [visible, Chart.edge?_eq_getElem?, h]

theorem mem_columns {column row : Nat} :
    column ∈ columns c row ↔ column ≤ c.tokens.length ∧ visible c column row = true := by
  rw [columns, List.mem_filter, List.mem_range, Nat.lt_succ_iff]

theorem mem_rows {column row : Nat} :
    row ∈ rows c column ↔ row ≤ c.size ∧ visible c column row = true := by
  rw [rows, List.mem_filter, List.mem_range, Nat.lt_succ_iff]

/-- The nodes of row 0 are at all columns. -/
theorem columns_zero : columns c 0 = List.range (c.tokens.length + 1) :=
  List.filter_eq_self.2 fun _ _ => rfl

end Places

/-- Going through all places, with a distinct name for each, names each once. -/
theorem count_flatMap_map {α β γ : Type} [DecidableEq γ] {name : α → β → γ}
    (hname : ∀ {a b a' b'}, name a b = name a' b' ↔ a = a' ∧ b = b') {as : List α}
    (has : as.Nodup) {bs : α → List β} (hbs : ∀ a, (bs a).Nodup) {a : α} {b : β} (ha : a ∈ as)
    (hb : b ∈ bs a) : (as.flatMap fun a => (bs a).map (name a)).count (name a b) = 1 := by
  refine List.count_eq_one_of_mem (List.nodup_flatMap.2 ⟨fun a _ => ?_, ?_⟩) ?_
  · exact (hbs a).map fun b b' h => (hname.1 h).2
  · refine has.imp fun {a a'} hne => ?_
    simp only [Function.onFun, List.disjoint_left, List.mem_map]
    rintro _ ⟨b, -, rfl⟩ ⟨b', -, h⟩
    exact hne (hname.1 h).1.symm
  · exact List.mem_flatMap.2 ⟨a, ha, List.mem_map_of_mem hb⟩

/-! ### Arcs -/

/-- The arcs lead from one column to another, each on from where the one before arrives. -/
def Leads (first : Nat) : List Arc → Nat → Prop
  | [], last => first = last
  | a :: arcs, last => a.source = first ∧ Leads a.target arcs last

theorem Leads.append {x y z : Nat} {arcs arcs' : List Arc} (h : Leads x arcs y)
    (h' : Leads y arcs' z) : Leads x (arcs ++ arcs') z := by
  induction arcs generalizing x with
  | nil => exact (show x = y from h) ▸ h'
  | cons a arcs ih => exact ⟨h.1, ih h.2⟩

theorem leads_gaps (first count : Nat) : Leads first (gaps first count) (first + count) := by
  induction count generalizing first with
  | zero => rfl
  | succ count ih =>
    have hrest := ih (first + 1)
    rw [Nat.add_assoc, Nat.add_comm 1] at hrest
    exact ⟨rfl, hrest⟩

theorem leads_rowArcs (c : Chart L) (e : Edge L) (hstop : e.stop ≤ c.tokens.length) :
    Leads 0 (rowArcs c e) c.tokens.length := by
  have hbefore := leads_gaps 0 e.start
  have hbehind := leads_gaps e.stop (c.tokens.length - e.stop)
  rw [Nat.zero_add] at hbefore
  rw [Nat.add_sub_cancel' hstop] at hbehind
  have hedge : Leads e.start [⟨e.start, e.stop, some e.text⟩] e.stop := ⟨rfl, rfl⟩
  exact (hbefore.append hedge).append hbehind

theorem of_mem_gaps {first count : Nat} {a : Arc} (h : a ∈ gaps first count) :
    a.label = none ∧ a.target = a.source + 1 ∧ first ≤ a.source ∧ a.target ≤ first + count := by
  obtain ⟨column, hcolumn, rfl⟩ := List.mem_map.1 h
  obtain ⟨hfirst, hlast⟩ := List.mem_range'_1.1 hcolumn
  exact ⟨rfl, rfl, hfirst, hlast⟩

theorem mem_rowArcs {c : Chart L} {e : Edge L} {a : Arc} :
    a ∈ rowArcs c e ↔ a ∈ gaps 0 e.start ∨ a = ⟨e.start, e.stop, some e.text⟩ ∨
      a ∈ gaps e.stop (c.tokens.length - e.stop) := by
  rw [rowArcs, List.mem_append, List.mem_append, List.mem_singleton, or_assoc]

theorem filter_label_rowArcs (c : Chart L) (e : Edge L) :
    (rowArcs c e).filter (fun a => a.label.isSome) = [⟨e.start, e.stop, some e.text⟩] := by
  have hgaps : ∀ first count, (gaps first count).filter (fun a => a.label.isSome) = [] := by
    intro first count
    refine List.filter_eq_nil_iff.2 fun a ha => ?_
    rw [(of_mem_gaps ha).1]
    decide
  rw [rowArcs, List.filter_append, List.filter_append, hgaps, hgaps]
  rfl

theorem of_mem_rowArcs {c : Chart L} {e : Edge L} {a : Arc} (h : a ∈ rowArcs c e)
    (hlabel : a.label = none) : a.target = a.source + 1 := by
  rcases mem_rowArcs.1 h with hbefore | rfl | hbehind
  · exact (of_mem_gaps hbefore).2.1
  · cases hlabel
  · exact (of_mem_gaps hbehind).2.1

/-- Both ends of an arc are nodes of the row. -/
theorem ends_mem_columns {c : Chart L} {e : Edge L} {id : EdgeId} (h : c.edges[id]? = some e)
    (hstop : e.stop ≤ c.tokens.length) {a : Arc} (ha : a ∈ rowArcs c e) :
    a.source ∈ columns c (id + 1) ∧ a.target ∈ columns c (id + 1) := by
  have hle := e.start_le_stop
  simp only [mem_columns, visible_edge c h, Bool.or_eq_true, decide_eq_true_eq]
  rcases mem_rowArcs.1 ha with hbefore | rfl | hbehind
  · obtain ⟨-, htarget, -, hlast⟩ := of_mem_gaps hbefore
    omega
  · dsimp only
    omega
  · obtain ⟨-, htarget, hfirst, hlast⟩ := of_mem_gaps hbehind
    omega

theorem map_target_gaps (first count : Nat) :
    (gaps first count).map Arc.target = List.range' (first + 1) count := by
  rw [gaps, List.map_map, Nat.add_comm, ← List.map_add_range']
  exact List.map_congr_left fun column _ => Nat.add_comm column 1

/-- Columns up to one, and those from there on. -/
theorem range_append_range' {m n : Nat} (h : m ≤ n) :
    List.range m ++ List.range' m (n - m) = List.range n := by
  have happend := List.range'_append_1 (s := 0) (m := m) (n := n - m)
  rwa [Nat.zero_add, Nat.add_sub_cancel' h, ← List.range_eq_range', ← List.range_eq_range']
    at happend

/-- The columns that an edge does not pass over are those up to its start and
those from its end on. -/
theorem filter_range_outside {start stop n : Nat} (hlt : start < stop) (hle : stop ≤ n) :
    (List.range n).filter (fun column => column ≤ start || stop ≤ column) =
      List.range (start + 1) ++ List.range' stop (n - stop) := by
  let outside (column : Nat) : Bool := column ≤ start || stop ≤ column
  have houtside : ∀ column, outside column = true ↔ column ≤ start ∨ stop ≤ column := by
    simp [outside]
  have hbefore : (List.range (start + 1)).filter outside = List.range (start + 1) := by
    refine List.filter_eq_self.2 fun column hcolumn => (houtside column).2 (.inl ?_)
    exact Nat.lt_succ_iff.1 (List.mem_range.1 hcolumn)
  have hpassed : (List.range' (start + 1) (stop - (start + 1))).filter outside = [] := by
    refine List.filter_eq_nil_iff.2 fun column hcolumn => mt (houtside column).1 ?_
    have hwithin := List.mem_range'_1.1 hcolumn
    omega
  have hbehind : (List.range' stop (n - stop)).filter outside = List.range' stop (n - stop) := by
    refine List.filter_eq_self.2 fun column hcolumn => (houtside column).2 (.inr ?_)
    exact (List.mem_range'_1.1 hcolumn).1
  calc (List.range n).filter outside
      = ((List.range (start + 1) ++ List.range' (start + 1) (stop - (start + 1))) ++
          List.range' stop (n - stop)).filter outside := by
        rw [range_append_range' hlt, range_append_range' hle]
    _ = List.range (start + 1) ++ List.range' stop (n - stop) := by
        rw [List.filter_append, List.filter_append, hbefore, hpassed, hbehind, List.append_nil]

/-- The arcs that lead on visit the nodes of a row, one after the other. -/
theorem visits_rowArcs (c : Chart L) {e : Edge L} {id : EdgeId} (h : c.edges[id]? = some e)
    (hstop : e.stop ≤ c.tokens.length) :
    0 :: ((rowArcs c e).filter fun a => a.source != a.target).map Arc.target =
      columns c (id + 1) := by
  have hgaps : ∀ first count,
      (gaps first count).filter (fun a => a.source != a.target) = gaps first count := by
    intro first count
    refine List.filter_eq_self.2 fun a ha => ?_
    rw [(of_mem_gaps ha).2.1]
    simp
  have hrange : ∀ m, 0 :: List.range' (0 + 1) m = List.range (m + 1) := fun m => by
    rw [List.range_eq_range', List.range'_succ]
  simp only [columns, visible_edge c h, rowArcs, List.filter_append, hgaps, List.map_append,
    map_target_gaps]
  rcases Nat.eq_or_lt_of_le e.start_le_stop with heq | hlt
  · -- the loop is left out, and no column is passed over
    have hall : (List.range (c.tokens.length + 1)).filter
        (fun column => column ≤ e.start || e.stop ≤ column) = List.range (c.tokens.length + 1) := by
      refine List.filter_eq_self.2 fun column _ => ?_
      simp only [Bool.or_eq_true, decide_eq_true_eq]
      omega
    have hloop : [(⟨e.start, e.stop, some e.text⟩ : Arc)].filter
        (fun a => a.source != a.target) = [] := by
      simp [heq]
    rw [hall, hloop, List.map_nil, List.append_nil, heq, Nat.add_comm e.stop 1, Nat.zero_add,
      List.range'_append_1, Nat.add_sub_cancel' hstop, ← hrange]
  · have hedge : [(⟨e.start, e.stop, some e.text⟩ : Arc)].filter
        (fun a => a.source != a.target) = [⟨e.start, e.stop, some e.text⟩] := by
      simp [Nat.ne_of_lt hlt]
    rw [filter_range_outside hlt (Nat.le_succ_of_le hstop), hedge, ← hrange, Nat.succ_sub hstop,
      List.range'_succ]
    simp

end ChartParsing.Graphviz
