/-
ChartParsing/Proofs/Diagram.lean

The columns of a chart's text.

With `n` tokens in columns of `width` characters, a header and a bar are
`n * width + 3` characters long, and position `k` is at character
`1 + k * width` of both.  What stands at each character of a bar is said by
`ShowsEdge`: a dot at every position outside of the edge and blanks between
them, and an unbroken line from the start of the edge to its end.  A header has
a dot at every position and a token in each column between them (`ShowsTokens`).

Headers and the parts of a bar are made of cells of one width, so every
character can be looked up in its cell (`ChartParsing.Proofs.Cells`).

The rows of a chart are sorted by a stable sort, that is, by length, then by
start, and then by id (`exists_order`).
-/
import ChartParsing.Diagram
import ChartParsing.Proofs.Cells

namespace ChartParsing.Diagram

variable {L : Type} [Label L]

theorem length_fill (n : Nat) (ch : Char) : (fill n ch).length = n := List.length_replicate

theorem getElem?_fill {n i : Nat} (h : i < n) (ch : Char) : (fill n ch)[i]? = some ch :=
  List.getElem?_replicate_of_lt h

/-! ### Headers -/

/-- The text stands in the middle of a field of `width` characters, cut if it is
longer.  What cannot be split evenly is on the left of fields of odd width, and
on the right of others. -/
def Centers (s : List Char) (width : Nat) (field : List Char) : Prop :=
  ∃ left right, field = fill left ' ' ++ s.take width ++ fill right ' ' ∧ field.length = width ∧
    (left = right ∨ (left = right + 1 ∧ width % 2 = 1) ∨ (right = left + 1 ∧ width % 2 = 0))

theorem centers_centered (s : List Char) (width : Nat) : Centers s width (centered s width) := by
  have hle : (s.take width).length ≤ width := List.length_take_le width s
  refine ⟨_, _, rfl, ?_, ?_⟩
  · rw [centered, List.length_append, List.length_append, length_fill, length_fill]
    split <;> omega
  · split <;> omega

/-- The characters of a header over these tokens. -/
structure ShowsTokens (tokens : List String) (width : Nat) (header : List Char) : Prop where
  length : header.length = tokens.length * width + 3
  opening : header[0]? = some '|'
  closing : header[tokens.length * width + 2]? = some '|'
  dot : ∀ k ≤ tokens.length, header[1 + k * width]? = some '.'
  /-- Each token stands between the dots before and after it. -/
  token : ∀ k t, tokens[k]? = some t →
    Centers t.toList (width - 1) ((header.drop (1 + k * width + 1)).take (width - 1))

/-- The column of a token, with the dot behind it. -/
def tokenCell (width : Nat) (t : String) : List Char := centered t.toList (width - 1) ++ ['.']

theorem length_centered (s : List Char) (width : Nat) : (centered s width).length = width := by
  obtain ⟨left, right, -, hlength, -⟩ := centers_centered s width
  exact hlength

theorem length_tokenCell {width : Nat} (hwidth : 0 < width) (t : String) :
    (tokenCell width t).length = width := by
  rw [tokenCell, List.length_append, length_centered]
  exact Nat.sub_add_cancel hwidth

theorem headerChars_eq (c : Chart L) {width : Nat} (hwidth : 2 ≤ width) :
    headerChars c width = ['|', '.'] ++ (c.tokens.map (tokenCell width)).flatten ++ ['|'] := by
  rw [headerChars, if_neg (by omega), List.flatMap_def]
  rfl

theorem showsTokens_header (c : Chart L) {width : Nat} (hwidth : 2 ≤ width) :
    ShowsTokens c.tokens width (header c width).toList := by
  have hcells : ∀ cell ∈ c.tokens.map (tokenCell width), cell.length = width := by
    intro cell hcell
    obtain ⟨t, -, rfl⟩ := List.mem_map.1 hcell
    exact length_tokenCell (by omega) t
  have hlength : (c.tokens.map (tokenCell width)).flatten.length = c.tokens.length * width := by
    rw [length_flatten_cells hcells, List.length_map]
  rw [header, String.toList_ofList, headerChars_eq c hwidth]
  generalize hfields : (c.tokens.map (tokenCell width)).flatten = fields at hlength
  exact
    { length := by simp [hlength]
      opening := rfl
      closing := by
        rw [List.getElem?_append_right (by simp [hlength])]
        simp [hlength]
      dot := by
        intro k hk
        cases k with
        | zero => simp
        | succ k =>
          -- the dot is at the end of the cell before
          have hcell : (c.tokens.map (tokenCell width))[k]? =
              some (tokenCell width c.tokens[k]) := by
            rw [List.getElem?_map, List.getElem?_eq_getElem hk, Option.map_some]
          have hfield := getElem?_flatten_cells hcells hcell (i := width - 1) (by omega)
          rw [hfields, tokenCell, List.getElem?_append_right (by simp [length_centered])] at hfield
          have hlt : k * width + (width - 1) < fields.length := by
            have := Nat.mul_le_mul_right width hk
            rw [Nat.succ_mul] at this
            omega
          have hindex : 1 + (k + 1) * width = k * width + (width - 1) + 1 + 1 := by
            rw [Nat.succ_mul]
            omega
          rw [hindex, List.getElem?_append_left (by simpa using hlt)]
          simpa [length_centered] using hfield
      token := by
        intro k t ht
        obtain ⟨hk, rfl⟩ := List.getElem?_eq_some_iff.1 ht
        have hk' : k < (c.tokens.map (tokenCell width)).length := by rwa [List.length_map]
        have hdrop := drop_flatten_cells hcells k
        rw [hfields, List.drop_eq_getElem_cons hk', List.flatten_cons, List.getElem_map, tokenCell]
          at hdrop
        have hindex : 1 + k * width + 1 = 2 + k * width := by omega
        have hle : k * width ≤ fields.length := by
          rw [hlength]
          exact Nat.mul_le_mul_right width (Nat.le_of_lt hk)
        have hfield : ((['|', '.'] ++ fields ++ ['|']).drop (1 + k * width + 1)).take (width - 1) =
            centered c.tokens[k].toList (width - 1) := by
          rw [hindex, ← List.drop_drop]
          show ((fields ++ ['|']).drop (k * width)).take (width - 1) = _
          rw [List.drop_append_of_le_length hle, hdrop, List.append_assoc, List.append_assoc,
            List.take_left' (length_centered ..)]
        rw [hfield]
        exact centers_centered _ _ }

/-! ### Bars -/

/-- What an edge is drawn with at its start. -/
def startGlyph (e : Edge L) : Char :=
  if e.start = e.stop then if e.isComplete then '#' else '>' else '['

/-- What an edge is drawn with at its end, if that is not its start. -/
def stopGlyph (e : Edge L) : Char := if e.isComplete then ']' else '>'

/-- What an edge is drawn with in between: a double line if it is complete and
spans all `n` tokens. -/
def lineGlyph (n : Nat) (e : Edge L) : Char :=
  if e.isComplete ∧ e.start = 0 ∧ e.stop = n then '=' else '-'

/-- The characters of the bar of an edge over `n` tokens. -/
structure ShowsEdge (n : Nat) (e : Edge L) (width : Nat) (bar : List Char) : Prop where
  length : bar.length = n * width + 3
  opening : bar[0]? = some '|'
  closing : bar[n * width + 2]? = some '|'
  start : bar[1 + e.start * width]? = some (startGlyph e)
  stop : e.start < e.stop → bar[1 + e.stop * width]? = some (stopGlyph e)
  line : ∀ i, 1 + e.start * width < i → i < 1 + e.stop * width →
    bar[i]? = some (lineGlyph n e)
  dot : ∀ k ≤ n, k < e.start ∨ e.stop < k → bar[1 + k * width]? = some '.'
  blank : ∀ k < n, k < e.start ∨ e.stop ≤ k → ∀ m, 0 < m → m < width →
    bar[1 + k * width + m]? = some ' '

variable (c : Chart L) (e : Edge L) {width : Nat}

/-- Copies of a fill are one long fill. -/
theorem tile_fill (n width : Nat) (ch : Char) : tile n (fill width ch) = fill (n * width) ch :=
  List.flatten_replicate_replicate

theorem length_of_mem_replicate {n : Nat} {piece : List Char} (hpiece : piece.length = width) :
    ∀ cell ∈ List.replicate n piece, cell.length = width := fun cell hcell => by
  rw [List.eq_of_mem_replicate hcell, hpiece]

theorem length_tile {n : Nat} {piece : List Char} (hpiece : piece.length = width) :
    (tile n piece).length = n * width := by
  rw [tile, length_flatten_cells (length_of_mem_replicate hpiece), List.length_replicate]

/-- In every copy of a piece stands what stands in the piece. -/
theorem getElem?_tile {n k i : Nat} {piece : List Char} (hpiece : piece.length = width)
    (hk : k < n) (hi : i < width) : (tile n piece)[k * width + i]? = piece[i]? :=
  getElem?_flatten_cells (length_of_mem_replicate hpiece)
    (List.getElem?_replicate_of_lt hk) hi

/-- Between the ends of an edge there is only its line. -/
theorem mark_eq (hwidth : 0 < width) (hlt : e.start < e.stop) :
    mark c e width = '[' :: (fill ((e.stop - e.start) * width - 1) (lineGlyph c.tokens.length e) ++
      [stopGlyph e]) := by
  obtain ⟨d, hd⟩ : ∃ d, e.stop - e.start = d + 1 := ⟨e.stop - e.start - 1, by omega⟩
  have hline : (if (e.isComplete && e.start == 0 && e.stop == c.tokens.length) = true
      then '=' else '-') = lineGlyph c.tokens.length e := by
    simp [lineGlyph, and_assoc]
  have hlength : (d + 1) * width - 1 = d * width + (width - 1) := by
    rw [Nat.succ_mul]
    omega
  rw [mark, if_neg (Nat.ne_of_lt hlt)]
  dsimp only
  rw [hline, hd, Nat.add_sub_cancel, tile_fill, hlength]
  simp [fill, stopGlyph]

theorem length_mark (hwidth : 0 < width) :
    (mark c e width).length = (e.stop - e.start) * width + 1 := by
  by_cases heq : e.start = e.stop
  · rw [mark, if_pos heq, heq, Nat.sub_self, Nat.zero_mul]
    rfl
  · have hlt : e.start < e.stop := Nat.lt_of_le_of_ne e.start_le_stop heq
    have hpos : 0 < (e.stop - e.start) * width := Nat.mul_pos (by omega) hwidth
    rw [mark_eq c e hwidth hlt, List.length_cons, List.length_append, length_fill]
    simp only [List.length_singleton]
    omega

/-- The columns up to a position are those up to an earlier one, and the rest. -/
theorem mul_add_mul_sub {k n : Nat} (h : k ≤ n) (width : Nat) :
    k * width + (n - k) * width = n * width := by
  rw [← Nat.add_mul, Nat.add_sub_cancel' h]

/-- What is within a column is before the end of all. -/
theorem mul_add_lt {k m n : Nat} (hk : k < n) (hm : m < width) : k * width + m < n * width := by
  have hle := Nat.mul_le_mul_right width (Nat.succ_le_of_lt hk)
  rw [Nat.succ_mul] at hle
  omega

/-- A position before an edge, with the blanks behind it. -/
def cellBefore (width : Nat) : List Char := '.' :: fill (width - 1) ' '

/-- A position behind an edge, with the blanks before it. -/
def cellBehind (width : Nat) : List Char := fill (width - 1) ' ' ++ ['.']

theorem bar_eq :
    bar c e width = '|' :: (tile e.start (cellBefore width) ++ (mark c e width ++
      (tile (c.tokens.length - e.stop) (cellBehind width) ++ ['|']))) := by
  simp [bar, cellBefore, cellBehind]

theorem length_cellBefore (hwidth : 0 < width) : (cellBefore width).length = width := by
  rw [cellBefore, List.length_cons, length_fill, Nat.sub_add_cancel hwidth]

theorem length_cellBehind (hwidth : 0 < width) : (cellBehind width).length = width := by
  rw [cellBehind, List.length_append, length_fill]
  exact Nat.sub_add_cancel hwidth

theorem getElem?_bar_before (hwidth : 0 < width) {k m : Nat} (hk : k < e.start) (hm : m < width) :
    (bar c e width)[1 + k * width + m]? = (cellBefore width)[m]? := by
  have hcell := length_cellBefore hwidth
  have hindex : 1 + k * width + m = k * width + m + 1 := by omega
  rw [bar_eq, hindex, List.getElem?_cons_succ,
    List.getElem?_append_left (by rw [length_tile hcell]; exact mul_add_lt hk hm),
    getElem?_tile hcell hk hm]

theorem getElem?_bar_mark (hwidth : 0 < width) {i : Nat} (hi : i ≤ (e.stop - e.start) * width) :
    (bar c e width)[1 + e.start * width + i]? = (mark c e width)[i]? := by
  have hbefore := length_tile (n := e.start) (length_cellBefore hwidth)
  have hindex : 1 + e.start * width + i = e.start * width + i + 1 := by omega
  have hlt : i < (mark c e width).length := by
    rw [length_mark c e hwidth]
    omega
  rw [bar_eq, hindex, List.getElem?_cons_succ, List.getElem?_append_right (by omega), hbefore,
    Nat.add_sub_cancel_left, List.getElem?_append_left hlt]

theorem getElem?_bar_behind (hwidth : 0 < width) (i : Nat) :
    (bar c e width)[2 + e.stop * width + i]? =
      (tile (c.tokens.length - e.stop) (cellBehind width) ++ ['|'])[i]? := by
  have hbefore := length_tile (n := e.start) (length_cellBefore hwidth)
  have hmark := length_mark c e hwidth
  have hspan := mul_add_mul_sub e.start_le_stop width
  have hindex : 2 + e.stop * width + i = e.stop * width + 1 + i + 1 := by omega
  have hrest : e.stop * width + 1 + i - e.start * width - (mark c e width).length = i := by omega
  rw [bar_eq, hindex, List.getElem?_cons_succ, List.getElem?_append_right (by omega), hbefore,
    List.getElem?_append_right (by omega), hrest]

theorem getElem?_bar_cellBehind (hwidth : 0 < width) {k m : Nat}
    (hk : k < c.tokens.length - e.stop) (hm : m < width) :
    (bar c e width)[2 + e.stop * width + (k * width + m)]? = (cellBehind width)[m]? := by
  have hcell := length_cellBehind hwidth
  rw [getElem?_bar_behind c e hwidth,
    List.getElem?_append_left (by rw [length_tile hcell]; exact mul_add_lt hk hm),
    getElem?_tile hcell hk hm]

theorem length_bar (hwidth : 0 < width) (hstop : e.stop ≤ c.tokens.length) :
    (bar c e width).length = c.tokens.length * width + 3 := by
  have hspan := mul_add_mul_sub e.start_le_stop width
  have hrest := mul_add_mul_sub hstop width
  simp only [bar_eq, List.length_cons, List.length_append, length_tile (length_cellBefore hwidth),
    length_tile (length_cellBehind hwidth), length_mark c e hwidth, List.length_nil]
  omega

/-- A bar shows its edge, if that ends where the tokens do or before. -/
theorem showsEdge_bar (hwidth : 0 < width) (hstop : e.stop ≤ c.tokens.length) :
    ShowsEdge c.tokens.length e width (bar c e width) where
  length := length_bar c e hwidth hstop
  opening := by rw [bar_eq, List.getElem?_cons_zero]
  closing := by
    have hrest := mul_add_mul_sub hstop width
    have hbehind := length_tile (n := c.tokens.length - e.stop) (length_cellBehind hwidth)
    have hindex : c.tokens.length * width + 2 =
        2 + e.stop * width + (c.tokens.length - e.stop) * width := by omega
    rw [hindex, getElem?_bar_behind c e hwidth, List.getElem?_append_right (by omega), hbehind,
      Nat.sub_self, List.getElem?_cons_zero]
  start := by
    have hmark := getElem?_bar_mark c e hwidth (Nat.zero_le _)
    rw [Nat.add_zero] at hmark
    rw [hmark, startGlyph]
    by_cases heq : e.start = e.stop
    · rw [mark, if_pos heq, if_pos heq, List.getElem?_cons_zero]
    · rw [if_neg heq, mark_eq c e hwidth (Nat.lt_of_le_of_ne e.start_le_stop heq),
        List.getElem?_cons_zero]
  stop := by
    intro hlt
    have hspan := mul_add_mul_sub e.start_le_stop width
    have hpos : 0 < (e.stop - e.start) * width := Nat.mul_pos (by omega) hwidth
    have hindex : 1 + e.stop * width = 1 + e.start * width + (e.stop - e.start) * width := by omega
    rw [hindex, getElem?_bar_mark c e hwidth (Nat.le_refl _), mark_eq c e hwidth hlt]
    obtain ⟨i, hi⟩ : ∃ i, (e.stop - e.start) * width = i + 1 := ⟨_, (Nat.sub_add_cancel hpos).symm⟩
    rw [hi, List.getElem?_cons_succ, Nat.add_sub_cancel,
      List.getElem?_append_right (Nat.le_of_eq (length_fill ..)), length_fill, Nat.sub_self,
      List.getElem?_cons_zero]
  line := by
    intro i hstart hi
    have hspan := mul_add_mul_sub e.start_le_stop width
    have hlt : e.start < e.stop := by
      refine Nat.lt_of_le_of_ne e.start_le_stop fun heq => ?_
      rw [heq] at hstart
      omega
    obtain ⟨j, rfl⟩ : ∃ j, i = 1 + e.start * width + (j + 1) :=
      ⟨i - (2 + e.start * width), by omega⟩
    have hj : j < (e.stop - e.start) * width - 1 := by omega
    rw [getElem?_bar_mark c e hwidth (by omega), mark_eq c e hwidth hlt, List.getElem?_cons_succ,
      List.getElem?_append_left (by rwa [length_fill]), getElem?_fill hj]
  dot := by
    intro k hk hout
    rcases hout with hbefore | hbehind
    · have hcell := getElem?_bar_before c e hwidth hbefore hwidth
      rwa [Nat.add_zero] at hcell
    · -- the dot ends the column before it
      obtain ⟨q, rfl⟩ : ∃ q, k = e.stop + q + 1 := ⟨k - e.stop - 1, by omega⟩
      have hindex : 1 + (e.stop + q + 1) * width =
          2 + e.stop * width + (q * width + (width - 1)) := by
        rw [Nat.add_mul, Nat.add_mul, Nat.one_mul]
        omega
      rw [hindex, getElem?_bar_cellBehind c e hwidth (by omega) (Nat.sub_lt hwidth Nat.one_pos),
        cellBehind, List.getElem?_append_right (Nat.le_of_eq (length_fill ..)), length_fill,
        Nat.sub_self, List.getElem?_cons_zero]
  blank := by
    intro k hk hout m hm hlt
    obtain ⟨i, rfl⟩ : ∃ i, m = i + 1 := ⟨m - 1, by omega⟩
    have hi : i < width - 1 := by omega
    rcases hout with hbefore | hbehind
    · rw [getElem?_bar_before c e hwidth hbefore hlt, cellBefore, List.getElem?_cons_succ,
        getElem?_fill hi]
    · obtain ⟨q, rfl⟩ : ∃ q, k = e.stop + q := ⟨k - e.stop, by omega⟩
      have hindex : 1 + (e.stop + q) * width + (i + 1) = 2 + e.stop * width + (q * width + i) := by
        rw [Nat.add_mul]
        omega
      rw [hindex, getElem?_bar_cellBehind c e hwidth (by omega) (by omega), cellBehind,
        List.getElem?_append_left (by rwa [length_fill]), getElem?_fill hi]

/-! ### The order of the rows -/

/-- An edge with its id stands above another: it is shorter, or as long and
starts earlier, or was discovered before one of the same length and start. -/
def Above (p q : Edge L × EdgeId) : Prop :=
  p.1.length < q.1.length ∨ (p.1.length = q.1.length ∧
    (p.1.start < q.1.start ∨ (p.1.start = q.1.start ∧ p.2 < q.2)))

instance (p q : Edge L × EdgeId) : Decidable (Above p q) :=
  inferInstanceAs (Decidable (_ ∨ _))

omit [Label L] in
theorem Above.asymm {p q : Edge L × EdgeId} (h : Above p q) : ¬ Above q p := by
  intro h'
  rcases h with hlength | ⟨hlength, hstart | ⟨hstart, hid⟩⟩ <;>
    rcases h' with hlength' | ⟨hlength', hstart' | ⟨hstart', hid'⟩⟩
  case inr.inr.inr.inr => exact Nat.lt_asymm hid hid'
  all_goals omega

omit [Label L] in
theorem before_iff {e f : Edge L} :
    before e f = true ↔ e.length < f.length ∨ (e.length = f.length ∧ e.start ≤ f.start) := by
  simp [before]

omit [Label L] in
/-- A stable sort leaves no two edges that stand alike. -/
theorem above_of_zipIdxLE {p q : Edge L × EdgeId} (h : List.zipIdxLE before p q = true)
    (hne : p.2 ≠ q.2) : Above p q := by
  rw [List.zipIdxLE] at h
  by_cases hpq : before p.1 q.1 = true
  · rw [if_pos hpq] at h
    by_cases hqp : before q.1 p.1 = true
    · rw [if_pos hqp] at h
      have hid : p.2 < q.2 := Nat.lt_of_le_of_ne (of_decide_eq_true h) hne
      rcases before_iff.1 hpq with hlength | ⟨hlength, hstart⟩
      · exact .inl hlength
      · rcases Nat.lt_or_eq_of_le hstart with hlt | heq
        · exact .inr ⟨hlength, .inl hlt⟩
        · exact .inr ⟨hlength, .inr ⟨heq, hid⟩⟩
    · rw [before_iff] at hpq hqp
      unfold Above
      omega
  · rw [if_neg hpq] at h
    cases h

/-- The rows are those of all edges, each once, from top to bottom. -/
theorem exists_order :
    ∃ order : List (Edge L × EdgeId), order.Perm c.edges.zipIdx ∧ order.Pairwise Above ∧
      sortedEdges c = order.map Prod.fst := by
  have htrans : ∀ e f g : Edge L, before e f = true → before f g = true → before e g = true := by
    intro e f g hef hfg
    rw [before_iff] at *
    omega
  have htotal : ∀ e f : Edge L, (before e f || before f e) = true := by
    intro e f
    rw [Bool.or_eq_true, before_iff, before_iff]
    omega
  let order := c.edges.zipIdx.mergeSort (List.zipIdxLE before)
  have hperm : order.Perm c.edges.zipIdx := List.mergeSort_perm _ _
  have hids : order.Pairwise fun p q => p.2 ≠ q.2 := by
    have hnodup : (c.edges.zipIdx.map Prod.snd).Nodup := by
      rw [List.zipIdx_map_snd]
      exact List.nodup_range'
    exact List.pairwise_map.1 ((hperm.map Prod.snd).nodup_iff.2 hnodup)
  refine ⟨order, hperm, ?_, List.mergeSort_zipIdx.symm⟩
  have hsorted := List.pairwise_mergeSort (List.zipIdxLE_trans htrans) (List.zipIdxLE_total htotal)
    c.edges.zipIdx
  exact hsorted.imp₂ (fun p q h hne => above_of_zipIdxLE h hne) hids

/-- Rows line up with the header and with one another, and a chart is written as
a header and one row for each edge, from top to bottom. -/
theorem rows_line_up (hwidth : 0 < width) :
    (∀ e : Edge L, e.stop ≤ c.tokens.length → ∃ bar,
      (row c e width).toList = bar ++ ' ' :: e.text.toList ∧
        ShowsEdge c.tokens.length e width bar) ∧
      (2 ≤ width → ShowsTokens c.tokens width (header c width).toList) ∧
        ∃ order : List (Edge L × EdgeId), order.Perm c.edges.zipIdx ∧ order.Pairwise Above ∧
          text c width =
            header c width ++ String.join (order.map fun p => "\n" ++ row c p.1 width) := by
  refine ⟨fun e hstop => ⟨bar c e width, ?_, showsEdge_bar c e hwidth hstop⟩,
    showsTokens_header c, ?_⟩
  · simp [row]
  · obtain ⟨order, hperm, habove, hsorted⟩ := exists_order c
    refine ⟨order, hperm, habove, ?_⟩
    rw [text, hsorted, List.map_map]
    rfl

/-- Edges of each shape, the two of length 1 in the other order than they start in. -/
def drawn : Chart Symbol :=
  let s := Symbol.nonterminal "S"
  let found := Roster.empty.enter []
  ((((Chart.new ["a", "long"]).append (.ofProduction ⟨s, [s]⟩ 1) found).append
    (.leaf "long" 1) found).append ⟨0, 2, s, [s, s], 2, by decide, by decide⟩ found).append
      ⟨0, 1, s, [s, s], 1, by decide, by decide⟩ found

theorem rows_line_up_drawn :
    0 < 3 ∧ 2 ≤ 3 ∧ (Edge.leaf "long" 1 : Edge Symbol).stop ≤ drawn.tokens.length ∧
      ShowsEdge 2 (Edge.leaf "long" 1 : Edge Symbol) 3 "|.  [--]|".toList ∧
        ShowsTokens ["a", "long"] 3 "|.a .lo.|".toList ∧
          (∃ order : List (Edge Symbol × EdgeId), order.Perm drawn.edges.zipIdx ∧
            order.Pairwise Above ∧ text drawn 3 =
              header drawn 3 ++ String.join (order.map fun p => "\n" ++ row drawn p.1 3)) ∧
            text drawn 3 = "|.a .lo.|\n|.  >  .| [1:1] S -> * S\n|[-->  .| [0:1] S -> S * S\n" ++
              "|.  [--]| [1:2] 'long'\n|[=====]| [0:2] S -> S S *" := by
  have hwidth : 0 < 3 := by decide
  obtain ⟨hrows, hheader, horder⟩ := rows_line_up drawn hwidth
  obtain ⟨bar, hrow, hshows⟩ := hrows (.leaf "long" 1) (by decide)
  have hwritten : (row drawn (.leaf "long" 1) 3).toList =
      "|.  [--]|".toList ++ ' ' :: (Edge.leaf "long" 1 : Edge Symbol).text.toList := by
    decide +kernel
  obtain rfl : bar = "|.  [--]|".toList := List.append_cancel_right (hrow.symm.trans hwritten)
  have hheaded : (header drawn 3).toList = "|.a .lo.|".toList := by decide +kernel
  refine ⟨hwidth, by decide, by decide, hshows, hheaded ▸ hheader (by decide), horder, ?_⟩
  obtain ⟨order, hperm, habove, htext⟩ := horder
  -- there is only one such order
  have hids : order = [0, 3, 1, 2].filterMap fun id => drawn.edges.zipIdx[id]? := by
    exact List.Perm.eq_of_pairwise (fun p q _ _ hpq hqp => (hpq.asymm hqp).elim) habove
      (by decide) (hperm.trans (by decide))
  rw [htext, hids]
  decide +kernel

end ChartParsing.Diagram
