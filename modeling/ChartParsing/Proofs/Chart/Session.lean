/-
ChartParsing/Proofs/Chart/Session.lean

Searching a chart while it is being filled.

A session is a chart with the cursors that have been opened on it, each with
what it has delivered.  It is taken through requests in any order: insertions,
applications of rules, searches, and steps of any of its cursors.

Two things never go wrong (`Session.query_eq_drained`).  A query and a cursor
opened now give the same ids, those of the edges that meet the constraints, or
are refused alike, and the order of the constraints makes no difference.  And
a cursor opened earlier has delivered a first part of what a query answers now
and has just the rest before it, even if there was nothing left at some time
in between.

The invariant is `Session.Sound`: the index under an open cursor stays, and
what the cursor has delivered stays a first part of a scan.  Every request
keeps it (`Session.Sound.perform`).
-/
import ChartParsing.Proofs.Label.Feature
import ChartParsing.Proofs.Rule.Run

namespace ChartParsing

variable {L : Type} [Label L]

/-! ### Draining a cursor -/

namespace Chart

/-- The cursor delivers these ids one after the other, and then nothing more. -/
inductive Drains (c : Chart L) : Cursor → List EdgeId → Prop
  | done {cursor} : c.next? cursor = none → Drains c cursor []
  | next {cursor cursor' id ids} : c.next? cursor = some (id, cursor') → Drains c cursor' ids →
      Drains c cursor (id :: ids)

/-- What a cursor delivers is what remains to it. -/
theorem drains_remaining (c : Chart L) (cursor : Cursor) :
    c.Drains cursor (c.remaining cursor) := by
  generalize h : c.remaining cursor = ids
  induction ids generalizing cursor with
  | nil => exact .done ((c.next?_eq_none_iff cursor).2 h)
  | cons id ids ih =>
    have hnext := c.next?_eq_head? cursor
    rw [h, List.head?_cons, Option.map_some] at hnext
    have hrest := remaining_of_next? hnext
    rw [h, List.cons.injEq] at hrest
    exact .next hnext (ih _ hrest.2.symm)

/-- The ids, in increasing order, of exactly the edges with the values that are asked for. -/
structure Answers (c : Chart L) (cs : List Constraint) (ids : List EdgeId) : Prop where
  increasing : ids.Pairwise (· < ·)
  mem_iff : ∀ id, id ∈ ids ↔
    ∃ e, c.edges[id]? = some e ∧ ∀ k ∈ cs, e.valueOf k.attr = k.value

theorem answers_scan (c : Chart L) (cs : List Constraint) : c.Answers cs (c.scan cs) where
  increasing := c.pairwise_scan cs
  mem_iff := by
    intro id
    simp only [mem_scan, Constraint.holds, beq_iff_eq]

end Chart

/-! ### Sessions -/

/-- A cursor in use: what it was opened on, where it is, and what it has delivered. -/
structure Reader where
  constraints : List Constraint
  cursor : Cursor
  delivered : List EdgeId
  deriving DecidableEq

/-- A chart with the cursors that are in use on it. -/
structure Session (L : Type) [Label L] where
  chart : Chart L
  readers : List Reader

/-- What can be asked of a session. -/
inductive Request (L : Type) [Label L] where
  | insert (e : Edge L) (offered : List Pointers)
  | insertAfter (e : Edge L) (previous child : EdgeId)
  | apply (g : Grammar L) (indexed : g.Indexed) (application : Application)
  /-- Opens one more cursor. -/
  | select (cs : List Constraint)
  | query (cs : List Constraint)
  /-- The next edge from the cursor at a place. -/
  | next (place : Nat)

namespace Session

/-- A chart without edges, and no cursor. -/
def start (tokens : List String) : Session L := ⟨.new tokens, []⟩

/-- Opens a cursor, unless the constraints are refused. -/
def select (s : Session L) (cs : List Constraint) : Session L :=
  match s.chart.select cs with
  | .ok (c, cursor) => ⟨c, s.readers ++ [⟨cs, cursor, []⟩]⟩
  | .error _ => s

/-- Takes the next edge from a cursor, if there is the cursor and an edge for it. -/
def next (s : Session L) (place : Nat) : Session L :=
  match s.readers[place]? with
  | none => s
  | some r =>
    match s.chart.next? r.cursor with
    | none => s
    | some (id, cursor) =>
      ⟨s.chart, s.readers.set place ⟨r.constraints, cursor, r.delivered ++ [id]⟩⟩

variable [DecidableEq L]

/-- Does what is asked; what is refused changes nothing. -/
def perform (s : Session L) : Request L → Session L
  | .insert e offered => ⟨s.chart.after (s.chart.insert e offered), s.readers⟩
  | .insertAfter e previous child =>
    ⟨s.chart.after (s.chart.insertAfter e previous child), s.readers⟩
  | .apply g _ application => ⟨s.chart.after (application.perform g s.chart), s.readers⟩
  | .select cs => s.select cs
  -- a query only reads
  | .query _ => s
  | .next place => s.next place

/-- A session that has been asked all this, in this order. -/
def run (tokens : List String) (requests : List (Request L)) : Session L :=
  requests.foldl perform (start tokens)

end Session

/-! ### What every request keeps -/

/-- The cursor can go on, and what it has delivered comes first in a scan. -/
structure Reader.Sound (c : Chart L) (r : Reader) : Prop where
  accepted : Constraint.repeated? r.constraints = none
  source : r.cursor.source = Chart.sourceOf r.constraints
  serves : c.Serves r.cursor.source
  delivered : r.delivered <+: c.scan r.constraints
  taken : r.cursor.taken = r.delivered.length

theorem Reader.Sound.mono {c c' : Chart L} {changed : List EdgeId} {r : Reader}
    (hgrows : Chart.Grows c c' changed) (h : r.Sound c) : r.Sound c' where
  accepted := h.accepted
  source := h.source
  serves := hgrows.serves _ h.serves
  delivered := h.delivered.trans (hgrows.scan_prefix _)
  taken := h.taken

/-- What has been delivered and what remains make up a scan. -/
theorem Reader.Sound.delivered_append_remaining {c : Chart L} {r : Reader} (h : r.Sound c) :
    r.delivered ++ c.remaining r.cursor = c.scan r.constraints := by
  have hserves := h.serves
  rw [h.source] at hserves
  rw [Chart.remaining, h.source, Chart.reached_sourceOf hserves, h.taken]
  exact List.prefix_iff_eq_append.1 h.delivered

/-- Delivering one more edge. -/
theorem Reader.Sound.next {c : Chart L} {r : Reader} (h : r.Sound c) {id : EdgeId}
    {cursor : Cursor} (hnext : c.next? r.cursor = some (id, cursor)) :
    Reader.Sound c ⟨r.constraints, cursor, r.delivered ++ [id]⟩ := by
  have hall := h.delivered_append_remaining
  rw [Chart.remaining_of_next? hnext] at hall
  obtain ⟨-, rfl⟩ := Chart.next?_eq_some_iff.1 hnext
  refine ⟨h.accepted, h.source, h.serves, ?_, ?_⟩
  · have hprefix := List.prefix_append (r.delivered ++ [id])
      (c.remaining ⟨r.cursor.source, r.cursor.taken + 1⟩)
    rwa [List.append_assoc, List.singleton_append, hall] at hprefix
  · show r.cursor.taken + 1 = (r.delivered ++ [id]).length
    rw [List.length_append, h.taken]
    rfl

namespace Session

/-- A well-formed chart with cursors that can go on. -/
structure Sound (s : Session L) : Prop where
  wellFormed : s.chart.WellFormed
  readers : ∀ r ∈ s.readers, r.Sound s.chart

theorem sound_start (tokens : List String) : (start tokens : Session L).Sound where
  wellFormed := Chart.wellFormed_new tokens
  readers := fun _ h => nomatch h

/-- A growing chart keeps its cursors going. -/
theorem Sound.grow {s : Session L} (h : s.Sound) {c : Chart L} {changed : List EdgeId}
    (hwf : c.WellFormed) (hgrows : Chart.Grows s.chart c changed) :
    Sound ⟨c, s.readers⟩ where
  wellFormed := hwf
  readers := fun r hr => (h.readers r hr).mono hgrows

theorem Sound.select {s : Session L} (h : s.Sound) (cs : List Constraint) :
    (s.select cs).Sound := by
  cases hrepeated : Constraint.repeated? cs with
  | some a =>
    rw [Session.select, (Chart.select_and_query_eq_error hrepeated).1]
    exact h
  | none =>
    obtain ⟨c, hselect, hgrows, hwf, hserves⟩ := Chart.select_eq (c := s.chart) hrepeated
    rw [Session.select, hselect]
    refine ⟨hwf h.wellFormed, fun r hr => ?_⟩
    rcases List.mem_append.1 hr with hr | hr
    · exact (h.readers r hr).mono hgrows
    · rw [List.mem_singleton.1 hr]
      exact ⟨hrepeated, rfl, hserves, List.nil_prefix, rfl⟩

theorem Sound.next {s : Session L} (h : s.Sound) (place : Nat) : (s.next place).Sound := by
  rw [Session.next]
  split
  · exact h
  · rename_i r hr
    split
    · exact h
    · rename_i id cursor hnext
      refine ⟨h.wellFormed, fun r' hr' => ?_⟩
      rcases List.mem_or_eq_of_mem_set hr' with hr' | rfl
      · exact h.readers r' hr'
      · exact (h.readers r (List.mem_of_getElem? hr)).next hnext

/-! ### What every request does to the chart -/

theorem chart_select (s : Session L) (cs : List Constraint) :
    (s.select cs).chart = s.chart.after (s.chart.select cs) := by
  rw [Session.select]
  cases s.chart.select cs <;> rfl

/-- Taking an edge from a cursor only reads the chart. -/
theorem chart_next (s : Session L) (place : Nat) : (s.next place).chart = s.chart := by
  rw [Session.next]
  split
  · rfl
  · split <;> rfl

variable [DecidableEq L] [LawfulLabel L]

/-- Every request keeps the chart well formed, and lets it grow or leaves it as it is. -/
theorem perform_grows {s : Session L} (hwf : s.chart.WellFormed) (request : Request L) :
    (s.perform request).chart.WellFormed ∧
      ∃ changed, Chart.Grows s.chart (s.perform request).chart changed := by
  cases request with
  | insert e offered =>
    refine Chart.after_grows hwf fun c id? hinsert => ?_
    have hins := Chart.insert_inserted hwf hinsert
    exact ⟨hins.wellFormed, _, hins.grows⟩
  | insertAfter e previous child =>
    refine Chart.after_grows hwf fun c id? hinsert => ?_
    obtain ⟨known, -, hinsert⟩ := exists_of_bind_eq_ok hinsert
    have hins := Chart.insert_inserted hwf hinsert
    exact ⟨hins.wellFormed, _, hins.grows⟩
  | apply g indexed application =>
    refine Chart.after_grows hwf fun c changed hperform => ?_
    have hfollows := application.perform_follows hwf indexed hperform
    exact ⟨hfollows.wellFormed, _, hfollows.grows⟩
  | select cs =>
    rw [perform, chart_select]
    refine Chart.after_grows hwf fun c cursor hselect => ?_
    cases hrepeated : Constraint.repeated? cs with
    | some a =>
      rw [(Chart.select_and_query_eq_error hrepeated).1] at hselect
      cases hselect
    | none =>
      obtain ⟨c', hselect', hgrows, hwf', -⟩ := Chart.select_eq (c := s.chart) hrepeated
      obtain ⟨rfl, -⟩ := Prod.mk.inj (Except.ok.inj (hselect'.symm.trans hselect))
      exact ⟨hwf' hwf, [], hgrows⟩
  | query cs => exact ⟨hwf, [], Chart.Grows.refl s.chart⟩
  | next place =>
    rw [perform, chart_next]
    exact ⟨hwf, [], Chart.Grows.refl s.chart⟩

/-- Every request keeps a session sound. -/
theorem Sound.perform {s : Session L} (h : s.Sound) (request : Request L) :
    (s.perform request).Sound := by
  obtain ⟨hwf, changed, hgrows⟩ := perform_grows h.wellFormed request
  cases request with
  | insert e offered => exact h.grow hwf hgrows
  | insertAfter e previous child => exact h.grow hwf hgrows
  | apply g indexed application => exact h.grow hwf hgrows
  | select cs => exact h.select cs
  | query cs => exact h
  | next place => exact h.next place

theorem sound_run (tokens : List String) (requests : List (Request L)) :
    (run tokens requests).Sound := by
  have hfold : ∀ (requests : List (Request L)) {s : Session L}, s.Sound →
      (requests.foldl Session.perform s).Sound := by
    intro requests
    induction requests with
    | nil => exact fun h => h
    | cons request requests ih => exact fun h => ih (h.perform request)
  exact hfold requests (sound_start tokens)

/-- Whatever a chart has been asked before, a query and a new cursor answer
alike, with the edges that have the values asked for, or are refused alike; the
order of the constraints makes no difference; and what a cursor in use has
delivered, with what it delivers from here on, is what a query answers now. -/
theorem query_eq_drained (tokens : List String) (requests : List (Request L)) :
    (∀ cs,
      ((∃ a, 1 < (cs.filter fun k => k.attr = a).length ∧
          (run tokens requests).chart.query cs = .error (.invalidConstraint (.repeated a)) ∧
          (run tokens requests).chart.select cs = .error (.invalidConstraint (.repeated a))) ∨
        ∃ ids c cursor, (run tokens requests).chart.query cs = .ok ids ∧
          (run tokens requests).chart.select cs = .ok (c, cursor) ∧ c.Drains cursor ids ∧
          (run tokens requests).chart.Answers cs ids) ∧
      ∀ cs', cs.Perm cs' →
        (run tokens requests).chart.query cs' = (run tokens requests).chart.query cs ∧
        (run tokens requests).chart.select cs' = (run tokens requests).chart.select cs) ∧
    ∀ r ∈ (run tokens requests).readers, ∃ rest,
      (run tokens requests).chart.Drains r.cursor rest ∧
      (run tokens requests).chart.query r.constraints = .ok (r.delivered ++ rest) := by
  have hsound : (run tokens requests).Sound := sound_run tokens requests
  generalize run tokens requests = s at hsound
  refine ⟨fun cs => ⟨?_, fun cs' hperm => ?_⟩, fun r hr => ?_⟩
  · cases hrepeated : Constraint.repeated? cs with
    | some a =>
      have hcount := List.find?_some hrepeated
      rw [decide_eq_true_eq, List.countP_eq_length_filter] at hcount
      obtain ⟨hselect, hquery⟩ := Chart.select_and_query_eq_error (c := s.chart) hrepeated
      exact .inl ⟨a, hcount, hquery, hselect⟩
    | none =>
      obtain ⟨c, hselect, hgrows, -, hserves⟩ := Chart.select_eq (c := s.chart) hrepeated
      -- a new cursor has a whole scan before it
      have hremaining : c.remaining ⟨Chart.sourceOf cs, 0⟩ = s.chart.scan cs := by
        rw [Chart.remaining, Chart.reached_sourceOf hserves, List.drop_zero,
          hgrows.scan_eq_of_nil]
      exact .inr ⟨_, c, _, Chart.query_eq hrepeated, hselect,
        hremaining ▸ c.drains_remaining _, s.chart.answers_scan cs⟩
  · exact ⟨s.chart.query_perm hperm.symm, s.chart.select_perm hperm.symm⟩
  · have hreader := hsound.readers r hr
    refine ⟨_, s.chart.drains_remaining r.cursor, ?_⟩
    rw [Chart.query_eq hreader.accepted, hreader.delivered_append_remaining]

/-- A cursor on complete edges that finds nothing at first, then a leaf, then
nothing again, and then the edge that the leaf has predicted. -/
def lateArrivals (s a : L) : List (Request L) :=
  let g := Grammar.ofList s [⟨s, [a]⟩]
  [.select [.isComplete true], .next 0, .apply g rfl (.once .leafInit none), .next 0, .next 0,
    .query [.stop 1, .start 0], .apply g rfl (.once .predictCombine (some 0)), .next 0]

/-- That cursor in the end. -/
def lateReader : Reader := ⟨[.isComplete true], ⟨.bucket [.isComplete] [.flag true], 2⟩, [0, 1]⟩

theorem query_eq_drained_late_arrivals :
    let plain := run ["a"] (lateArrivals (Symbol.nonterminal "S") (Symbol.terminal "a"))
    let featured := run ["a"]
      (lateArrivals (FeatureSymbol.category (.bare "S")) (FeatureSymbol.terminal "a"))
    (lateReader ∈ plain.readers ∧ ∃ rest, plain.chart.Drains lateReader.cursor rest ∧
        plain.chart.query [.isComplete true] = .ok ([0, 1] ++ rest)) ∧
      (lateReader ∈ featured.readers ∧ ∃ rest, featured.chart.Drains lateReader.cursor rest ∧
        featured.chart.query [.isComplete true] = .ok ([0, 1] ++ rest)) ∧
      [Constraint.stop 1, .start 0].Perm [.start 0, .stop 1] ∧
        plain.chart.query [.start 0, .stop 1] = plain.chart.query [.stop 1, .start 0] := by
  intro plain featured
  have hplain : lateReader ∈ plain.readers := by decide +kernel
  have hfeatured : lateReader ∈ featured.readers := by decide +kernel
  have hperm : [Constraint.stop 1, .start 0].Perm [.start 0, .stop 1] := .swap _ _ _
  exact ⟨⟨hplain, (query_eq_drained ["a"] _).2 lateReader hplain⟩,
    ⟨hfeatured, (query_eq_drained ["a"] _).2 lateReader hfeatured⟩,
    hperm, (((query_eq_drained ["a"] _).1 _).2 _ hperm).1⟩

end Session

end ChartParsing
