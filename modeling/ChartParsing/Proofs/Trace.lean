/-
ChartParsing/Proofs/Trace.lean

What the tracing observer writes.

`Trace.trace` is the trace of some calls, as it should be: nothing if nothing
has changed, and otherwise the header and then the rows of each call.

A sink with room for `n` rows keeps the first `n` of what is sent to it
(`received`), and how an action writes is said by `Sends`: if not all of its
rows fit, it stops at the first that does not, and fails.  Rows that have not
been reached do not fit either, so what the sink has is the same as if all of
them had been sent.  That makes it irrelevant where an action was stopped, and
`Sends` goes along with one action after the other (`Sends.bind`).

The observer's own state is whether the header has been written.  Where it has
not been, although there was something to write, the sink has room for nothing
at all, and neither the header nor anything else will ever be written
(`Traced`).
-/
import ChartParsing.Proofs.Parser.Account
import ChartParsing.Trace

namespace ChartParsing

variable {L : Type} [Label L]

/-! ### The trace of some calls -/

/-- The edges that a call reports, in order. -/
def Call.edges (call : Call L) : List (Edge L) := call.changed.filterMap call.chart.edge?

namespace Trace

/-- The rows of a call: the rule's name if asked for, and a row for each edge. -/
def rowsOf (verbosity width : Nat) (call : Call L) : List String :=
  if call.changed = [] then []
  else (if 1 < verbosity then [call.rule.text ++ ":"] else []) ++
    call.edges.map fun e => Diagram.row call.chart e width

/-- The whole trace of the calls of a parse of the tokens. -/
def trace (tokens : List String) (verbosity traceWidth : Nat) (calls : List (Call L)) :
    List String :=
  let width := traceWidth / (tokens.length + 1)
  if verbosity = 0 ∨ ∀ call ∈ calls, call.changed = [] then []
  else Diagram.header (Chart.new tokens : Chart L) width :: calls.flatMap (rowsOf verbosity width)

/-- What a sink has of the rows that were sent to it. -/
def received : (room : Option Nat) → List String → List String
  | none, rows => rows
  | some n, rows => rows.take n

/-- Whether a sink has room for the row that `i` others were sent before. -/
def Accepts (room : Option Nat) (i : Nat) : Prop := ∀ n, room = some n → i < n

/-! ### Sending rows -/

/-- The sink, which had this much room at first, holds what there was room for. -/
structure Holds (room : Option Nat) (rows : List String) (s : State) : Prop where
  written : s.sink.rows = received room rows
  left : s.sink.room = room.map (· - rows.length)

/-- There is room for all of the rows. -/
def Fits (room : Option Nat) (rows : List String) : Prop := ∀ n, room = some n → rows.length ≤ n

/-- There is no room for any other row. -/
def Full (room : Option Nat) (rows : List String) : Prop := ∃ n, room = some n ∧ n ≤ rows.length

section

variable {room : Option Nat} {rows more : List String} {row : String} {s : State}

theorem Fits.of_append (h : Fits room (rows ++ more)) : Fits room rows := by
  intro n hn
  have hle := h n hn
  rw [List.length_append] at hle
  omega

theorem full_of_not_fits (h : ¬ Fits room rows) : Full room rows := by
  cases room with
  | none => exact absurd (fun n hn => nomatch hn) h
  | some n =>
    refine ⟨n, rfl, Nat.le_of_not_le fun hle => h fun m hm => ?_⟩
    obtain rfl := Option.some.inj hm
    exact hle

theorem Full.not_fits_append (h : Full room rows) (hne : more ≠ []) :
    ¬ Fits room (rows ++ more) := by
  obtain ⟨n, rfl, hle⟩ := h
  intro hfits
  have hle' := hfits n rfl
  have hpos := List.length_pos_iff.2 hne
  rw [List.length_append] at hle'
  omega

/-- What a full sink holds does not depend on what else is sent to it. -/
theorem Holds.of_full (h : Holds room rows s) (hfull : Full room rows) (more : List String) :
    Holds room (rows ++ more) s := by
  obtain ⟨n, rfl, hle⟩ := hfull
  constructor
  · exact h.written.trans (List.take_append_of_le_length hle).symm
  · have hnone : n - rows.length = n - (rows ++ more).length := by
      rw [List.length_append]
      omega
    exact h.left.trans (congrArg some hnone)

/-- A row is written where there is room for it, and refused where there is none. -/
theorem Holds.write_spec (h : Holds room rows s) (row : String) :
    (Fits room (rows ++ [row]) ∧ ∃ s', (write row).run.run s = (.ok (), s') ∧
      Holds room (rows ++ [row]) s' ∧ s'.headed = s.headed) ∨
        (Full room rows ∧ (write row).run.run s = (.error .sinkFull, s)) := by
  obtain ⟨⟨written, left⟩, headed⟩ := s
  obtain ⟨hwritten, hleft⟩ := h
  cases room with
  | none =>
    obtain rfl : left = none := hleft
    refine .inl ⟨(fun n hn => nomatch hn), _, rfl, ⟨?_, rfl⟩, rfl⟩
    have hrows : written.reverse = rows := hwritten
    show (row :: written).reverse = rows ++ [row]
    rw [List.reverse_cons, hrows]
  | some n =>
    obtain rfl : left = some (n - rows.length) := hleft
    have hrows : written.reverse = rows.take n := hwritten
    have hlength : (rows ++ [row]).length = rows.length + 1 := List.length_append
    cases hroom : n - rows.length with
    | zero => exact .inr ⟨⟨n, rfl, Nat.le_of_sub_eq_zero hroom⟩, rfl⟩
    | succ left =>
      have hle : (rows ++ [row]).length ≤ n := by omega
      refine .inl ⟨fun m hm => Option.some.inj hm ▸ hle, _, rfl, ⟨?_, ?_⟩, rfl⟩
      · show (row :: written).reverse = (rows ++ [row]).take n
        rw [List.take_of_length_le hle, List.reverse_cons, hrows,
          List.take_of_length_le (by omega)]
      · have hleft : left = n - (rows ++ [row]).length := by omega
        exact congrArg some hleft

end

/-- The action sends these rows.  It succeeds if there is room for all of them,
and otherwise it fails because there is not. -/
def Sends (m : ExceptT Fault (StateM State) Unit) (more : List String) : Prop :=
  ∀ room rows s, Holds room rows s → ∃ r s', m.run.run s = (r, s') ∧
    Holds room (rows ++ more) s' ∧ s'.headed = s.headed ∧
      ((r = .ok () ∧ (more = [] ∨ Fits room (rows ++ more))) ∨
        (r = .error .sinkFull ∧ more ≠ [] ∧ ¬ Fits room (rows ++ more)))

section

variable {m m' : ExceptT Fault (StateM State) Unit} {rows rows' : List String}

theorem sends_pure : Sends (pure ()) [] := by
  intro room rows s h
  refine ⟨_, _, rfl, ?_, rfl, .inl ⟨rfl, .inl rfl⟩⟩
  rwa [List.append_nil]

theorem sends_write (row : String) : Sends (write row) [row] := by
  intro room rows s h
  rcases h.write_spec row with ⟨hfits, s', hrun, h', hheaded⟩ | ⟨hfull, hrun⟩
  · exact ⟨_, _, hrun, h', hheaded, .inl ⟨rfl, .inr hfits⟩⟩
  · have hne : [row] ≠ [] := List.cons_ne_nil row []
    exact ⟨_, _, hrun, h.of_full hfull [row], rfl, .inr ⟨rfl, hne, hfull.not_fits_append hne⟩⟩

theorem run_bind_of_ok {s s' : State} (h : m.run.run s = (.ok (), s')) :
    (m >>= fun _ => m').run.run s = m'.run.run s' := by
  rw [ExceptT.run_bind, StateT.run_bind, h]
  rfl

theorem run_bind_of_error {s s' : State} {x : Fault} (h : m.run.run s = (.error x, s')) :
    (m >>= fun _ => m').run.run s = (.error x, s') := by
  rw [ExceptT.run_bind, StateT.run_bind, h]
  rfl

/-- One action after the other sends the rows of both. -/
theorem Sends.bind (h : Sends m rows) (h' : Sends m' rows') :
    Sends (m >>= fun _ => m') (rows ++ rows') := by
  intro room sent s hs
  obtain ⟨r, s', hrun, hs', hheaded, hr⟩ := h room sent s hs
  rcases hr with ⟨rfl, hfits⟩ | ⟨rfl, hne, hfull⟩
  · obtain ⟨r', s'', hrun', hs'', hheaded', hr'⟩ := h' room (sent ++ rows) s' hs'
    rw [List.append_assoc] at hs'' hr'
    refine ⟨r', s'', (run_bind_of_ok hrun).trans hrun', hs'', hheaded'.trans hheaded, ?_⟩
    rcases hr' with ⟨rfl, hfits'⟩ | ⟨rfl, hne', hfull'⟩
    · refine .inl ⟨rfl, ?_⟩
      rcases hfits' with rfl | hfits'
      · rwa [List.append_nil]
      · exact .inr hfits'
    · exact .inr ⟨rfl, List.append_ne_nil_of_right_ne_nil rows hne', hfull'⟩
  · -- what is left to send is lost
    have hs'' := hs'.of_full (full_of_not_fits hfull) rows'
    rw [List.append_assoc] at hs''
    have hne' := List.append_ne_nil_of_left_ne_nil hne rows'
    refine ⟨_, s', run_bind_of_error hrun, hs'', hheaded, .inr ⟨rfl, hne', ?_⟩⟩
    rw [← List.append_assoc]
    exact fun hfits => hfull hfits.of_append

/-- A row for each edge. -/
theorem sends_writeRows {c : Chart L} (width : Nat) {ids : List EdgeId} {es : List (Edge L)}
    (hes : ids.map c.edge? = es.map some) :
    Sends (writeRows c width ids) (es.map fun e => Diagram.row c e width) := by
  induction ids generalizing es with
  | nil =>
    obtain rfl : es = [] := List.map_eq_nil_iff.1 hes.symm
    exact sends_pure
  | cons id ids ih =>
    rw [List.map_cons] at hes
    obtain ⟨e, es, rfl, he, hes⟩ := List.map_eq_cons_iff.1 hes.symm
    have hedge : c.edge id = .ok e := by rw [Chart.edge, ← he]
    rw [writeRows, hedge]
    exact (sends_write _).bind (ih hes.symm)

end

/-! ### What a call adds to the trace -/

variable {tokens : List String} {verbosity traceWidth : Nat} {calls : List (Call L)}
  {call : Call L}

theorem trace_eq_nil_iff :
    trace tokens verbosity traceWidth calls = [] ↔
      verbosity = 0 ∨ ∀ call ∈ calls, call.changed = [] := by
  rw [trace]
  split
  · rename_i h
    exact iff_of_true rfl h
  · rename_i h
    exact iff_of_false (List.cons_ne_nil _ _) h

theorem flatMap_rowsOf_eq_nil (verbosity width : Nat) (h : ∀ call ∈ calls, call.changed = []) :
    calls.flatMap (rowsOf verbosity width) = [] :=
  List.flatMap_eq_nil_iff.2 fun call hcall => if_pos (h call hcall)

/-- The rows by which a call adds to the trace of the calls before it: the first
one that reports anything adds the header. -/
def addedBy (tokens : List String) (verbosity traceWidth : Nat) (calls : List (Call L))
    (call : Call L) : List String :=
  let width := traceWidth / (tokens.length + 1)
  if verbosity = 0 ∨ call.changed = [] then []
  else (if trace tokens verbosity traceWidth calls = [] then
      [Diagram.header (Chart.new tokens : Chart L) width] else []) ++ rowsOf verbosity width call

theorem trace_concat :
    trace tokens verbosity traceWidth (calls ++ [call]) =
      trace tokens verbosity traceWidth calls ++
        addedBy tokens verbosity traceWidth calls call := by
  have hall : (∀ c ∈ calls ++ [call], c.changed = []) ↔
      (∀ c ∈ calls, c.changed = []) ∧ call.changed = [] := by
    rw [List.forall_mem_append, List.forall_mem_singleton]
  simp only [addedBy, trace_eq_nil_iff]
  simp only [trace, hall]
  by_cases hzero : verbosity = 0
  · simp [hzero]
  by_cases hcall : call.changed = []
  · have hrows : rowsOf verbosity (traceWidth / (tokens.length + 1)) call = [] := if_pos hcall
    simp [hzero, hcall, hrows]
  by_cases hcalls : ∀ c ∈ calls, c.changed = []
  · have hrows := flatMap_rowsOf_eq_nil verbosity (traceWidth / (tokens.length + 1)) hcalls
    simp [hzero, hcall, if_pos hcalls, hrows]
  · simp [hzero, hcall, hcalls]

/-! ### The observer -/

/-- The call shows a chart over the tokens, and reports only edges of this chart. -/
structure Shown (tokens : List String) (call : Call L) : Prop where
  tokens : call.chart.tokens = tokens
  edges : call.changed.map call.chart.edge? = call.edges.map some

/-- What has become of the trace of some calls, in a sink with this much room:
it is there as far as there was room, and if anything is, the header is. -/
structure Traced (room : Option Nat) (rows : List String) (s : State) : Prop where
  holds : Holds room rows s
  headed_iff : s.headed = true ↔ received room rows ≠ []

/-- None of the rows by which `rows` went on is refused. -/
def Accepted (room : Option Nat) (rows more : List String) : Prop :=
  ∀ i, rows.length ≤ i → i < (rows ++ more).length → Accepts room i

section

variable {room : Option Nat} {rows more : List String} {s : State}

theorem received_nil (room : Option Nat) : received room [] = [] := by
  cases room with
  | none => rfl
  | some n => exact List.take_nil

theorem received_of_fits (h : Fits room rows) : received room rows = rows := by
  cases room with
  | none => rfl
  | some n => exact List.take_of_length_le (h n rfl)

theorem received_append_ne_nil (h : received room rows ≠ []) (more : List String) :
    received room (rows ++ more) ≠ [] := by
  cases room with
  | none => exact List.append_ne_nil_of_left_ne_nil h more
  | some n =>
    rw [received, List.take_append]
    exact List.append_ne_nil_of_left_ne_nil h _

theorem accepted_iff : Accepted room rows more ↔ more = [] ∨ Fits room (rows ++ more) := by
  have hlength : (rows ++ more).length = rows.length + more.length := List.length_append
  constructor
  · intro h
    by_cases hne : more = []
    · exact .inl hne
    · -- the last row fits, so all do
      have hpos := List.length_pos_iff.2 hne
      refine .inr fun n hn => ?_
      have hlast := h (rows.length + more.length - 1) (by omega) (by omega) n hn
      omega
  · rintro (rfl | hfits) i hi hlt n hn
    · rw [List.append_nil] at hlt
      omega
    · exact Nat.lt_of_lt_of_le hlt (hfits n hn)

/-- From this state the action goes on with the trace by these rows, and fails
just if one of them is refused. -/
def GoesOn (room : Option Nat) (rows more : List String) (m : ExceptT Fault (StateM State) Unit)
    (s : State) : Prop :=
  ∃ r s', m.run.run s = (r, s') ∧ Traced room (rows ++ more) s' ∧
    ((r = .ok () ∧ Accepted room rows more) ∨ (r = .error .sinkFull ∧ ¬ Accepted room rows more))

/-- Once the header is there, what sends rows goes on with the trace by them. -/
theorem Sends.goesOn {m : ExceptT Fault (StateM State) Unit} (hm : Sends m more)
    (h : Holds room rows s) (hheaded : s.headed = true) (hrows : received room rows ≠ []) :
    GoesOn room rows more m s := by
  obtain ⟨r, s', hrun, h', hheaded', hr⟩ := hm room rows s h
  refine ⟨r, s', hrun, ⟨h', ?_⟩, ?_⟩
  · exact iff_of_true (hheaded'.trans hheaded) (received_append_ne_nil hrows more)
  · rcases hr with ⟨hr, hfits⟩ | ⟨hr, hne, hfull⟩
    · exact .inl ⟨hr, accepted_iff.2 hfits⟩
    · refine .inr ⟨hr, fun haccepted => ?_⟩
      exact (accepted_iff.1 haccepted).elim hne hfull

end

theorem header_congr {c c' : Chart L} (h : c.tokens = c'.tokens) (width : Nat) :
    Diagram.header c width = Diagram.header c' width := by
  rw [Diagram.header, Diagram.header, Diagram.headerChars, Diagram.headerChars, h]

/-- Behind the header, a call sends its rows. -/
theorem sends_rowsOf (hcall : Shown tokens call) (hne : call.changed ≠ [])
    (verbosity width : Nat) :
    Sends (do
        if 1 < verbosity then write (call.rule.text ++ ":")
        writeRows call.chart width call.changed)
      (rowsOf verbosity width call) := by
  have hrows := sends_writeRows width hcall.edges
  rw [rowsOf, if_neg hne]
  by_cases hverbose : 1 < verbosity
  · simp only [if_pos hverbose]
    exact (sends_write _).bind hrows
  · simp only [if_neg hverbose]
    exact sends_pure.bind hrows

theorem rowsOf_ne_nil (hcall : Shown tokens call) (hne : call.changed ≠ [])
    (verbosity width : Nat) : rowsOf verbosity width call ≠ [] := by
  have hedges : call.edges ≠ [] := by
    intro hnil
    have hmap := hcall.edges
    rw [hnil, List.map_nil, List.map_eq_nil_iff] at hmap
    exact hne hmap
  rw [rowsOf, if_neg hne]
  exact List.append_ne_nil_of_right_ne_nil _ fun h => hedges (List.map_eq_nil_iff.1 h)

theorem writeHeader_of_headed {s : State} (h : s.headed = true) (c : Chart L) (width : Nat) :
    (writeHeader c width).run.run s = (.ok (), s) := by
  obtain ⟨sink, headed⟩ := s
  obtain rfl : headed = true := h
  rfl

/-- The header is written if there is room for it, and then counts as written. -/
theorem Holds.writeHeader_spec {room : Option Nat} {rows : List String} {s : State}
    (h : Holds room rows s) (hheaded : s.headed = false) (c : Chart L) (width : Nat) :
    (Fits room (rows ++ [Diagram.header c width]) ∧
      ∃ s', (writeHeader c width).run.run s = (.ok (), s') ∧
        Holds room (rows ++ [Diagram.header c width]) s' ∧ s'.headed = true) ∨
      (Full room rows ∧ (writeHeader c width).run.run s = (.error .sinkFull, s)) := by
  have hrun : (writeHeader c width).run.run s = (do
      write (Diagram.header c width)
      modify fun s => { s with headed := true } : ExceptT Fault (StateM State) Unit).run.run s := by
    obtain ⟨sink, headed⟩ := s
    obtain rfl : headed = false := hheaded
    rfl
  rcases h.write_spec (Diagram.header c width) with ⟨hfits, s', hwrite, h', -⟩ | ⟨hfull, hwrite⟩
  · refine .inl ⟨hfits, { s' with headed := true }, ?_, ⟨h'.written, h'.left⟩, rfl⟩
    rw [hrun]
    exact run_bind_of_ok hwrite
  · refine .inr ⟨hfull, ?_⟩
    rw [hrun]
    exact run_bind_of_error hwrite

section

variable {room : Option Nat} {sent rows : List String} {m : ExceptT Fault (StateM State) Unit}
  {s : State}

/-- After the header, rows are sent as they are. -/
theorem Traced.goesOn_of_headed (h : Traced room sent s) (hheaded : s.headed = true)
    (hm : Sends m rows) (c : Chart L) (width : Nat) :
    GoesOn room sent ((if sent = [] then [Diagram.header c width] else []) ++ rows)
      (writeHeader c width >>= fun _ => m) s := by
  have hreceived := h.headed_iff.1 hheaded
  have hsent : sent ≠ [] := by
    rintro rfl
    exact hreceived (received_nil room)
  obtain ⟨r, s', hrun, hresult⟩ := hm.goesOn h.holds hheaded hreceived
  rw [if_neg hsent, List.nil_append]
  exact ⟨r, s', (run_bind_of_ok (writeHeader_of_headed hheaded c width)).trans hrun, hresult⟩

/-- Before the header, either nothing has been sent yet, and the header comes
first, or there is no room for anything. -/
theorem Traced.goesOn_of_not_headed (h : Traced room sent s) (hheaded : s.headed = false)
    (hm : Sends m rows) (hrows : rows ≠ []) (c : Chart L) (width : Nat) :
    GoesOn room sent ((if sent = [] then [Diagram.header c width] else []) ++ rows)
      (writeHeader c width >>= fun _ => m) s := by
  have hnone : received room sent = [] := by
    by_contra hsome
    rw [h.headed_iff.2 hsome] at hheaded
    cases hheaded
  rcases h.holds.writeHeader_spec hheaded c width with
    ⟨hfits, s', hwrite, h', hheaded'⟩ | ⟨hfull, hwrite⟩
  · obtain rfl : sent = [] := (received_of_fits hfits.of_append).symm.trans hnone
    rw [List.nil_append] at hfits h'
    have hreceived : received room [Diagram.header c width] ≠ [] := by
      rw [received_of_fits hfits]
      exact List.cons_ne_nil _ _
    obtain ⟨r, s'', hrun, htraced, hr⟩ := hm.goesOn h' hheaded' hreceived
    have hadded : [Diagram.header c width] ++ rows ≠ [] := List.cons_ne_nil _ _
    simp only [accepted_iff, hrows, false_or] at hr
    rw [if_pos rfl, GoesOn, List.nil_append, accepted_iff, List.nil_append]
    simp only [hadded, false_or]
    exact ⟨r, s'', (run_bind_of_ok hwrite).trans hrun, htraced, hr⟩
  · have hadded := List.append_ne_nil_of_right_ne_nil
      (if sent = [] then [Diagram.header c width] else []) hrows
    generalize (if sent = [] then [Diagram.header c width] else []) ++ rows = added at *
    have h' := h.holds.of_full hfull added
    refine ⟨_, s, run_bind_of_error hwrite, ⟨h', ?_⟩, .inr ⟨rfl, ?_⟩⟩
    · rw [← h'.written, h.holds.written]
      exact h.headed_iff
    · rw [accepted_iff]
      exact fun haccepted => haccepted.elim hadded (hfull.not_fits_append hadded)

end

/-- One more call goes on with the trace. -/
theorem Traced.observe {room : Option Nat} {s : State}
    (h : Traced room (trace tokens verbosity traceWidth calls) s) (hcall : Shown tokens call) :
    GoesOn room (trace tokens verbosity traceWidth calls)
      (addedBy tokens verbosity traceWidth calls call)
      (observer verbosity traceWidth call.chart call.rule call.changed) s := by
  by_cases hsilent : verbosity = 0 ∨ call.changed = []
  · rw [observer, addedBy, if_pos hsilent, if_pos hsilent]
    refine ⟨_, s, rfl, ?_, .inl ⟨rfl, accepted_iff.2 (.inl rfl)⟩⟩
    rwa [List.append_nil]
  have hne : call.changed ≠ [] := fun h => hsilent (.inr h)
  have hwidth : traceWidth / (call.chart.tokens.length + 1) = traceWidth / (tokens.length + 1) := by
    rw [hcall.tokens]
  have hheader : Diagram.header (Chart.new tokens : Chart L) (traceWidth / (tokens.length + 1)) =
      Diagram.header call.chart (traceWidth / (tokens.length + 1)) :=
    header_congr hcall.tokens.symm _
  rw [observer, addedBy, if_neg hsilent, if_neg hsilent, hwidth]
  dsimp only
  rw [hheader]
  have hrest := sends_rowsOf hcall hne verbosity (traceWidth / (tokens.length + 1))
  have hrows := rowsOf_ne_nil hcall hne verbosity (traceWidth / (tokens.length + 1))
  cases hheaded : s.headed with
  | true => exact h.goesOn_of_headed hheaded hrest call.chart _
  | false => exact h.goesOn_of_not_headed hheaded hrest hrows call.chart _

/-- What has become of the trace of a run of calls. -/
theorem traced_foldl_see (room : Option Nat) (hcalls : ∀ call ∈ calls, Shown tokens call) :
    Traced room (trace tokens verbosity traceWidth calls)
      (calls.foldl (Observer.see (observer verbosity traceWidth)) (.start room)) := by
  -- by induction from the last call, which goes on with the trace of those before it
  induction calls using List.reverseRecOn with
  | nil =>
    have hnil : trace tokens verbosity traceWidth ([] : List (Call L)) = [] :=
      trace_eq_nil_iff.2 (.inr fun call h => nomatch h)
    rw [hnil]
    refine ⟨⟨(received_nil room).symm, ?_⟩, ?_⟩
    · cases room <;> rfl
    · exact iff_of_false (fun h => nomatch h) (fun h => h (received_nil room))
  | append_singleton calls call ih =>
    have hbefore := ih fun c hc => hcalls c (List.mem_append_left _ hc)
    have hcall := hcalls call (List.mem_append_right _ List.mem_cons_self)
    obtain ⟨r, s', hrun, htraced, -⟩ := hbefore.observe hcall
    rw [List.foldl_append, List.foldl_cons, List.foldl_nil, Observer.see, hrun, trace_concat]
    exact htraced

end Trace

/-! ### The calls of a parse -/

/-- Calls that lead from chart to chart show what they report. -/
theorem Chart.Leads.shown {c c' : Chart L} {calls : List (Call L)} (h : Leads c calls c') :
    ∀ call ∈ calls, Trace.Shown c.tokens call := by
  induction h with
  | nil => exact fun call h => nomatch h
  | @cons c call calls c' hgrows _ ih =>
    refine List.forall_mem_cons.2 ⟨⟨hgrows.tokens, ?_⟩, hgrows.tokens ▸ ih⟩
    rw [Call.edges, List.map_filterMap_some_eq_filter_map_isSome]
    refine (List.filter_eq_self.2 fun x hx => ?_).symm
    obtain ⟨id, hid, rfl⟩ := List.mem_map.1 hx
    obtain ⟨e, he⟩ := Chart.lt_size_iff.1 (hgrows.lt_size_of_mem hid)
    rw [Chart.edge?_eq_getElem?, he]
    rfl

namespace Parser

/-- A trace of these calls into a sink with this much room: as much of it as
there is room for, and a call fails only if one of its own rows is refused. -/
structure TracesInto (tokens : List String) (verbosity traceWidth : Nat) (calls : List (Call L))
    (room : Option Nat) (seen : Trace.State) : Prop where
  rows : seen.sink.rows =
    Trace.received room (Trace.trace tokens verbosity traceWidth calls)
  outcome : ∀ before call after, calls = before ++ call :: after →
    let observer : Observer L Trace.State Trace.Fault := Trace.observer verbosity traceWidth
    let before' := Trace.trace tokens verbosity traceWidth before
    let upTo := Trace.trace tokens verbosity traceWidth (before ++ [call])
    let accepted := ∀ i, before'.length ≤ i → i < upTo.length → Trace.Accepts room i
    let result := ((observer call.chart call.rule call.changed).run.run
      (before.foldl observer.see (.start room))).1
    (result = .ok () ∧ accepted) ∨ (result = .error .sinkFull ∧ ¬ accepted)

/-- The sink in which the calls are traced, one after the other. -/
theorem tracesInto_foldl_see {tokens : List String} {calls : List (Call L)}
    (hshown : ∀ call ∈ calls, Trace.Shown tokens call) (verbosity traceWidth : Nat)
    (room : Option Nat) :
    TracesInto tokens verbosity traceWidth calls room
      (calls.foldl (Observer.see (Trace.observer verbosity traceWidth)) (.start room)) where
  rows := (Trace.traced_foldl_see room hshown).holds.written
  outcome := by
    rintro before call after rfl
    have hbefore : ∀ c ∈ before, Trace.Shown tokens c := fun c hc =>
      hshown c (List.mem_append_left _ hc)
    have hcall := hshown call (List.mem_append_right _ List.mem_cons_self)
    have htraced : Trace.Traced room (Trace.trace tokens verbosity traceWidth before) _ :=
      Trace.traced_foldl_see room hbefore
    obtain ⟨r, s', hrun, -, hr⟩ := htraced.observe hcall
    dsimp only
    rw [Trace.trace_concat, hrun]
    exact hr

variable [DecidableEq L] {σ ε : Type}

/-- A parse under any observer is the one that keeps its calls, with these
calls shown to the observer. -/
theorem chartParseWith_eq_replay (p : Parser L) (observer : Observer L σ ε) (seen : σ)
    (tokens : List String) :
    p.chartParseWith observer seen tokens =
      (p.chartParseWith .recording [] tokens).map fun o =>
        ⟨o.chart, o.stats, o.seen.foldl observer.see seen⟩ := by
  have hcarried := (Progress.carries_replay p.grammar observer seen).run p.config (.start tokens [])
  rw [chartParseWith, chartParseWith]
  cases p.grammar.checkCoverage tokens with
  | error x => rfl
  | ok u =>
    rw [ok_bind, ok_bind]
    exact bind_map_comm hcarried fun done => rfl

variable [LawfulLabel L]

/-- Covered tokens are parsed, by calls that lead up to the chart. -/
theorem exists_leads {p : Parser L} (hg : p.grammar.Indexed) {tokens : List String}
    (hcheck : p.grammar.checkCoverage tokens = .ok ()) :
    ∃ calls chart stats, p.chartParseWith .recording [] tokens = .ok ⟨chart, stats, calls⟩ ∧
      (Chart.new tokens).Leads calls chart := by
  obtain ⟨done, hdone, -⟩ :=
    Progress.run_spec hg .recording p.config (p := Progress.start tokens []) rfl
  obtain ⟨calls, hcalls, -⟩ := Progress.records_run hg (Chart.wellFormed_new tokens) hdone
  have hseen : done.seen = calls := hcalls.seen
  refine ⟨done.seen, done.chart, ⟨done.applications, done.chart.size, done.chart.countPointers⟩,
    ?_, hseen ▸ hcalls.leads⟩
  rw [chartParseWith, hcheck, ok_bind, hdone]
  rfl

/-- The tracing observer writes the trace of the calls of the parse, and of a
trace that does not fit its first rows; the parse is the same in any case.  One
that is refused makes no call. -/
theorem traces_into_sink (p : Parser L) (hg : p.grammar.Indexed) (tokens : List String)
    (verbosity traceWidth : Nat) :
    (∃ t i, FirstUncovered p.grammar.productions tokens t i ∧ p.Refuses tokens t i) ∨
      ∃ calls chart stats, p.chartParseWith .recording [] tokens = .ok ⟨chart, stats, calls⟩ ∧
        (∀ call ∈ calls, Trace.Shown tokens call) ∧
          ∀ room : Option Nat, ∃ seen,
            p.chartParseWith (Trace.observer verbosity traceWidth) (.start room) tokens =
              .ok ⟨chart, stats, seen⟩ ∧
            TracesInto tokens verbosity traceWidth calls room seen := by
  cases hcheck : p.grammar.checkCoverage tokens with
  | error x =>
    obtain ⟨t, i, rfl, hfirst⟩ := hg.checkCoverage_eq_error_iff.1 hcheck
    exact .inl ⟨t, i, hfirst, refuses_of_checkCoverage hcheck⟩
  | ok =>
    obtain ⟨calls, chart, stats, hrecorded, hleads⟩ := exists_leads hg hcheck
    have hshown : ∀ call ∈ calls, Trace.Shown tokens call := hleads.shown
    refine .inr ⟨calls, chart, stats, hrecorded, hshown, fun room => ?_⟩
    refine ⟨calls.foldl (Observer.see (Trace.observer verbosity traceWidth)) (.start room),
      ?_, tracesInto_foldl_see hshown verbosity traceWidth room⟩
    rw [chartParseWith_eq_replay, hrecorded]
    rfl

/-- A trace of five rows, the last call of which finds no room for its two. -/
theorem traces_into_sink_three_rows :
    let p : Parser Symbol :=
      ⟨.ofList (.nonterminal "S") [⟨.nonterminal "S", [.terminal "a"]⟩],
        ⟨bottomUpStrategy, .agenda, 50⟩⟩
    let rows := ["|. a  .|", "Leaf Init:", "|[====]| [0:1] 'a'", "Bottom Up Predict Combine:",
      "|[====]| [0:1] S -> 'a' *"]
    p.grammar.Indexed ∧
      ∃ calls chart stats seen, p.chartParseWith .recording [] ["a"] = .ok ⟨chart, stats, calls⟩ ∧
        Trace.trace ["a"] 2 10 calls = rows ∧
          p.chartParseWith (Trace.observer 2 10) (.start (some 3)) ["a"] =
            .ok ⟨chart, stats, seen⟩ ∧
          TracesInto ["a"] 2 10 calls (some 3) seen ∧ seen.sink.rows = rows.take 3 := by
  intro p rows
  have hrows : (p.chartParseWith (Trace.observer 2 10) (.start none) ["a"]).map
      (fun o => o.seen.sink.rows) = .ok rows := by
    decide +kernel
  rcases traces_into_sink p rfl ["a"] 2 10 with
    ⟨t, i, -, hrefuses⟩ | ⟨calls, chart, stats, hrecorded, -, hall⟩
  · rw [hrefuses.chartParse] at hrows
    cases hrows
  obtain ⟨whole, hwhole, hwritten⟩ := hall none
  obtain ⟨seen, hseen, htraces⟩ := hall (some 3)
  rw [hwhole] at hrows
  have htrace : Trace.trace ["a"] 2 10 calls = rows :=
    hwritten.rows.symm.trans (Except.ok.inj hrows)
  refine ⟨rfl, calls, chart, stats, seen, hrecorded, htrace, hseen, htraces, ?_⟩
  rw [htraces.rows, htrace]
  rfl

end Parser

end ChartParsing
