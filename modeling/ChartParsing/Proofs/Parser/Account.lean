/-
ChartParsing/Proofs/Parser/Account.lean

The account of a parse.

An observer is shown every application of a rule.  One that keeps all calls
has, in the end, the account of the parse, and every other observer, also one
that fails, has been shown just these calls (`Progress.carries_replay`).

Since each call reports exactly what it changed, the calls add up: the chart
of a call has come from that of the call before (`Chart.Leads`), so everything
that all calls report together has come from nothing.  And whatever is reported
has its turn: under the agenda each report is offered to the rules once, and
full passes go on until one reports nothing (`Parser.Accounts`).
-/
import ChartParsing.Proofs.Cells
import ChartParsing.Proofs.Parser.Correspondence
import ChartParsing.Proofs.Parser.Safety
import ChartParsing.Proofs.Rule.Report

namespace ChartParsing

/-- What an observer is shown: the chart after an application, the rule, and the
ids of the edges that it changed. -/
structure Call (L : Type) [Label L] where
  chart : Chart L
  rule : Rule
  changed : List EdgeId

variable {L σ ε : Type} [Label L]

/-- Everything that the calls report, in order. -/
def Call.reported (calls : List (Call L)) : List EdgeId := calls.flatMap Call.changed

theorem Call.reported_append (calls calls' : List (Call L)) :
    reported (calls ++ calls') = reported calls ++ reported calls' := List.flatMap_append

namespace Observer

/-- The observer's state after one more call, which may have failed. -/
def see (observer : Observer L σ ε) (seen : σ) (call : Call L) : σ :=
  (((observer call.chart call.rule call.changed).run).run seen).2

/-- Keeps every call. -/
def recording : Observer L (List (Call L)) Unit := fun chart rule changed =>
  modify fun calls => calls ++ [⟨chart, rule, changed⟩]

end Observer

/-! ### Whoever observes -/

namespace Progress

/-- The same progress under the eyes of another observer, who is shown the calls that were kept. -/
def replay (observer : Observer L σ ε) (seen : σ) (p : Progress L (List (Call L))) :
    Progress L σ :=
  ⟨p.chart, p.applications, p.seen.foldl observer.see seen⟩

/-- Whatever an application comes to, the other observer is shown it behind the calls that were kept. -/
theorem record_replay (observer : Observer L σ ε) (seen : σ) (n : Nat) (calls : List (Call L))
    (rule : Rule) (result : Except ChartError (Chart L × List EdgeId)) :
    (result >>= fun r =>
        .ok (record observer n (calls.foldl observer.see seen) rule r.1 r.2, r.2)) =
      (result >>= fun r => .ok (record .recording n calls rule r.1 r.2, r.2)).map
        (carry (replay observer seen)) := by
  cases result with
  | error x => rfl
  | ok r =>
    have hcalls : (record .recording n calls rule r.1 r.2).seen = calls ++ [⟨r.1, rule, r.2⟩] := rfl
    show Except.ok _ = Except.ok (replay observer seen (record .recording n calls rule r.1 r.2), r.2)
    rw [replay, hcalls, List.foldl_append]
    rfl

variable [DecidableEq L]

/-- A parse goes the same way, whoever observes it. -/
theorem carries_replay (g : Grammar L) (observer : Observer L σ ε) (seen : σ) :
    Carries (replay observer seen) g .recording g observer where
  apply := fun rule id? p =>
    record_replay observer seen p.applications p.seen rule (rule.apply g id? p.chart)
  applyEverywhere := fun rule p =>
    record_replay observer seen p.applications p.seen rule (rule.applyEverywhere g p.chart)
  pointerBits := fun _ => rfl

end Progress

/-! ### Calls that lead from chart to chart -/

namespace Chart

/-- The chart of each call has come from that of the call before it, by the
changes that the call reports. -/
inductive Leads : Chart L → List (Call L) → Chart L → Prop
  | nil {c} : Leads c [] c
  | cons {c call calls c'} : Grows c call.chart call.changed → Leads call.chart calls c' →
      Leads c (call :: calls) c'

/-- No call shows fewer edges or lists than the call before it, and a call
shows as many of both exactly if it reports nothing. -/
def Climbs : Chart L → List (Call L) → Prop
  | _, [] => True
  | c, call :: calls =>
    c.size ≤ call.chart.size ∧ c.countPointers ≤ call.chart.countPointers ∧
      (call.changed = [] ↔
        call.chart.size = c.size ∧ call.chart.countPointers = c.countPointers) ∧
        call.chart.Climbs calls

variable {c c' c'' : Chart L} {changed : List EdgeId} {calls calls' : List (Call L)}

/-- What is not reported does not count. -/
theorem Grows.changed_eq_nil_iff_counts (h : Grows c c' changed) :
    changed = [] ↔ c'.size = c.size ∧ c'.countPointers = c.countPointers := by
  constructor
  · intro hnil
    obtain ⟨hedges, hpointers⟩ := h.changed_eq_nil_iff.1 hnil
    have hsize : c'.size = c.size := by
      rw [size_eq_length_edges, hedges, ← size_eq_length_edges]
    refine ⟨hsize, ?_⟩
    rw [countPointers_eq_sum_range, countPointers_eq_sum_range, hsize]
    simp only [hpointers]
  · rintro ⟨-, hcount⟩
    have hle := h.count
    exact List.eq_nil_of_length_eq_zero (by omega)

namespace Leads

theorem append (h : Leads c calls c') (h' : Leads c' calls' c'') :
    Leads c (calls ++ calls') c'' := by
  induction h with
  | nil => exact h'
  | cons hgrows _ ih => exact .cons hgrows (ih h')

/-- All reports together are what has changed from the first chart to the last. -/
theorem grows (h : Leads c calls c') : Grows c c' (Call.reported calls) := by
  induction h with
  | nil => exact .refl _
  | cons hgrows _ ih => exact hgrows.trans ih

theorem climbs (h : Leads c calls c') : c.Climbs calls := by
  induction h with
  | nil => trivial
  | cons hgrows _ ih =>
    have hcount := hgrows.count
    exact ⟨hgrows.size_le, by omega, hgrows.changed_eq_nil_iff_counts, ih⟩

/-- The last call shows the chart that the calls lead to. -/
theorem eq_last (h : Leads c calls c') : c' = (calls.getLast?.map Call.chart).getD c := by
  induction h with
  | nil => rfl
  | @cons c call calls c' _ _ ih =>
    rw [ih, List.getLast?_cons]
    cases calls.getLast? <;> rfl

end Leads

end Chart

namespace Progress

variable {p p' p'' : Progress L (List (Call L))} {calls calls' : List (Call L)}

/-- From `p` to `p'` there were these applications of rules, and they were kept. -/
structure Records (p p' : Progress L (List (Call L))) (calls : List (Call L)) : Prop where
  seen : p'.seen = p.seen ++ calls
  applications : p'.applications = p.applications + calls.length
  wellFormed : p'.chart.WellFormed
  leads : p.chart.Leads calls p'.chart

theorem Records.refl (hwf : p.chart.WellFormed) : Records p p [] where
  seen := (List.append_nil _).symm
  applications := rfl
  wellFormed := hwf
  leads := .nil

theorem Records.trans (h : Records p p' calls) (h' : Records p' p'' calls') :
    Records p p'' (calls ++ calls') where
  seen := by rw [h'.seen, h.seen, List.append_assoc]
  applications := by rw [h'.applications, h.applications, List.length_append, Nat.add_assoc]
  wellFormed := h'.wellFormed
  leads := h.leads.append h'.leads

/-- One application after the other. -/
theorem Records.through
    {step : Progress L (List (Call L)) → Rule →
      Except ChartError (Progress L (List (Call L)) × List EdgeId)}
    (hstep : ∀ rule q q' changed, q.chart.WellFormed → step q rule = .ok (q', changed) →
      Records q q' [⟨q'.chart, rule, changed⟩])
    {rules : List Rule} {changed : List EdgeId} (hwf : p.chart.WellFormed)
    (h : Progress.through step rules p = .ok (p', changed)) :
    ∃ calls, Records p p' calls ∧ calls.map Call.rule = rules ∧ Call.reported calls = changed := by
  induction rules generalizing p changed with
  | nil =>
    obtain ⟨rfl, rfl⟩ := Prod.mk.inj (Except.ok.inj h)
    exact ⟨[], .refl hwf, rfl, rfl⟩
  | cons rule rules ih =>
    obtain ⟨⟨q, first⟩, hfirst, h⟩ := exists_of_bind_eq_ok h
    obtain ⟨⟨q', later⟩, hlater, h⟩ := exists_of_bind_eq_ok h
    obtain ⟨rfl, rfl⟩ := Prod.mk.inj (Except.ok.inj h)
    have hcall := hstep rule p q first hwf hfirst
    obtain ⟨calls, hcalls, rfl, rfl⟩ := ih hcall.wellFormed hlater
    exact ⟨_, hcall.trans hcalls, rfl, rfl⟩

variable [DecidableEq L] [LawfulLabel L] {g : Grammar L}

/-- An application that has been shown is kept, and leads on. -/
theorem records_record (hg : g.Indexed) (a : Application) (rule : Rule) {c : Chart L}
    {changed : List EdgeId} (hwf : p.chart.WellFormed)
    (h : a.perform g p.chart = .ok (c, changed)) :
    Records p (record .recording p.applications p.seen rule c changed) [⟨c, rule, changed⟩] := by
  have hfollows := a.perform_follows hwf hg h
  exact ⟨rfl, rfl, hfollows.wellFormed, .cons hfollows.grows .nil⟩

theorem records_apply (hg : g.Indexed) {rule : Rule} {id? : Option EdgeId} {changed : List EdgeId}
    (hwf : p.chart.WellFormed) (h : p.apply g .recording rule id? = .ok (p', changed)) :
    Records p p' [⟨p'.chart, rule, changed⟩] := by
  obtain ⟨⟨c, changed⟩, hrun, h⟩ := exists_of_bind_eq_ok h
  obtain ⟨rfl, rfl⟩ := Prod.mk.inj (Except.ok.inj h)
  exact records_record hg (.once rule id?) rule hwf hrun

theorem records_applyEverywhere (hg : g.Indexed) {rule : Rule} {changed : List EdgeId}
    (hwf : p.chart.WellFormed) (h : p.applyEverywhere g .recording rule = .ok (p', changed)) :
    Records p p' [⟨p'.chart, rule, changed⟩] := by
  obtain ⟨⟨c, changed⟩, hrun, h⟩ := exists_of_bind_eq_ok h
  obtain ⟨rfl, rfl⟩ := Prod.mk.inj (Except.ok.inj h)
  exact records_record hg (.everywhere rule) rule hwf hrun

/-! ### The agenda -/

/-- What has been kept after some turns of the agenda: every report has had its
turn, or waits for it. -/
def Agenda.Recorded (config : Config) (p : Progress L (List (Call L)))
    (agenda : Agenda L (List (Call L))) : Prop :=
  ∃ turns calls, Records p agenda.progress calls ∧
    calls.length = config.initialRules.length + config.edgeRules.length * turns ∧
      turns + agenda.waiting.toList.length = (Call.reported calls).length

theorem Agenda.Recorded.turn (hg : g.Indexed) {config : Config}
    {agenda agenda' : Agenda L (List (Call L))} (h : agenda.Recorded config p)
    (hturn : agenda.turn g .recording config.edgeRules = .ok agenda') :
    agenda'.Recorded config p := by
  obtain ⟨q, waiting⟩ := agenda
  rw [Agenda.turn] at hturn
  split at hturn
  · obtain rfl := Except.ok.inj hturn
    exact h
  · rename_i id rest hnext
    obtain ⟨⟨q', changed⟩, hrun, hturn⟩ := exists_of_bind_eq_ok hturn
    obtain rfl := Except.ok.inj hturn
    obtain ⟨turns, calls, hcalls, hlength, hwaiting⟩ := h
    obtain ⟨more, hmore, hrules, rfl⟩ :=
      Records.through (fun _ _ _ _ hwf h => records_apply hg hwf h) hcalls.wellFormed hrun
    refine ⟨turns + 1, calls ++ more, hcalls.trans hmore, ?_, ?_⟩
    · have hmoreLength := congrArg List.length hrules
      rw [List.length_map] at hmoreLength
      rw [List.length_append, hlength, hmoreLength, Nat.mul_succ, Nat.add_assoc]
    · -- one edge has left the queue, and those that changed have joined it
      have hlist := congrArg List.length (Queue.toList_of_next? hnext)
      have hbefore : turns + waiting.toList.length = (Call.reported calls).length := hwaiting
      show turns + 1 + (rest.join (Call.reported more)).toList.length = _
      rw [List.length_cons] at hlist
      rw [Queue.toList_join, Call.reported_append, List.length_append, List.length_append]
      omega

/-- The agenda ends when every report has had its turn. -/
theorem records_runAgenda (hg : g.Indexed) {config : Config} (hwf : p.chart.WellFormed)
    (h : p.runAgenda g .recording config = .ok (p', [])) :
    ∃ calls, Records p p' calls ∧
      calls.length =
        config.initialRules.length + config.edgeRules.length * (Call.reported calls).length := by
  obtain ⟨⟨q, changed⟩, hinitial, h⟩ := exists_of_bind_eq_ok h
  obtain ⟨last, hrounds, h⟩ := exists_of_bind_eq_ok h
  obtain ⟨rfl, hnone⟩ := Prod.mk.inj (Except.ok.inj h)
  obtain ⟨initial, hrecords, hrules, rfl⟩ :=
    Records.through (fun _ _ _ _ hwf h => records_apply hg hwf h) hwf hinitial
  have hstart : Agenda.Recorded config p ⟨q, .ofList (Call.reported initial)⟩ := by
    refine ⟨0, initial, hrecords, ?_, ?_⟩
    · rw [← hrules, List.length_map, Nat.mul_zero, Nat.add_zero]
    · rw [Queue.toList_ofList, Nat.zero_add]
  obtain ⟨n, hn⟩ := repeats_of_rounds hrounds
  obtain ⟨turns, calls, hcalls, hlength, hwaiting⟩ :=
    hn.invariant (P := Agenda.Recorded config p) (fun _ _ h _ hturn => h.turn hg hturn) hstart
  -- nothing waits any more
  rw [hnone, List.length_nil, Nat.add_zero] at hwaiting
  exact ⟨calls, hcalls, hwaiting ▸ hlength⟩

/-! ### Full passes -/

/-- What has been kept after some passes, the last of which has reported what
the loop goes by. -/
def PassesRecorded (config : Config) (p : Progress L (List (Call L)))
    (s : Progress L (List (Call L)) × List EdgeId) : Prop :=
  ∃ (before : List (List (Call L))) (last : List (Call L)), Records p s.1 (before.flatten ++ last) ∧
    (∀ pass ∈ before ++ [last], pass.map Call.rule = config.strategy) ∧
      Call.reported last = s.2

theorem PassesRecorded.pass (hg : g.Indexed) {config : Config}
    {s s' : Progress L (List (Call L)) × List EdgeId} (h : PassesRecorded config p s)
    (hpass : Progress.pass g .recording config.strategy s.1 = .ok s') :
    PassesRecorded config p s' := by
  obtain ⟨before, last, hcalls, hstrategy, -⟩ := h
  obtain ⟨next, hnext, hrules, hreported⟩ :=
    Records.through (fun _ _ _ _ hwf h => records_applyEverywhere hg hwf h) hcalls.wellFormed hpass
  refine ⟨before ++ [last], next, ?_, fun pass hpass => ?_, hreported⟩
  · have hflatten : (before ++ [last]).flatten = before.flatten ++ last := by simp
    rw [hflatten]
    exact hcalls.trans hnext
  · rcases List.mem_append.1 hpass with hpass | hpass
    · exact hstrategy pass hpass
    · rw [List.mem_singleton.1 hpass, hrules]

/-- The passes end with one that has reported nothing. -/
theorem records_runPasses (hg : g.Indexed) {config : Config} (hwf : p.chart.WellFormed)
    (h : p.runPasses g .recording config = .ok (p', [])) :
    ∃ (before : List (List (Call L))) (last : List (Call L)), Records p p' (before.flatten ++ last) ∧
      (∀ pass ∈ before ++ [last], pass.map Call.rule = config.strategy) ∧
        ∀ call ∈ last, call.changed = [] := by
  obtain ⟨first, hfirst, hrounds⟩ := exists_of_bind_eq_ok h
  obtain ⟨calls, hcalls, hrules, hreported⟩ :=
    Records.through (fun _ _ _ _ hwf h => records_applyEverywhere hg hwf h) hwf hfirst
  have hstart : PassesRecorded config p first :=
    ⟨[], calls, hcalls, fun pass hpass => List.mem_singleton.1 hpass ▸ hrules, hreported⟩
  obtain ⟨n, hn⟩ := repeats_of_rounds hrounds
  obtain ⟨before, last, hrecords, hstrategy, hnone⟩ :=
    hn.invariant (P := PassesRecorded config p) (fun _ _ h _ hpass => h.pass hg hpass) hstart
  exact ⟨before, last, hrecords, hstrategy, List.flatMap_eq_nil_iff.1 hnone⟩

/-- What has been kept by the end of either loop. -/
theorem records_run (hg : g.Indexed) {config : Config} (hwf : p.chart.WellFormed)
    (h : p.run g .recording config = .ok (p', [])) :
    ∃ calls, Records p p' calls ∧
      (config.loopMode = .agenda → calls.length =
        config.initialRules.length + config.edgeRules.length * (Call.reported calls).length) ∧
      (config.loopMode = .fullPass → ∃ (before : List (List (Call L))) (last : List (Call L)),
        calls = before.flatten ++ last ∧
          (∀ pass ∈ before ++ [last], pass.map Call.rule = config.strategy) ∧
            ∀ call ∈ last, call.changed = []) := by
  rw [run] at h
  cases hmode : config.loopMode with
  | agenda =>
    rw [hmode] at h
    obtain ⟨calls, hcalls, hlength⟩ := records_runAgenda hg hwf h
    exact ⟨calls, hcalls, fun _ => hlength, (fun h => by cases h)⟩
  | fullPass =>
    rw [hmode] at h
    obtain ⟨before, last, hcalls, hstrategy, hnone⟩ := records_runPasses hg hwf h
    exact ⟨_, hcalls, (fun h => by cases h), fun _ => ⟨before, last, rfl, hstrategy, hnone⟩⟩

end Progress

/-! ### The account -/

namespace Parser

/-- What the calls of a parse that has filled `chart` add up to. -/
structure Accounts (p : Parser L) (tokens : List String) (calls : List (Call L)) (chart : Chart L)
    (stats : Stats) : Prop where
  applications : stats.applications = calls.length
  edges : stats.edges = chart.size
  pointers : stats.pointers = chart.countPointers
  /-- The last call shows the chart that is returned. -/
  last : chart = (calls.getLast?.map Call.chart).getD (.new tokens)
  /-- Every edge is reported, and first in the order of the ids. -/
  firsts : (Call.reported calls).eraseDups = List.range stats.edges
  edges_le : stats.edges ≤ (Call.reported calls).length
  le_pointers : (Call.reported calls).length ≤ stats.pointers
  climbs : (Chart.new tokens).Climbs calls
  agenda : p.config.loopMode = .agenda → stats.applications =
    p.config.initialRules.length + p.config.edgeRules.length * (Call.reported calls).length
  fullPass : p.config.loopMode = .fullPass → ∃ (before : List (List (Call L)))
    (last : List (Call L)), calls = before.flatten ++ last ∧
      (∀ pass ∈ before ++ [last], pass.map Call.rule = p.config.strategy) ∧
        (∀ call ∈ last, call.changed = []) ∧
          stats.applications = (before.length + 1) * p.config.strategy.length

variable [DecidableEq L] [LawfulLabel L]

/-- What has been kept of a parse accounts for it. -/
theorem accounts_of_run {p : Parser L} (hg : p.grammar.Indexed) {tokens : List String}
    {done : Progress L (List (Call L))}
    (h : (Progress.start tokens []).run p.grammar .recording p.config = .ok (done, [])) :
    p.Accounts tokens done.seen done.chart
      ⟨done.applications, done.chart.size, done.chart.countPointers⟩ := by
  obtain ⟨calls, hcalls, hagenda, hpasses⟩ :=
    Progress.records_run hg (Chart.wellFormed_new tokens) h
  have hseen : done.seen = calls := hcalls.seen
  have happlications : done.applications = calls.length :=
    hcalls.applications.trans (Nat.zero_add _)
  have hgrows : Chart.Grows (.new tokens) done.chart (Call.reported calls) := hcalls.leads.grows
  have hcount := hgrows.count
  rw [hseen]
  exact
    { applications := happlications
      edges := rfl
      pointers := rfl
      last := hcalls.leads.eq_last
      firsts := by
        -- a parse begins with no edge, so no id is known before it is reported
        have hfirsts := hgrows.introduces.eraseDups_filter.2
        have hall : (Call.reported calls).filter (0 ≤ ·) = Call.reported calls :=
          List.filter_eq_self.2 fun id _ => decide_eq_true (Nat.zero_le id)
        show (Call.reported calls).eraseDups = List.range done.chart.size
        rw [List.range_eq_range', ← hall]
        exact hfirsts
      edges_le := hgrows.introduces.le_add_length.trans (Nat.le_of_eq (Nat.zero_add _))
      le_pointers := Nat.le_of_add_left_le hcount
      climbs := hcalls.leads.climbs
      agenda := fun hmode => happlications.trans (hagenda hmode)
      fullPass := by
        intro hmode
        obtain ⟨before, last, rfl, hstrategy, hnone⟩ := hpasses hmode
        refine ⟨before, last, rfl, hstrategy, hnone, ?_⟩
        have hlengths : ∀ pass ∈ before ++ [last], pass.length = p.config.strategy.length :=
          fun pass hpass => by rw [← hstrategy pass hpass, List.length_map]
        have hlength := length_flatten_cells hlengths
        show done.applications = _
        rw [happlications]
        simpa using hlength }

/-- A parse of covered tokens has one account, which adds up; and every
observer, whether it fails or not, is shown just the calls of this account, of
a parse that comes to the same. -/
theorem exists_accounts (p : Parser L) (hg : p.grammar.Indexed) {tokens : List String}
    (hcovered : ∀ t ∈ tokens, Covered p.grammar.productions t) :
    ∃ calls chart stats, p.Accounts tokens calls chart stats ∧
      p.chartParseWith .recording [] tokens = .ok ⟨chart, stats, calls⟩ ∧
        ∀ {σ ε : Type} (observer : Observer L σ ε) (seen : σ),
          p.chartParseWith observer seen tokens =
            .ok ⟨chart, stats, calls.foldl observer.see seen⟩ := by
  have hcheck : p.grammar.checkCoverage tokens = .ok () :=
    Grammar.checkCoverage_eq_ok_iff.2 fun t ht => (hg.covers_iff t).2 (hcovered t ht)
  obtain ⟨done, hdone, -⟩ :=
    Progress.run_spec hg .recording p.config (p := Progress.start tokens []) rfl
  refine ⟨done.seen, done.chart, _, accounts_of_run hg hdone, ?_, fun observer seen => ?_⟩
  · rw [chartParseWith, hcheck, ok_bind, hdone]
    rfl
  · have hcarried :=
      (Progress.carries_replay p.grammar observer seen).run p.config (.start tokens [])
    rw [hdone] at hcarried
    rw [chartParseWith, hcheck, ok_bind]
    exact congrArg (· >>= _) hcarried

/-- Counts the calls, and fails at every one. -/
def failing : Observer L Nat Unit := fun _ _ _ => do
  modify fun n => n + 1
  throw ()

omit [DecidableEq L] [LawfulLabel L] in
theorem foldl_see_failing (calls : List (Call L)) (n : Nat) :
    calls.foldl (Observer.see failing) n = n + calls.length := by
  induction calls generalizing n with
  | nil => rfl
  | cons call calls ih =>
    have hsee : Observer.see failing n call = n + 1 := rfl
    rw [List.foldl_cons, hsee, ih, List.length_cons, Nat.add_right_comm, Nat.add_assoc]

/-- Where edges are children of their own, under the agenda and, with features,
under full passes of rules in an unusual order, watched by an observer that fails. -/
theorem exists_accounts_failing :
    let p : Parser Symbol :=
      ⟨.ofList (.nonterminal "S") doubling, ⟨bottomUpStrategy, .agenda, 50⟩⟩
    let s := FeatureSymbol.category (.bare "S")
    let p' : Parser FeatureSymbol :=
      ⟨.ofList s [⟨s, [s, s]⟩, ⟨s, []⟩],
        ⟨[.fundamental, .predictCombine, .emptyPredict], .fullPass, 50⟩⟩
    p.grammar.Indexed ∧ p'.grammar.Indexed ∧ (∀ t ∈ ["a"], Covered p.grammar.productions t) ∧
      (∃ calls chart, p.Accounts ["a"] calls chart ⟨54, 10, 26⟩ ∧
        p.chartParseWith failing 0 ["a"] = .ok ⟨chart, ⟨54, 10, 26⟩, 54⟩) ∧
        ∃ calls chart, p'.Accounts [] calls chart ⟨15, 3, 7⟩ ∧
          p'.chartParseWith failing 0 [] = .ok ⟨chart, ⟨15, 3, 7⟩, 15⟩ := by
  intro p s p'
  have hcovered : ∀ t ∈ ["a"], Covered p.grammar.productions t := by
    unfold Covered
    decide
  refine ⟨rfl, rfl, hcovered, ?_, ?_⟩
  · obtain ⟨calls, chart, stats, haccounts, -, hall⟩ := exists_accounts p rfl hcovered
    have hstats : (p.chartParseWith failing 0 ["a"]).map Outcome.stats = .ok ⟨54, 10, 26⟩ := by
      decide +kernel
    have hrun := hall failing 0
    rw [foldl_see_failing, Nat.zero_add, ← haccounts.applications] at hrun
    rw [hrun] at hstats
    obtain rfl : stats = _ := Except.ok.inj hstats
    exact ⟨calls, chart, haccounts, hrun⟩
  · obtain ⟨calls, chart, stats, haccounts, -, hall⟩ :=
      exists_accounts p' rfl (show ∀ t ∈ [], Covered p'.grammar.productions t from nofun)
    have hstats : (p'.chartParseWith failing 0 []).map Outcome.stats = .ok ⟨15, 3, 7⟩ := by
      decide +kernel
    have hrun := hall failing 0
    rw [foldl_see_failing, Nat.zero_add, ← haccounts.applications] at hrun
    rw [hrun] at hstats
    obtain rfl : stats = _ := Except.ok.inj hstats
    exact ⟨calls, chart, haccounts, hrun⟩

end Parser

end ChartParsing
