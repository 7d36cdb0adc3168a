/-
ChartParsing/Proofs/Parser/Fixpoint.lean

What a filled chart holds.

Either loop ends with nothing left to do, and then the chart holds exactly
what the rules of the strategy lead to from nothing
(`Parser.chartParseWith_spec`).  That nothing else gets in is a matter of
single applications.  That nothing is missing is one of the loops:

* Under the agenda, an inference can be due only while the edge of a premise
  waits (`Chart.Settled`).  An edge that gains a list waits again, for with it
  there are more inferences from the edge.
* A full pass infers all that follows from the chart it begins with.  If it
  changes nothing, all of that had been there.
-/
import ChartParsing.Parser
import ChartParsing.Proofs.Rule.Everywhere

namespace ChartParsing

variable {L σ ε : Type} [Label L]

/-! ### Charts that have been filled from nothing -/

namespace Chart

theorem not_justifies_new (tokens : List String) (x : Justification L) :
    ¬ (new tokens : Chart L).Justifies x := by
  rintro ⟨id, hid, -⟩
  cases hid

variable {g : Grammar L} {rules : List Rule} {tokens : List String} {c : Chart L}
  {changed : List EdgeId}

theorem Follows.justified (h : Follows g.productions rules (new tokens) c changed)
    {x : Justification L} (hx : c.Justifies x) : Justified g.productions tokens rules x :=
  h.sound _ (fun _ hrule => Justified.closedUnder hrule)
    (fun x hx => absurd hx (not_justifies_new tokens x)) x hx

/-- A list is as long as the dot of its edge has passed symbols. -/
theorem Follows.length_eq (h : Follows g.productions rules (new tokens) c changed) {id : EdgeId}
    {e : Edge L} (he : c.edges[id]? = some e) {p : Pointers} (hp : p ∈ c.pointers id) :
    p.length = e.dot := by
  obtain ⟨es, hes⟩ := h.wellFormed.children hp
  have hdot : es.length = e.dot :=
    h.sound _ (fun _ _ => closedUnder_length)
      (fun x hx => absurd hx (not_justifies_new tokens x)) (e, es) ⟨id, he, p, hp, hes⟩
  have hlength := congrArg List.length hes
  rw [List.length_map, List.length_map] at hlength
  exact hlength.trans hdot

/-- A list is no longer than the right-hand side of its edge. -/
theorem Follows.length_le (h : Follows g.productions rules (new tokens) c changed) {id : EdgeId}
    {e : Edge L} (he : c.edges[id]? = some e) {p : Pointers} (hp : p ∈ c.pointers id) :
    p.length ≤ e.rhs.length :=
  h.length_eq he hp ▸ e.dot_le_length

theorem Follows.countPointers_le [LawfulLabel L] [DecidableEq L]
    (h : Follows g.productions rules (new tokens) c changed) :
    c.countPointers ≤ 2 ^ Edge.pointerBits ((new tokens).seeds g) :=
  countPointers_le_pow_pointerBits h.wellFormed (h.within (wellFormed_new tokens))
    fun _ _ he _ hp => h.length_le he hp

/-- Every inference by one of the rules has been made, unless the edge of a
premise is among those that wait. -/
def Settled (productions : List (Production L)) (rules : List Rule) (waiting : List EdgeId)
    (c : Chart L) : Prop :=
  ∀ rule ∈ rules, ∀ premises x, Infers productions c.tokens rule premises x →
    (∀ y ∈ premises, c.Justifies y ∧ ∀ id ∈ waiting, c.edges[id]? ≠ some y.1) → c.Justifies x

end Chart

namespace Progress

variable [DecidableEq L]

/-! ### Taking a progress through rules -/

omit [DecidableEq L] in
/-- Rules applied one after the other. -/
theorem through_spec
    (step : Progress L σ → Rule → Except ChartError (Progress L σ × List EdgeId))
    {productions : List (Production L)} (id? : Option EdgeId) {n : Nat} (rules : List Rule)
    (hstep : ∀ rule ∈ rules, ∀ q : Progress L σ, q.chart.WellFormed → n ≤ q.chart.size →
      ∃ q' changed, step q rule = .ok (q', changed) ∧
        rule.Applied productions id? q.chart q'.chart changed)
    {p : Progress L σ} (hwf : p.chart.WellFormed) (hn : n ≤ p.chart.size) :
    ∃ p' changed, through step rules p = .ok (p', changed) ∧
      Chart.Follows productions rules p.chart p'.chart changed ∧
        ∀ rule ∈ rules, rule.Completes productions id? p.chart p'.chart := by
  induction rules generalizing p with
  | nil => exact ⟨p, [], rfl, .refl hwf, fun _ h => nomatch h⟩
  | cons rule rules ih =>
    obtain ⟨q, changed, hq, happlied⟩ := hstep rule List.mem_cons_self p hwf hn
    obtain ⟨p', later, hp', hfollows, hcompletes⟩ :=
      ih (fun r hr => hstep r (List.mem_cons_of_mem _ hr)) happlied.wellFormed
        (le_trans hn happlied.grows.size_le)
    refine ⟨p', changed ++ later, ?_, happlied.toFollows.trans hfollows, fun r hr => ?_⟩
    · rw [through, hq, ok_bind]
      simp only [hp', ok_bind]
    · rcases List.mem_cons.1 hr with rfl | hr
      · exact .mono (.refl _) happlied.complete hfollows.grows
      · exact .mono happlied.grows (hcompletes r hr) (.refl _)

variable [LawfulLabel L] {g : Grammar L}

theorem apply_spec (hg : g.Indexed) (observer : Observer L σ ε) {p : Progress L σ}
    (hwf : p.chart.WellFormed) {rule : Rule} {id? : Option EdgeId}
    (harity : rule.arity = id?.toList.length) (hid : ∀ id ∈ id?, id < p.chart.size) :
    ∃ p' changed, p.apply g observer rule id? = .ok (p', changed) ∧
      rule.Applied g.productions id? p.chart p'.chart changed := by
  obtain ⟨c', changed, hrun, happlied⟩ := Rule.apply_spec hwf hg _ _ harity hid
  exact ⟨_, changed, by rw [apply, hrun, ok_bind], happlied⟩

theorem applyEverywhere_spec (hg : g.Indexed) (observer : Observer L σ ε) {p : Progress L σ}
    (hwf : p.chart.WellFormed) (rule : Rule) :
    ∃ p' changed, p.applyEverywhere g observer rule = .ok (p', changed) ∧
      rule.Applied g.productions none p.chart p'.chart changed := by
  obtain ⟨c', changed, hrun, happlied⟩ := Rule.applyEverywhere_spec hwf hg rule
  exact ⟨_, changed, by rw [applyEverywhere, hrun, ok_bind], happlied⟩

/-! ### The agenda -/

/-- What holds after each turn of the agenda. -/
structure Agenda.Underway (g : Grammar L) (tokens : List String) (config : Config)
    (agenda : Agenda L σ) : Prop where
  follows : ∃ changed,
    Chart.Follows g.productions config.strategy (.new tokens) agenda.progress.chart changed
  waiting_lt : ∀ id ∈ agenda.waiting.toList, id < agenda.progress.chart.size
  axioms : ∀ rule ∈ config.initialRules,
    rule.Completes g.productions none (.new tokens) agenda.progress.chart
  settled : agenda.progress.chart.Settled g.productions config.edgeRules agenda.waiting.toList

omit [DecidableEq L] [LawfulLabel L] in
/-- Offering an edge to all rules settles it, and only what changed is due again. -/
theorem settled_of_completes {productions : List (Production L)} {rules : List Rule}
    {c c' : Chart L} {id : EdgeId} {waiting changed : List EdgeId} (hwf : c.WellFormed)
    (hgrows : Chart.Grows c c' changed) (hc : c.Settled productions rules (id :: waiting))
    (hcompletes : ∀ rule ∈ rules, rule.Completes productions (some id) c c') :
    c'.Settled productions rules (waiting ++ changed) := by
  intro rule hrule premises x hinfers hpremises
  rw [hgrows.tokens] at hinfers
  -- the premises are as they were, for their edges have not changed
  have hbefore : ∀ y ∈ premises, c.Justifies y := by
    intro y hy
    obtain ⟨⟨j, hj, p, hp, hmap⟩, hrest⟩ := hpremises y hy
    have hunchanged : j ∉ changed := fun hmem => hrest j (List.mem_append_right _ hmem) hj
    rw [hgrows.getElem?_eq hunchanged] at hj
    rw [hgrows.pointers_eq hunchanged] at hp
    exact ⟨j, hj, p, hp, by rw [← hmap, hgrows.map_getElem? (hwf.child_lt j p hp)]⟩
  by_cases hid : ∃ y ∈ premises, c.edges[id]? = some y.1
  -- the edge of the turn is a premise: it has just been offered to the rule
  · refine hcompletes rule hrule premises x hinfers hbefore fun j hj => ?_
    obtain rfl : id = j := Option.some.inj hj
    exact hid
  -- it is none: then the inference was not due before either
  · refine hgrows.justifies (hc rule hrule premises x hinfers fun y hy => ⟨hbefore y hy, ?_⟩)
    intro j hj heq
    rcases List.mem_cons.1 hj with rfl | hj
    · exact hid ⟨y, hy, heq⟩
    · exact (hpremises y hy).2 j (List.mem_append_left _ hj) (hgrows.getElem? heq)

theorem Agenda.turn_spec (hg : g.Indexed) (observer : Observer L σ ε) {tokens : List String}
    {config : Config} {agenda : Agenda L σ} (h : agenda.Underway g tokens config)
    (hwaiting : (!agenda.waiting.isEmpty) = true) :
    ∃ agenda', agenda.turn g observer config.edgeRules = .ok agenda' ∧
      agenda'.Underway g tokens config ∧
        agenda.progress.chart.countPointers + agenda'.waiting.toList.length + 1 ≤
          agenda'.progress.chart.countPointers + agenda.waiting.toList.length := by
  obtain ⟨p, waiting⟩ := agenda
  obtain ⟨before, hbefore⟩ := h.follows
  have hsome : waiting.next? ≠ none := fun hnone => by
    simp [waiting.isEmpty_iff.2 (Queue.next?_eq_none_iff.1 hnone)] at hwaiting
  obtain ⟨⟨id, rest⟩, hnext⟩ := Option.ne_none_iff_exists'.1 hsome
  have hlist : waiting.toList = id :: rest.toList := Queue.toList_of_next? hnext
  have hid : id < p.chart.size := h.waiting_lt id (hlist ▸ List.mem_cons_self)
  obtain ⟨p', changed, hrun, hfollows, hcompletes⟩ :=
    through_spec (fun p rule => p.apply g observer rule (some id)) (some id) config.edgeRules
      (fun rule hrule q hq hn => apply_spec hg observer hq
        (of_decide_eq_true (List.mem_filter.1 hrule).2)
        fun j hj => Option.some.inj hj ▸ Nat.lt_of_lt_of_le hid hn)
      hbefore.wellFormed le_rfl
  refine ⟨⟨p', rest.join changed⟩, ?_, ⟨⟨_, (hbefore.trans hfollows).mono ?_⟩, ?_, ?_, ?_⟩, ?_⟩
  · simp only [turn, hnext, hrun, ok_bind]
  · intro rule hrule
    rcases List.mem_append.1 hrule with hrule | hrule
    · exact hrule
    · exact (List.mem_filter.1 hrule).1
  · intro j hj
    rw [Queue.toList_join] at hj
    rcases List.mem_append.1 hj with hj | hj
    · have hold : j ∈ waiting.toList := hlist ▸ List.mem_cons_of_mem _ hj
      exact Nat.lt_of_lt_of_le (h.waiting_lt j hold) hfollows.grows.size_le
    · exact hfollows.grows.lt_size_of_mem hj
  · exact fun rule hrule => .mono (.refl _) (h.axioms rule hrule) hfollows.grows
  · rw [Queue.toList_join]
    refine settled_of_completes hbefore.wellFormed hfollows.grows ?_ hcompletes
    rw [← hlist]
    exact h.settled
  · have hcount : p.chart.countPointers + changed.length ≤ p'.chart.countPointers :=
      hfollows.grows.count
    have hlength : rest.toList.length + 1 = waiting.toList.length := by
      rw [hlist, List.length_cons]
    show p.chart.countPointers + (rest.join changed).toList.length + 1 ≤
      p'.chart.countPointers + waiting.toList.length
    rw [Queue.toList_join, List.length_append]
    omega

/-- The axioms leave nothing settled but themselves. -/
theorem Agenda.underway_start (hg : g.Indexed) (observer : Observer L σ ε) (tokens : List String)
    (config : Config) {p : Progress L σ} (hp : p.chart = .new tokens) :
    ∃ p' changed,
      through (fun p rule => p.apply g observer rule none) config.initialRules p =
          .ok (p', changed) ∧
        Agenda.Underway g tokens config ⟨p', .ofList changed⟩ ∧
          changed.length ≤ p'.chart.countPointers := by
  have hwf : p.chart.WellFormed := hp ▸ Chart.wellFormed_new tokens
  obtain ⟨p', changed, hrun, hfollows, hcompletes⟩ :=
    through_spec (fun p rule => p.apply g observer rule none) none config.initialRules
      (fun rule hrule q hq _ => apply_spec hg observer hq
        (of_decide_eq_true (List.mem_filter.1 hrule).2) fun _ h => nomatch h)
      hwf (Nat.zero_le _)
  rw [hp] at hfollows hcompletes
  refine ⟨p', changed, hrun, ⟨⟨_, hfollows.mono fun _ h => (List.mem_filter.1 h).1⟩, ?_,
    hcompletes, ?_⟩, le_trans (Nat.le_add_left _ _) hfollows.grows.count⟩
  · intro id hid
    rw [Queue.toList_ofList] at hid
    exact hfollows.grows.lt_size_of_mem hid
  · intro rule hrule premises x hinfers hpremises
    obtain ⟨y, hy⟩ :=
      hinfers.exists_mem_premises (of_decide_eq_true (List.mem_filter.1 hrule).2)
    obtain ⟨⟨id, hid, -⟩, hrest⟩ := hpremises y hy
    rw [Queue.toList_ofList] at hrest
    refine absurd hid (hrest id ?_)
    -- an edge that is not new would have been in the empty chart
    by_contra hnew
    rw [hfollows.grows.getElem?_eq hnew] at hid
    cases hid

end Progress

/-- The chart has all that the rules lead to over the tokens, and nothing else. -/
structure Chart.Filled (productions : List (Production L)) (tokens : List String)
    (rules : List Rule) (c : Chart L) : Prop where
  wellFormed : c.WellFormed
  tokens_eq : c.tokens = tokens
  justifies_iff : ∀ x, c.Justifies x ↔ Justified productions tokens rules x

theorem Chart.Follows.filled {g : Grammar L} {rules : List Rule} {tokens : List String}
    {c : Chart L} {changed : List EdgeId}
    (h : Follows g.productions rules (new tokens) c changed)
    (hclosed : ∀ rule ∈ rules, ClosedUnder g.productions tokens rule c.Justifies) :
    c.Filled g.productions tokens rules :=
  ⟨h.wellFormed, h.grows.tokens, fun _ => ⟨h.justified, Justified.of_closedUnder hclosed⟩⟩

namespace Progress

variable [DecidableEq L] [LawfulLabel L] {g : Grammar L} {tokens : List String}

/-- The agenda ends empty, with a filled chart. -/
theorem runAgenda_spec (hg : g.Indexed) (observer : Observer L σ ε) (config : Config)
    {p : Progress L σ} (hp : p.chart = .new tokens) :
    ∃ p', p.runAgenda g observer config = .ok (p', []) ∧
      p'.chart.Filled g.productions tokens config.strategy := by
  obtain ⟨p₁, changed, hrun, hstart, hcount⟩ :=
    Agenda.underway_start hg observer tokens config hp
  have hbits : ∀ agenda : Agenda L σ, agenda.Underway g tokens config →
      agenda.progress.chart.countPointers ≤ 2 ^ Edge.pointerBits (p.chart.seeds g) := by
    intro agenda h
    obtain ⟨before, hfollows⟩ := h.follows
    rw [hp]
    exact hfollows.countPointers_le
  obtain ⟨agenda, hrounds, hend, hempty⟩ :=
    rounds_ends (fun agenda => !agenda.waiting.isEmpty)
      (Agenda.turn g observer config.edgeRules) (P := Agenda.Underway g tokens config)
      -- a turn takes one edge and puts back no more than lists were gained
      (fun agenda => 2 ^ Edge.pointerBits (p.chart.seeds g) - agenda.progress.chart.countPointers +
        agenda.waiting.toList.length)
      (fun agenda h hwaiting => by
        obtain ⟨agenda', hturn, h', hless⟩ := agenda.turn_spec hg observer h hwaiting
        have := hbits agenda h
        have := hbits agenda' h'
        exact ⟨agenda', hturn, h', by omega⟩)
      (n := Edge.pointerBits (p.chart.seeds g) + 1) hstart (by
        have hle := hbits _ hstart
        change p₁.chart.countPointers ≤ _ at hle
        show _ - p₁.chart.countPointers + (Queue.ofList changed).toList.length < _
        rw [Queue.toList_ofList]
        refine lt_pow_succ_of_le ?_
        show _ ≤ 2 ^ Edge.pointerBits (p.chart.seeds g)
        omega)
  have hnone : agenda.waiting.toList = [] := agenda.waiting.isEmpty_iff.1 (by simpa using hempty)
  obtain ⟨before, hfollows⟩ := hend.follows
  refine ⟨agenda.progress, ?_, hfollows.filled fun rule hrule premises x hinfers hpremises => ?_⟩
  · rw [runAgenda, hrun, ok_bind]
    simp only [hrounds, ok_bind, hnone]
  -- nothing waits, so what was not inferred at first was inferred in a turn
  · rcases rule.arity_eq_zero_or_one with harity | harity
    · obtain rfl := hinfers.premises_eq_nil harity
      have hinitial : rule ∈ config.initialRules :=
        List.mem_filter.2 ⟨hrule, decide_eq_true harity⟩
      exact hend.axioms rule hinitial [] x hinfers (fun _ h => nomatch h) fun _ h => nomatch h
    · have hedge : rule ∈ config.edgeRules := List.mem_filter.2 ⟨hrule, decide_eq_true harity⟩
      have htokens := hfollows.grows.tokens
      refine hend.settled rule hedge premises x ?_ fun y hy => ⟨hpremises y hy, ?_⟩
      · rw [htokens]
        exact hinfers
      · rw [hnone]
        exact fun _ h => nomatch h

/-! ### Full passes -/

theorem pass_spec (hg : g.Indexed) (observer : Observer L σ ε) (rules : List Rule)
    {p : Progress L σ} (hwf : p.chart.WellFormed) :
    ∃ p' changed, pass g observer rules p = .ok (p', changed) ∧
      Chart.Follows g.productions rules p.chart p'.chart changed ∧
        ∀ rule ∈ rules, rule.Completes g.productions none p.chart p'.chart :=
  through_spec (fun p rule => p.applyEverywhere g observer rule) none rules
    (fun rule _ _ hq _ => applyEverywhere_spec hg observer hq rule) hwf (Nat.zero_le _)

/-- What holds after each pass: if it changed nothing, the chart is closed. -/
structure Passed (g : Grammar L) (tokens : List String) (rules : List Rule)
    (s : Progress L σ × List EdgeId) : Prop where
  follows : ∃ changed, Chart.Follows g.productions rules (.new tokens) s.1.chart changed
  closed : s.2 = [] → ∀ rule ∈ rules, ClosedUnder g.productions tokens rule s.1.chart.Justifies

theorem passed_pass (hg : g.Indexed) (observer : Observer L σ ε) {rules : List Rule}
    {p : Progress L σ} {before : List EdgeId}
    (h : Chart.Follows g.productions rules (.new tokens) p.chart before) :
    ∃ s, pass g observer rules p = .ok s ∧ Passed g tokens rules s ∧
      p.chart.countPointers + s.2.length ≤ s.1.chart.countPointers := by
  obtain ⟨p', changed, hrun, hfollows, hcompletes⟩ := pass_spec hg observer rules h.wellFormed
  refine ⟨(p', changed), hrun, ⟨⟨_, (h.trans hfollows).mono ?_⟩, ?_⟩, hfollows.grows.count⟩
  · exact fun rule hrule => (List.mem_append.1 hrule).elim (fun h => h) fun h => h
  · intro hnone rule hrule premises x hinfers hpremises
    -- a pass that changed nothing ends with the chart it began with
    obtain rfl : changed = [] := hnone
    refine hcompletes rule hrule premises x ?_ ?_ fun _ h => nomatch h
    · rw [h.grows.tokens]
      exact hinfers
    · exact fun y hy => hfollows.grows.justifies_iff_of_nil.1 (hpremises y hy)

/-- The passes end with one that changes nothing, and a filled chart. -/
theorem runPasses_spec (hg : g.Indexed) (observer : Observer L σ ε) (config : Config)
    {p : Progress L σ} (hp : p.chart = .new tokens) :
    ∃ p', p.runPasses g observer config = .ok (p', []) ∧
      p'.chart.Filled g.productions tokens config.strategy := by
  have hnew : Chart.Follows g.productions config.strategy (.new tokens) p.chart [] := by
    rw [hp]
    exact .refl (Chart.wellFormed_new tokens)
  obtain ⟨first, hfirst, hstart, hcount⟩ := passed_pass hg observer hnew
  have hbits : ∀ s : Progress L σ × List EdgeId, Passed g tokens config.strategy s →
      s.1.chart.countPointers ≤ 2 ^ Edge.pointerBits (p.chart.seeds g) := by
    intro s h
    obtain ⟨before, hfollows⟩ := h.follows
    rw [hp]
    exact hfollows.countPointers_le
  obtain ⟨s, hrounds, hend, hempty⟩ :=
    rounds_ends (fun s => !s.2.isEmpty) (fun s => pass g observer config.strategy s.1)
      (P := Passed g tokens config.strategy)
      -- a pass adds a list, or it is the last
      (fun s => 2 ^ Edge.pointerBits (p.chart.seeds g) - s.1.chart.countPointers +
        min 1 s.2.length)
      (fun s h hmore => by
        obtain ⟨before, hfollows⟩ := h.follows
        obtain ⟨s', hpass, h', hadded⟩ := passed_pass hg observer hfollows
        have hle := hbits s' h'
        have hsome : 0 < s.2.length := List.length_pos_iff.2 (by simpa using hmore)
        exact ⟨s', hpass, h', by omega⟩)
      (n := Edge.pointerBits (p.chart.seeds g) + 1) hstart (by
        have hle := hbits first hstart
        refine lt_pow_succ_of_le ?_
        show _ ≤ 2 ^ Edge.pointerBits (p.chart.seeds g)
        omega)
  have hnone : s.2 = [] := by simpa using hempty
  obtain ⟨before, hfollows⟩ := hend.follows
  refine ⟨s.1, ?_, hfollows.filled (hend.closed hnone)⟩
  rw [runPasses, hfirst, ok_bind, hrounds, ← hnone]

/-- Either loop ends with nothing left to do, and a filled chart. -/
theorem run_spec (hg : g.Indexed) (observer : Observer L σ ε) (config : Config)
    {p : Progress L σ} (hp : p.chart = .new tokens) :
    ∃ p', p.run g observer config = .ok (p', []) ∧
      p'.chart.Filled g.productions tokens config.strategy := by
  rw [run]
  cases config.loopMode with
  | agenda => exact runAgenda_spec hg observer config hp
  | fullPass => exact runPasses_spec hg observer config hp

end Progress

namespace Parser

variable [DecidableEq L] [LawfulLabel L]

/-- Filling a chart succeeds for covered tokens, and the chart is filled. -/
theorem chartParseWith_spec {p : Parser L} (hg : p.grammar.Indexed) {tokens : List String}
    (hcovered : p.grammar.checkCoverage tokens = .ok ()) (observer : Observer L σ ε) (seen : σ) :
    ∃ o, p.chartParseWith observer seen tokens = .ok o ∧
      o.chart.Filled p.grammar.productions tokens p.config.strategy ∧
        o.stats.edges = o.chart.size ∧ o.stats.pointers = o.chart.countPointers := by
  obtain ⟨done, hdone, hfilled⟩ :=
    Progress.run_spec hg observer p.config (p := Progress.start tokens seen) rfl
  refine ⟨⟨done.chart, ⟨done.applications, done.chart.size, done.chart.countPointers⟩, done.seen⟩,
    ?_, hfilled, rfl, rfl⟩
  rw [chartParseWith, hcovered, ok_bind, hdone]
  rfl

end Parser

end ChartParsing
