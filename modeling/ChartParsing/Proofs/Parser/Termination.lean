/-
ChartParsing/Proofs/Parser/Termination.lean

Chart parsing ends.

The loops of the model count their rounds, but they end because there is
nothing more to do: had they no bound, they would reach their exit after just
as many rounds (`LoopsEnd`).  The same goes for the loops under a cursor,
which run over what they themselves insert (`Chart.SweepsEnd`).  On the way a
chart stays small: the lists of an edge are distinct, as long as its dot has
passed symbols, and name edges of the chart; and in a plain grammar edges are
as few as the productions and the positions allow.

All of this holds at every moment of a parse, whichever rules it uses.
-/
import ChartParsing.Proofs.Label.Feature
import ChartParsing.Proofs.Parser.Fixpoint
import ChartParsing.Proofs.Plain.Count
import ChartParsing.Proofs.Rule.Moments

namespace ChartParsing

variable {L σ ε : Type} [Label L] [DecidableEq L]

/-! ### Loops under a cursor -/

/-- Both loops under a cursor end on this chart: the one over the partners of
an edge, and the one over all edges. -/
structure Chart.SweepsEnd (g : Grammar L) (c : Chart L) : Prop where
  partners : ∀ id e, c.edges[id]? = some e →
    ∃ c₁ cursor n last, c.select (partnerConstraints e) = .ok (c₁, cursor) ∧
      Exits Sweep.pending (Sweep.advance (combineWith e id)) n ⟨c₁, cursor, #[]⟩ last ∧
        c.combineAll id = .ok last
  everywhere : ∀ rule : Rule, rule.arity = 1 →
    ∃ n last,
      Exits Sweep.pending (Sweep.advance fun c id => rule.apply g (some id) c) n
          ⟨c, ⟨.all, 0⟩, #[]⟩ last ∧
        rule.applyToAll g c = .ok last

omit [DecidableEq L] in
/-- A cursor with nothing left to deliver ends its sweep. -/
theorem Sweep.pending_eq_false {s : Sweep L} (h : s.chart.remaining s.cursor = []) :
    s.pending = false := by
  rw [pending, (s.chart.next?_eq_none_iff s.cursor).2 h]
  rfl

theorem Chart.WellFormed.sweepsEnd [LawfulLabel L] {g : Grammar L} (hg : g.Indexed) {c : Chart L}
    (hwf : c.WellFormed) : c.SweepsEnd g where
  partners := by
    intro id e he
    obtain ⟨last, hall, hremaining, -⟩ := combineAll_spec hwf g.productions he
    have hall' := hall
    rw [combineAll, edge_eq_ok he, ok_bind] at hall
    obtain ⟨⟨c₁, cursor⟩, hselect, hrun⟩ := exists_of_bind_eq_ok hall
    obtain ⟨n, hn⟩ := exits_of_rounds hrun (Sweep.pending_eq_false hremaining)
    exact ⟨c₁, cursor, n, last, hselect, hn, hall'⟩
  everywhere := by
    intro rule harity
    obtain ⟨last, hall, hremaining, -⟩ := Rule.applyToAll_spec hwf hg harity
    obtain ⟨n, hn⟩ := exits_of_rounds hall (Sweep.pending_eq_false hremaining)
    exact ⟨n, last, hn, hall⟩

/-! ### The loops of a parse -/

namespace Progress

/-- From `p` to `p'` rules were applied `k` times, and led from moments to moments. -/
structure Went (g : Grammar L) (tokens : List String) (k : Nat) (p p' : Progress L σ) : Prop where
  applications : p'.applications = p.applications + k
  moment : Chart.Moment g tokens p.chart → Chart.Moment g tokens p'.chart

namespace Went

variable {g : Grammar L} {tokens : List String} {p p' p'' : Progress L σ} {k k' : Nat}

theorem refl (p : Progress L σ) : Went g tokens 0 p p := ⟨rfl, id⟩

theorem trans (h : Went g tokens k p p') (h' : Went g tokens k' p' p'') :
    Went g tokens (k + k') p p'' :=
  ⟨by rw [h'.applications, h.applications, Nat.add_assoc], fun hp => h'.moment (h.moment hp)⟩

/-- One application after the other. -/
theorem through {step : Progress L σ → Rule → Except ChartError (Progress L σ × List EdgeId)}
    (hstep : ∀ rule q q' changed, step q rule = .ok (q', changed) → Went g tokens 1 q q')
    {rules : List Rule} {changed : List EdgeId}
    (h : Progress.through step rules p = .ok (p', changed)) :
    Went g tokens rules.length p p' := by
  induction rules generalizing p changed with
  | nil =>
    obtain ⟨rfl, -⟩ := Prod.mk.inj (Except.ok.inj h)
    exact .refl p
  | cons rule rules ih =>
    obtain ⟨⟨q, first⟩, hfirst, h⟩ := exists_of_bind_eq_ok h
    obtain ⟨⟨q', later⟩, hlater, h⟩ := exists_of_bind_eq_ok h
    obtain ⟨rfl, -⟩ := Prod.mk.inj (Except.ok.inj h)
    rw [List.length_cons, Nat.add_comm]
    exact (hstep rule p q first hfirst).trans (ih hlater)

/-- One round after the other, each with as many applications. -/
theorem repeats {τ : Type} {more : τ → Bool} {step : τ → Except ChartError τ}
    (view : τ → Progress L σ)
    (hstep : ∀ s t, more s = true → step s = .ok t → Went g tokens k (view s) (view t))
    {n : Nat} {s t : τ} (h : Repeats more step n s t) :
    Went g tokens (n * k) (view s) (view t) := by
  induction h with
  | zero =>
    rw [Nat.zero_mul]
    exact .refl _
  | @succ n s t u hmore hrun _ ih =>
    rw [Nat.succ_mul, Nat.add_comm]
    exact (hstep s t hmore hrun).trans ih

variable [LawfulLabel L]

theorem apply (hg : g.Indexed) {observer : Observer L σ ε} {rule : Rule} {id? : Option EdgeId}
    {changed : List EdgeId} (h : p.apply g observer rule id? = .ok (p', changed)) :
    Went g tokens 1 p p' := by
  obtain ⟨⟨c, changed'⟩, hrun, h⟩ := exists_of_bind_eq_ok h
  obtain ⟨rfl, -⟩ := Prod.mk.inj (Except.ok.inj h)
  exact ⟨rfl, fun hp => hp.apply hg hrun⟩

theorem applyEverywhere (hg : g.Indexed) {observer : Observer L σ ε} {rule : Rule}
    {changed : List EdgeId} (h : p.applyEverywhere g observer rule = .ok (p', changed)) :
    Went g tokens 1 p p' := by
  obtain ⟨⟨c, changed'⟩, hrun, h⟩ := exists_of_bind_eq_ok h
  obtain ⟨rfl, -⟩ := Prod.mk.inj (Except.ok.inj h)
  exact ⟨rfl, fun hp => hp.applyEverywhere hg hrun⟩

theorem pass (hg : g.Indexed) {observer : Observer L σ ε} {rules : List Rule}
    {changed : List EdgeId} (h : Progress.pass g observer rules p = .ok (p', changed)) :
    Went g tokens rules.length p p' :=
  .through (fun _ _ _ _ h => .applyEverywhere hg h) h

/-- A turn of an agenda on which something waits. -/
theorem turn (hg : g.Indexed) {observer : Observer L σ ε} {rules : List Rule}
    {agenda agenda' : Agenda L σ} (hwaiting : (!agenda.waiting.isEmpty) = true)
    (h : agenda.turn g observer rules = .ok agenda') :
    Went g tokens rules.length agenda.progress agenda'.progress := by
  obtain ⟨p, waiting⟩ := agenda
  rw [Agenda.turn] at h
  split at h
  · rename_i hnone
    rw [waiting.isEmpty_iff.2 (Queue.next?_eq_none_iff.1 hnone)] at hwaiting
    cases hwaiting
  · obtain ⟨⟨q, changed⟩, hrun, h⟩ := exists_of_bind_eq_ok h
    obtain rfl := Except.ok.inj h
    exact .through (fun _ _ _ _ h => .apply hg h) hrun

end Went

/-- Under either loop, a parse of the tokens reaches its exit after so many
applications of rules, and there are moments between its rounds. -/
structure LoopsEnd (g : Grammar L) (config : Config) (tokens : List String) : Prop where
  agenda : ∀ {σ ε : Type} (observer : Observer L σ ε) (seen : σ), ∃ p changed n last,
    through (fun p rule => p.apply g observer rule none) config.initialRules
        (start tokens seen) = .ok (p, changed) ∧
      Exits (fun agenda => !agenda.waiting.isEmpty) (Agenda.turn g observer config.edgeRules) n
        ⟨p, .ofList changed⟩ last ∧
      last.progress.applications = config.initialRules.length + n * config.edgeRules.length ∧
      (start tokens seen).runAgenda g observer config = .ok (last.progress, []) ∧
      ∀ m between, Repeats (fun agenda => !agenda.waiting.isEmpty)
        (Agenda.turn g observer config.edgeRules) m ⟨p, .ofList changed⟩ between →
          Chart.Moment g tokens between.progress.chart
  passes : ∀ {σ ε : Type} (observer : Observer L σ ε) (seen : σ), ∃ first n last,
    pass g observer config.strategy (start tokens seen) = .ok first ∧
      Exits (fun s => !s.2.isEmpty) (fun s => pass g observer config.strategy s.1) n
        first last ∧
      last.1.applications = config.strategy.length + n * config.strategy.length ∧
      (start tokens seen).runPasses g observer config = .ok last ∧
      ∀ m between, Repeats (fun s => !s.2.isEmpty)
        (fun s => pass g observer config.strategy s.1) m first between →
          Chart.Moment g tokens between.1.chart

variable [LawfulLabel L] {g : Grammar L}

theorem loopsEnd (hg : g.Indexed) (config : Config) (tokens : List String) :
    LoopsEnd g config tokens where
  agenda := by
    intro σ ε observer seen
    obtain ⟨p', hrun, -⟩ := runAgenda_spec hg observer config (p := start tokens seen) rfl
    obtain ⟨⟨p, changed⟩, hinitial, h⟩ := exists_of_bind_eq_ok hrun
    obtain ⟨last, hrounds, h⟩ := exists_of_bind_eq_ok h
    obtain ⟨rfl, hnone⟩ := Prod.mk.inj (Except.ok.inj h)
    have hfirst : Went g tokens config.initialRules.length (start tokens seen) p :=
      .through (fun _ _ _ _ h => .apply hg h) hinitial
    have hturns : ∀ {m between}, Repeats (fun agenda => !agenda.waiting.isEmpty)
        (Agenda.turn g observer config.edgeRules) m ⟨p, .ofList changed⟩ between →
        Went g tokens (config.initialRules.length + m * config.edgeRules.length)
          (start tokens seen) between.progress := fun hm =>
      hfirst.trans (.repeats Agenda.progress (fun _ _ hmore h => .turn hg hmore h) hm)
    obtain ⟨n, hn⟩ := exits_of_rounds hrounds (by
      rw [last.waiting.isEmpty_iff.2 hnone]
      rfl)
    refine ⟨p, changed, n, last, hinitial, hn, ?_, hrun, fun m between hm => ?_⟩
    · exact (hturns hn.repeats).applications.trans (Nat.zero_add _)
    · exact (hturns hm).moment .new
  passes := by
    intro σ ε observer seen
    obtain ⟨p', hrun, -⟩ := runPasses_spec hg observer config (p := start tokens seen) rfl
    obtain ⟨first, hfirst, hrounds⟩ := exists_of_bind_eq_ok hrun
    have hpasses : ∀ {m between}, Repeats (fun s => !s.2.isEmpty)
        (fun s => pass g observer config.strategy s.1) m first between →
        Went g tokens (config.strategy.length + m * config.strategy.length)
          (start tokens seen) between.1 := fun hm =>
      (Went.pass hg hfirst).trans (.repeats Prod.fst (fun _ _ _ h => .pass hg h) hm)
    obtain ⟨n, hn⟩ := exits_of_rounds hrounds rfl
    refine ⟨first, n, _, hfirst, hn, ?_, hrun, fun m between hm => ?_⟩
    · exact (hpasses hn.repeats).applications.trans (Nat.zero_add _)
    · exact (hpasses hm).moment .new

/-! ### Every parse -/

/-- What ends, and what stays small, when the tokens are parsed. -/
structure Terminates (g : Grammar L) (config : Config) (tokens : List String) : Prop where
  loops : LoopsEnd g config tokens
  sweeps : ∀ c, Chart.Moment g tokens c → c.SweepsEnd g
  /-- Whatever rule is applied, there is a moment after it. -/
  moments : ∀ c (a : Application) c' changed, Chart.Moment g tokens c →
    a.perform g c = .ok (c', changed) → Chart.Moment g tokens c'
  /-- There are no more lists than an edge can have by its dot. -/
  pointers : ∀ c, Chart.Moment g tokens c → ∀ id e, c.edges[id]? = some e →
    (c.pointers id).length ≤ c.size ^ e.dot

theorem terminates (hg : g.Indexed) (config : Config) (tokens : List String) :
    Terminates g config tokens where
  loops := loopsEnd hg config tokens
  sweeps := fun _ hc => (hc.wellFormed hg).sweepsEnd hg
  moments := fun _ _ _ _ hc h => hc.perform hg h
  pointers := by
    intro c hc id e he
    obtain ⟨changed, hfollows⟩ := hc.follows hg
    exact Chart.length_pointers_le_pow hfollows.wellFormed fun p hp => hfollows.length_eq he hp

/-- Parsing ends with either kind of grammar, under any strategy and under
either loop; with a plain grammar there are at no moment more edges than its
productions and the positions allow. -/
theorem parsing_terminates :
    (∀ (s : Symbol) productions config tokens,
      Terminates (.ofList s productions) config tokens ∧
        ∀ c, Chart.Moment (.ofList s productions) tokens c →
          c.size ≤ edgeBound productions tokens.length) ∧
      ∀ (s : FeatureSymbol) productions config tokens,
        Terminates (.ofList s productions) config tokens := by
  constructor
  · intro s productions config tokens
    have hg := Grammar.indexed_ofList s productions
    refine ⟨terminates hg config tokens, fun c hc => ?_⟩
    obtain ⟨changed, hfollows⟩ := hc.follows hg
    have hsize := hfollows.size_le_edgeBound
    rwa [Grammar.productions_ofList] at hsize
  · intro s productions config tokens
    exact terminates (Grammar.indexed_ofList s productions) config tokens

/-- Where symbols may derive nothing and derivations run in circles, the
agenda runs empty with ten edges of the twelve that the bound has room for. -/
theorem parsing_terminates_doubling :
    (∃ done : Progress Symbol Unit,
      (start ["a"] ()).runAgenda (.ofList (.nonterminal "S") doubling) .idle
          ⟨bottomUpStrategy, .agenda, 50⟩ = .ok (done, []) ∧
        done.chart.size = 10 ∧ done.chart.size ≤ 12) ∧
      Terminates (L := FeatureSymbol) (.ofList (.category (.bare "S"))
        [⟨.category (.bare "S"), [.category (.bare "S"), .category (.bare "S")]⟩,
          ⟨.category (.bare "S"), []⟩]) ⟨[.fundamental, .emptyPredict], .fullPass, 50⟩ [] := by
  constructor
  · obtain ⟨hterminates, hsize⟩ := parsing_terminates.1 (.nonterminal "S") doubling
      ⟨bottomUpStrategy, .agenda, 50⟩ ["a"]
    obtain ⟨p, changed, n, last, -, hexits, -, hrun, hmoments⟩ :=
      hterminates.loops.agenda .idle ()
    have hten : ((start ["a"] ()).runAgenda (.ofList (.nonterminal "S") doubling) .idle
        ⟨bottomUpStrategy, .agenda, 50⟩).toOption.map (·.1.chart.size) = some 10 := by
      decide +kernel
    rw [hrun] at hten
    exact ⟨last.progress, hrun, Option.some.inj hten,
      hsize last.progress.chart (hmoments n last hexits.repeats)⟩
  · exact parsing_terminates.2 _ _ _ _

end Progress

end ChartParsing
