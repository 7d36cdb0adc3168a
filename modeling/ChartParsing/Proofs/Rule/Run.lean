/-
ChartParsing/Proofs/Rule/Run.lean

Runs of rule applications, in any order.

An application offers one edge to a rule, or applies the rule wherever it can
be.  What is refused (an edge that the chart does not have, a rule that takes
no edge) changes nothing, so a run is a list of applications, done one after
the other.  Whatever a run adds to a chart follows from what was there by the
four rules (`Chart.run_follows`).
-/
import ChartParsing.Parser.Config
import ChartParsing.Proofs.Rule.Everywhere

namespace ChartParsing

/-- An application of a rule: to an edge or to nothing, or wherever it can be. -/
inductive Application where
  | once (rule : Rule) (id? : Option EdgeId)
  | everywhere (rule : Rule)

variable {L : Type} [Label L]

/-- The chart after an operation on it; one that was refused has changed nothing. -/
def Chart.after {α : Type} (c : Chart L) (result : Except ChartError (Chart L × α)) : Chart L :=
  match result with
  | .ok (c', _) => c'
  | .error _ => c

/-- An operation that lets the chart grow, or is refused. -/
theorem Chart.after_grows {c : Chart L} (hwf : c.WellFormed) {α : Type}
    {result : Except ChartError (Chart L × α)}
    (hok : ∀ c' a, result = .ok (c', a) → c'.WellFormed ∧ ∃ changed, Grows c c' changed) :
    (c.after result).WellFormed ∧ ∃ changed, Grows c (c.after result) changed := by
  cases result with
  | error x => exact ⟨hwf, [], Grows.refl c⟩
  | ok r => exact hok r.1 r.2 rfl

variable [DecidableEq L]

/-- Does the application. -/
def Application.perform (g : Grammar L) (c : Chart L) :
    Application → Except ChartError (Chart L × List EdgeId)
  | once rule id? => rule.apply g id? c
  | everywhere rule => rule.applyEverywhere g c

/-- Does the applications one after the other. -/
def Chart.run (g : Grammar L) (c : Chart L) (applications : List Application) : Chart L :=
  applications.foldl (fun c a => c.after (a.perform g c)) c

theorem Rule.mem_bottomUpStrategy (rule : Rule) : rule ∈ bottomUpStrategy := by
  cases rule <;> decide

/-! ### What is not refused -/

/-- A rule is applied to as many edges as it takes, and only to edges that there are. -/
theorem Rule.given_of_apply {g : Grammar L} {rule : Rule} {id? : Option EdgeId} {c : Chart L}
    {r : Chart L × List EdgeId} (h : rule.apply g id? c = .ok r) :
    rule.arity = id?.toList.length ∧ ∀ id ∈ id?, id < c.size := by
  cases rule with
  | leafInit =>
    cases id? with
    | none => exact ⟨rfl, fun _ h => nomatch h⟩
    | some id => cases h
  | emptyPredict =>
    cases id? with
    | none => exact ⟨rfl, fun _ h => nomatch h⟩
    | some id => cases h
  | predictCombine =>
    cases id? with
    | none => cases h
    | some id =>
      obtain ⟨e, he, -⟩ := exists_of_bind_eq_ok h
      exact ⟨rfl, fun j hj =>
        Option.some.inj hj ▸ Chart.lt_size (Chart.getElem?_of_edge_eq_ok he)⟩
  | fundamental =>
    cases id? with
    | none => cases h
    | some id =>
      obtain ⟨s, hs, -⟩ := exists_of_bind_eq_ok h
      obtain ⟨e, he, -⟩ := exists_of_bind_eq_ok hs
      exact ⟨rfl, fun j hj =>
        Option.some.inj hj ▸ Chart.lt_size (Chart.getElem?_of_edge_eq_ok he)⟩

omit [DecidableEq L] in
theorem Chart.edge_eq_error {c : Chart L} {id : EdgeId} (h : c.size ≤ id) :
    c.edge id = .error (.edgeNotInChart id) := by
  rw [edge, edge?_eq_getElem?, List.getElem?_eq_none (c.size_eq_length_edges ▸ h)]

/-- A rule refuses edges in the wrong number. -/
theorem Rule.apply_of_arity_ne {rule : Rule} {id? : Option EdgeId}
    (h : rule.arity ≠ id?.toList.length) (g : Grammar L) (c : Chart L) :
    rule.apply g id? c = .error (.ruleArity rule id?.toList.length) := by
  cases rule <;> cases id? <;> simp [apply, arity] at h ⊢

/-- A rule refuses an edge that the chart does not have. -/
theorem Rule.apply_of_size_le {rule : Rule} (harity : rule.arity = 1) {c : Chart L} {id : EdgeId}
    (h : c.size ≤ id) (g : Grammar L) :
    rule.apply g (some id) c = .error (.edgeNotInChart id) := by
  have hedge := Chart.edge_eq_error h
  cases rule with
  | leafInit => cases harity
  | emptyPredict => cases harity
  | predictCombine =>
    rw [apply, hedge]
    rfl
  | fundamental =>
    rw [apply, Chart.combineAll, hedge]
    rfl

/-- Why an application is refused, before it has done anything: its rule takes
another number of edges, or the chart does not have the edge. -/
inductive Application.Refused (c : Chart L) : Application → ChartError → Prop
  | arity {rule : Rule} {id? : Option EdgeId} : rule.arity ≠ id?.toList.length →
      Refused c (once rule id?) (.ruleArity rule id?.toList.length)
  | missing {rule : Rule} {id : EdgeId} : rule.arity = 1 → c.size ≤ id →
      Refused c (once rule (some id)) (.edgeNotInChart id)

variable [LawfulLabel L] {g : Grammar L}

/-- On a well-formed chart nothing else can go wrong with an application. -/
theorem Application.perform_eq_error_iff {c : Chart L} (hwf : c.WellFormed) (hg : g.Indexed)
    {a : Application} {x : ChartError} : a.perform g c = .error x ↔ a.Refused c x := by
  constructor
  · intro h
    cases a with
    | everywhere rule =>
      obtain ⟨c', changed, hrun, -⟩ := Rule.applyEverywhere_spec hwf hg rule
      cases hrun.symm.trans h
    | once rule id? =>
      by_cases harity : rule.arity = id?.toList.length
      · by_cases hid : ∀ id ∈ id?, id < c.size
        · obtain ⟨c', changed, hrun, -⟩ := Rule.apply_spec hwf hg rule id? harity hid
          cases hrun.symm.trans h
        · simp only [not_forall, Nat.not_lt] at hid
          obtain ⟨id, rfl, hid⟩ := hid
          obtain rfl : _ = x := Except.error.inj ((Rule.apply_of_size_le harity hid g).symm.trans h)
          exact .missing harity hid
      · obtain rfl : _ = x := Except.error.inj ((Rule.apply_of_arity_ne harity g c).symm.trans h)
        exact .arity harity
  · rintro (harity | ⟨harity, hid⟩)
    · exact Rule.apply_of_arity_ne harity g c
    · exact Rule.apply_of_size_le harity hid g

/-- Whatever an application adds follows by its rule. -/
theorem Application.perform_follows {c c' : Chart L} {changed : List EdgeId}
    (hwf : c.WellFormed) (hg : g.Indexed) {a : Application}
    (h : a.perform g c = .ok (c', changed)) :
    Chart.Follows g.productions bottomUpStrategy c c' changed := by
  cases a with
  | once rule id? =>
    obtain ⟨harity, hid⟩ := Rule.given_of_apply h
    obtain ⟨d, more, hrun, happlied⟩ := Rule.apply_spec hwf hg rule id? harity hid
    obtain ⟨rfl, rfl⟩ := Prod.mk.inj (Except.ok.inj (hrun.symm.trans h))
    exact happlied.toFollows.mono fun r _ => r.mem_bottomUpStrategy
  | everywhere rule =>
    obtain ⟨d, more, hrun, happlied⟩ := Rule.applyEverywhere_spec hwf hg rule
    obtain ⟨rfl, rfl⟩ := Prod.mk.inj (Except.ok.inj (hrun.symm.trans h))
    exact happlied.toFollows.mono fun r _ => r.mem_bottomUpStrategy

/-- Whatever a run adds follows by the four rules. -/
theorem Chart.run_follows (hg : g.Indexed) (applications : List Application) {c : Chart L}
    (hwf : c.WellFormed) :
    ∃ changed, Follows g.productions bottomUpStrategy c (c.run g applications) changed := by
  induction applications generalizing c with
  | nil => exact ⟨[], .refl hwf⟩
  | cons a applications ih =>
    have hstep : c.run g (a :: applications) = (c.after (a.perform g c)).run g applications := rfl
    rw [hstep]
    cases hperform : a.perform g c with
    | error x => exact ih hwf
    | ok r =>
      obtain ⟨c', changed⟩ := r
      have hfirst := a.perform_follows hwf hg hperform
      obtain ⟨later, hlater⟩ := ih hfirst.wellFormed
      refine ⟨changed ++ later, (hfirst.trans hlater).mono fun r _ => r.mem_bottomUpStrategy⟩

end ChartParsing
