/-
ChartParsing/Proofs/Inference.lean

What the rules derive, without a chart.

An edge with the edges that justify it is a *justification* `(e, es)`.  Each
rule infers a justification from others:

    leafInit          [i:i+1] w                   by  no edges
    emptyPredict      [i:i] A → •                 by  no edges
    predictCombine    [i:j] A → B • β             by  [i:j] B → γ •
    fundamental       [i:k] A → α B • β           by  those of [i:j] A → α • B β
                                                  and then [j:k] B → γ •

(`Infers`).  `Justified` is what finitely many inferences lead to, the least
set that is closed under the rules.  It mentions neither ids nor orders, and
this is what a chart is compared with.
-/
import ChartParsing.Proofs.Chart.Capacity
import ChartParsing.Rule.Apply

namespace ChartParsing

/-- An edge with the edges that justify it, in order. -/
abbrev Justification (L : Type) := Edge L × List (Edge L)

variable {L : Type} [Label L]

/-- One inference of a rule, over productions and tokens. -/
inductive Infers (productions : List (Production L)) (tokens : List String) :
    Rule → List (Justification L) → Justification L → Prop
  | leaf {i t} : tokens[i]? = some t →
      Infers productions tokens .leafInit [] (Edge.leaf t i, [])
  | empty {p i} : p ∈ productions → p.rhs = [] → i ≤ tokens.length →
      Infers productions tokens .emptyPredict [] (Edge.ofProduction p i, [])
  | predict {b bs p a e} : b.isComplete = true → p ∈ productions →
      Label.advance p.lhs p.rhs 0 b.lhs = some a →
      Edge.make b.start b.stop a.lhs a.rhs 1 = .ok e →
      Infers productions tokens .predictCombine [(b, bs)] (e, [b])
  | fundamental {l ls r rs a e} : r.isComplete = true → l.stop = r.start →
      Label.advance l.lhs l.rhs l.dot r.lhs = some a →
      l.moveDot r.stop a = .ok e →
      Infers productions tokens .fundamental [(l, ls), (r, rs)] (e, ls ++ [r])

/-- What some of the rules lead to. -/
inductive Justified (productions : List (Production L)) (tokens : List String)
    (rules : List Rule) : Justification L → Prop
  | infer {rule premises x} : rule ∈ rules → Infers productions tokens rule premises x →
      (∀ y ∈ premises, Justified productions tokens rules y) →
      Justified productions tokens rules x

/-- A set of justifications that a rule does not lead out of. -/
def ClosedUnder (productions : List (Production L)) (tokens : List String) (rule : Rule)
    (S : Justification L → Prop) : Prop :=
  ∀ premises x, Infers productions tokens rule premises x → (∀ y ∈ premises, S y) → S x

variable {productions productions' : List (Production L)} {tokens : List String}
  {rule : Rule} {rules rules' : List Rule} {x : Justification L}
  {premises : List (Justification L)}

/-! ### The least closed set -/

theorem Justified.closedUnder (hrule : rule ∈ rules) :
    ClosedUnder productions tokens rule (Justified productions tokens rules) :=
  fun _ _ hinfers hpremises => .infer hrule hinfers hpremises

theorem Justified.of_closedUnder {S : Justification L → Prop}
    (h : ∀ rule ∈ rules, ClosedUnder productions tokens rule S)
    (hx : Justified productions tokens rules x) : S x := by
  induction hx with
  | infer hrule hinfers _ ih => exact h _ hrule _ _ hinfers ih

theorem Infers.mono (hsub : ∀ p ∈ productions, p ∈ productions')
    (h : Infers productions tokens rule premises x) :
    Infers productions' tokens rule premises x := by
  cases h with
  | leaf ht => exact .leaf ht
  | empty hp hrhs hi => exact .empty (hsub _ hp) hrhs hi
  | predict hb hp ha he => exact .predict hb (hsub _ hp) ha he
  | fundamental hr hadj ha he => exact .fundamental hr hadj ha he

theorem Rule.arity_eq_zero_or_one (rule : Rule) : rule.arity = 0 ∨ rule.arity = 1 := by
  cases rule with
  | leafInit => exact .inl rfl
  | emptyPredict => exact .inl rfl
  | predictCombine => exact .inr rfl
  | fundamental => exact .inr rfl

/-- The axioms infer from nothing. -/
theorem Infers.premises_eq_nil (h : Infers productions tokens rule premises x)
    (harity : rule.arity = 0) : premises = [] := by
  cases h with
  | leaf => rfl
  | empty => rfl
  | predict => cases harity
  | fundamental => cases harity

theorem Infers.exists_mem_premises (h : Infers productions tokens rule premises x)
    (harity : rule.arity = 1) : ∃ y, y ∈ premises := by
  cases h with
  | leaf => cases harity
  | empty => cases harity
  | predict => exact ⟨_, List.mem_cons_self⟩
  | fundamental => exact ⟨_, List.mem_cons_self⟩

/-- Which rules and which productions there are matters, not how they are listed. -/
theorem Justified.mono (hproductions : ∀ p ∈ productions, p ∈ productions')
    (hrules : ∀ r ∈ rules, r ∈ rules') (hx : Justified productions tokens rules x) :
    Justified productions' tokens rules' x :=
  hx.of_closedUnder fun _ hrule _ _ hinfers hpremises =>
    .infer (hrules _ hrule) (hinfers.mono hproductions) hpremises

/-! ### What every inference keeps -/

/-- As many edges justify an edge as its dot has passed symbols. -/
theorem closedUnder_length :
    ClosedUnder productions tokens rule fun x => x.2.length = x.1.dot := by
  intro premises x hinfers hpremises
  cases hinfers with
  | leaf ht => rfl
  | empty hp hrhs hi => rfl
  | predict hb hp ha he =>
    obtain ⟨-, -, -, -, hdot⟩ := Edge.make_eq_ok he
    exact hdot.symm
  | @fundamental l ls r rs a e hr hadj ha he =>
    obtain ⟨-, -, -, -, hdot⟩ := Edge.make_eq_ok he
    have hl := hpremises _ List.mem_cons_self
    simp only at hl ⊢
    rw [List.length_append, hl, hdot]
    rfl

variable [LawfulLabel L]

/-- Inferences stay within the edges that productions and leaves are given by. -/
theorem closedUnder_within {seeds : List (Edge L)}
    (hleaf : ∀ i t, tokens[i]? = some t → (Edge.leaf t i).Within seeds)
    (hproduction : ∀ p ∈ productions, (Edge.ofProduction p tokens.length).Within seeds) :
    ClosedUnder productions tokens rule fun x => x.1.Within seeds := by
  intro premises x hinfers hpremises
  cases hinfers with
  | leaf ht => exact hleaf _ _ ht
  | @empty p i hp hrhs hi =>
    have h := hproduction p hp
    exact ⟨le_trans hi h.stop_le, h.length_le, h.lhs_mem, h.rhs_mem⟩
  | @predict b bs p a e hb hp ha he =>
    have hbw := hpremises _ List.mem_cons_self
    exact (hproduction p hp).advance hbw ha he
  | @fundamental l ls r rs a e hr hadj ha he =>
    have hl := hpremises _ List.mem_cons_self
    have hr := hpremises _ (List.mem_cons_of_mem _ List.mem_cons_self)
    exact hl.advance hr ha he

end ChartParsing
