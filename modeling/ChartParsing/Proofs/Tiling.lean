/-
ChartParsing/Proofs/Tiling.lean

What a list that justifies an edge looks like.

Unless it is empty, a list that justifies `[i:j] A → α • β` names complete
edges that *tile* the span: each starts where the one before it ends.  There
are as many of them as the dot has passed symbols, and advancing some
production over their labels leads to both sides of the edge (`Stepped`).

No more is asked of such a list, for the first tile predicts the production
and the dot moves over the others one by one (`justified_iff_stepped`).
-/
import ChartParsing.Parser.Config
import ChartParsing.Proofs.Inference
import ChartParsing.Proofs.Label.Series

namespace ChartParsing

variable {L : Type}

/-- Complete edges with the property `K`, over spans that follow one another. -/
inductive Tiles (K : Edge L → Prop) : List (Edge L) → Nat → Nat → Prop
  | nil {i} : Tiles K [] i i
  | cons {b es j} : K b → b.isComplete = true → Tiles K es b.stop j → Tiles K (b :: es) b.start j

/-- What a list of edges and the edge that it justifies look like. -/
inductive Stepped [Label L] (productions : List (Production L)) (tokens : List String)
    (K : Edge L → Prop) : Justification L → Prop
  | leaf {i w} : tokens[i]? = some w → Stepped productions tokens K (.leaf w i, [])
  | empty {p i} : p ∈ productions → p.rhs = [] → i ≤ tokens.length →
      Stepped productions tokens K (.ofProduction p i, [])
  | steps {p e es} : p ∈ productions → es ≠ [] → es.length = e.dot →
      Tiles K es e.start e.stop →
      Label.advanceAll 0 ⟨p.lhs, p.rhs⟩ (es.map Edge.lhs) = some ⟨e.lhs, e.rhs⟩ →
      Stepped productions tokens K (e, es)

/-- The edge is justified by some list. -/
def Known [Label L] (productions : List (Production L)) (tokens : List String) (e : Edge L) :
    Prop := ∃ es, Justified productions tokens bottomUpStrategy (e, es)

variable {K K' : Edge L → Prop} {es fs : List (Edge L)} {i j k : Nat}

/-! ### Tilings -/

namespace Tiles

theorem le (h : Tiles K es i j) : i ≤ j := by
  induction h with
  | nil => exact Nat.le_refl _
  | @cons b es j _ _ _ ih => exact le_trans b.start_le_stop ih

theorem append (h : Tiles K es i j) (h' : Tiles K fs j k) : Tiles K (es ++ fs) i k := by
  induction h with
  | nil => exact h'
  | cons hb hcomplete _ ih => exact .cons hb hcomplete (ih h')

theorem singleton {b : Edge L} (hb : K b) (hcomplete : b.isComplete = true) :
    Tiles K [b] b.start b.stop := .cons hb hcomplete .nil

theorem isComplete (h : Tiles K es i j) : ∀ b ∈ es, b.isComplete = true := by
  induction h with
  | nil => exact fun _ h => nomatch h
  | cons _ hcomplete _ ih => exact List.forall_mem_cons.2 ⟨hcomplete, ih⟩

/-- Tiles may have any property that each of them has. -/
theorem imp_of_mem (h : Tiles K es i j) (hK : ∀ b ∈ es, K b → K' b) : Tiles K' es i j := by
  induction h with
  | nil => exact .nil
  | cons hb hcomplete _ ih =>
    obtain ⟨hfirst, hrest⟩ := List.forall_mem_cons.1 hK
    exact .cons (hfirst hb) hcomplete (ih hrest)

end Tiles

/-! ### Justifications -/

variable [Label L] {productions : List (Production L)} {tokens : List String}

theorem Stepped.imp_of_mem {x : Justification L} (h : Stepped productions tokens K x)
    (hK : ∀ b ∈ x.2, K b → K' b) : Stepped productions tokens K' x := by
  cases h with
  | leaf hw => exact .leaf hw
  | empty hp hrhs hi => exact .empty hp hrhs hi
  | steps hp hne hdot htiles ha => exact .steps hp hne hdot (htiles.imp_of_mem hK) ha

variable [LawfulLabel L]

/-- An inference from stepped justifications is stepped. -/
theorem Infers.stepped {rule : Rule} {premises : List (Justification L)} {x : Justification L}
    (h : Infers productions tokens rule premises x)
    (hpremises : ∀ y ∈ premises, K y.1 ∧ Stepped productions tokens K y) :
    Stepped productions tokens K x := by
  cases h with
  | leaf hw => exact .leaf hw
  | empty hp hrhs hi => exact .empty hp hrhs hi
  | @predict b bs p a e hb hp ha he =>
    obtain ⟨hknown, -⟩ := hpremises _ List.mem_cons_self
    obtain ⟨hstart, hstop, hlhs, hrhs, hdot⟩ := Edge.make_eq_ok he
    refine .steps hp (List.cons_ne_nil _ _) hdot.symm ?_ ?_
    · rw [hstart, hstop]
      exact .singleton hknown hb
    · rw [hlhs, hrhs]
      exact (Label.advanceAll_singleton _ _ _).trans ha
  | @fundamental l ls r rs a e hr hadj ha he =>
    obtain ⟨-, hl⟩ := hpremises _ List.mem_cons_self
    obtain ⟨hknown, -⟩ := hpremises _ (List.mem_cons_of_mem _ List.mem_cons_self)
    obtain ⟨hstart, hstop, hlhs, hrhs, hdot⟩ := Edge.make_eq_ok he
    have hlt := LawfulLabel.dot_lt_of_advance ha
    -- only an edge that has tiles has a symbol after its dot
    cases hl with
    | leaf => cases hlt
    | @empty p _ _ hempty _ =>
      change 0 < p.rhs.length at hlt
      rw [hempty] at hlt
      cases hlt
    | @steps p _ _ hp hne hlength htiles hall =>
      refine .steps hp (List.append_ne_nil_of_right_ne_nil _ (List.cons_ne_nil _ _)) ?_ ?_ ?_
      · rw [List.length_append, hlength, hdot]
        rfl
      · rw [hstart, hstop]
        exact htiles.append (hadj ▸ .singleton hknown hr)
      · rw [List.map_append, List.map_cons, List.map_nil, Label.advanceAll_concat, hall, hlhs,
          hrhs, List.length_map, hlength, Nat.zero_add]
        exact ha

theorem Justified.stepped {x : Justification L}
    (hx : Justified productions tokens bottomUpStrategy x) :
    Stepped productions tokens (Known productions tokens) x := by
  induction hx with
  | infer _ hinfers hpremises ih =>
    exact hinfers.stepped fun y hy => ⟨⟨y.2, hpremises y hy⟩, ih y hy⟩

/-- A justified edge goes on over tiles that its labels advance over. -/
theorem Justified.extend {l : Edge L} {ls : List (Edge L)} {a : Advance L}
    (hl : Justified productions tokens bottomUpStrategy (l, ls)) (hi : l.stop = i)
    (htiles : Tiles (Known productions tokens) es i k)
    (ha : Label.advanceAll l.dot ⟨l.lhs, l.rhs⟩ (es.map Edge.lhs) = some a) :
    ∃ e, Edge.make l.start k a.lhs a.rhs (l.dot + es.length) = .ok e ∧
      Justified productions tokens bottomUpStrategy (e, ls ++ es) := by
  induction htiles generalizing l ls with
  | nil =>
    obtain rfl := Option.some.inj ha
    refine ⟨l, hi ▸ l.make_self, ?_⟩
    rw [List.append_nil]
    exact hl
  | @cons r es k hr hcomplete hrest ih =>
    obtain ⟨rs, hrs⟩ := hr
    obtain ⟨a', hfirst, hothers⟩ := Option.bind_eq_some_iff.1 ha
    have hspan : l.start ≤ r.stop := le_trans l.start_le_stop (hi ▸ r.start_le_stop)
    obtain ⟨e, he⟩ := Edge.exists_make_advance hspan hfirst
    obtain ⟨hstart, hstop, hlhs, hrhs, hdot'⟩ := Edge.make_eq_ok he
    -- move the dot over the first tile, then over the others
    have hstep : Justified productions tokens bottomUpStrategy (e, ls ++ [r]) := by
      have hinfers : Infers productions tokens .fundamental [(l, ls), (r, rs)] (e, ls ++ [r]) :=
        .fundamental hcomplete hi hfirst he
      refine .infer (by decide) hinfers fun y hy => ?_
      rcases List.mem_cons.1 hy with rfl | hy
      · exact hl
      · rw [List.mem_singleton.1 hy]
        exact hrs
    have hothers' : Label.advanceAll e.dot ⟨e.lhs, e.rhs⟩ (es.map Edge.lhs) = some a := by
      rw [hlhs, hrhs, hdot']
      exact hothers
    obtain ⟨e', he', hjustified⟩ := ih hstep hstop hothers'
    refine ⟨e', ?_, ?_⟩
    · rw [hstart, hdot', Nat.add_assoc, Nat.add_comm 1] at he'
      exact he'
    · rw [List.append_cons]
      exact hjustified

/-- Tiles that a production advances over justify the edge that they lead to. -/
theorem Tiles.justified {p : Production L} {a : Advance L} (hp : p ∈ productions) (hne : es ≠ [])
    (htiles : Tiles (Known productions tokens) es i k)
    (ha : Label.advanceAll 0 ⟨p.lhs, p.rhs⟩ (es.map Edge.lhs) = some a) :
    ∃ e, Edge.make i k a.lhs a.rhs es.length = .ok e ∧
      Justified productions tokens bottomUpStrategy (e, es) := by
  cases htiles with
  | nil => exact absurd rfl hne
  | @cons b es _ hb hcomplete hrest =>
    obtain ⟨bs, hbs⟩ := hb
    obtain ⟨a', hfirst, hothers⟩ := Option.bind_eq_some_iff.1 ha
    obtain ⟨e, he⟩ := Edge.exists_make_advance b.start_le_stop hfirst
    obtain ⟨hstart, hstop, hlhs, hrhs, hdot'⟩ := Edge.make_eq_ok he
    -- the first tile predicts the production
    have hpredicted : Justified productions tokens bottomUpStrategy (e, [b]) := by
      have hinfers : Infers productions tokens .predictCombine [(b, bs)] (e, [b]) :=
        .predict hcomplete hp hfirst he
      refine .infer (by decide) hinfers fun y hy => ?_
      rw [List.mem_singleton.1 hy]
      exact hbs
    have hothers' : Label.advanceAll e.dot ⟨e.lhs, e.rhs⟩ (es.map Edge.lhs) = some a := by
      rw [hlhs, hrhs, hdot']
      exact hothers
    obtain ⟨e', he', hjustified⟩ := hpredicted.extend hstop hrest hothers'
    refine ⟨e', ?_, hjustified⟩
    rw [hstart, hdot', Nat.add_comm] at he'
    exact he'

/-- The four rules justify leaves and empty productions from nothing, and
every other edge by tiles that a production advances over. -/
theorem justified_iff_stepped {x : Justification L} :
    Justified productions tokens bottomUpStrategy x ↔
      Stepped productions tokens (Known productions tokens) x := by
  constructor
  · exact Justified.stepped
  · intro h
    cases h with
    | leaf hw => exact .infer (by decide) (.leaf hw) fun _ h => nomatch h
    | empty hp hrhs hi => exact .infer (by decide) (.empty hp hrhs hi) fun _ h => nomatch h
    | @steps p e es hp hne hdot htiles ha =>
      obtain ⟨e', he', hjustified⟩ := htiles.justified hp hne ha
      -- an edge is settled by its parts
      obtain rfl : e = e' := by
        rw [hdot] at he'
        exact Except.ok.inj (e.make_self.symm.trans he')
      exact hjustified

end ChartParsing
