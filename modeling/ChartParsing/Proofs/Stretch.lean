/-
ChartParsing/Proofs/Stretch.lean

A stretch of the input, and what stands around it.

Nothing that is inferred about a stretch of the input depends on the tokens
before and after it.  An inference that ends within a stretch also begins from
edges within it, the edges at its borders included that span nothing; so what
the rules lead to over `u ++ v ++ w` within the stretch `v` is what they lead
to over `v` alone, moved by the length of `u` (`justified_stretch_iff`).

A filled chart therefore holds the filled chart of every stretch, edge by edge
and list by list, and reads the same trees off it (`Chart.OnStretch`).
-/
import ChartParsing.Proofs.Parser.Safety
import ChartParsing.Proofs.Parser.Independence
import ChartParsing.Proofs.Parser.Steps

namespace ChartParsing

variable {L : Type}

/-! ### Moving edges -/

/-- The edge as it is after `k` more tokens before it. -/
def Edge.shift (k : Nat) (e : Edge L) : Edge L :=
  ⟨k + e.start, k + e.stop, e.lhs, e.rhs, e.dot, Nat.add_le_add_left e.start_le_stop k,
    e.dot_le_length⟩

/-- An edge and those that justify it, moved together. -/
def Justification.shift (k : Nat) (x : Justification L) : Justification L :=
  (x.1.shift k, x.2.map (Edge.shift k))

namespace Edge

theorem shift_injective (k : Nat) : Function.Injective (shift k : Edge L → Edge L) := by
  intro e f h
  have hparts := Edge.mk.inj h
  exact ext_parts (Nat.add_left_cancel hparts.1) (Nat.add_left_cancel hparts.2.1) hparts.2.2.1
    hparts.2.2.2.1 hparts.2.2.2.2

@[simp] theorem length_shift (k : Nat) (e : Edge L) : (e.shift k).length = e.length :=
  Nat.add_sub_add_left k e.stop e.start

/-- An edge that can be made can be made elsewhere. -/
theorem make_shift {start stop dot : Nat} {lhs : L} {rhs : List L} {e : Edge L}
    (h : make start stop lhs rhs dot = .ok e) (k : Nat) :
    make (k + start) (k + stop) lhs rhs dot = .ok (e.shift k) := by
  obtain ⟨rfl, rfl, rfl, rfl, rfl⟩ := make_eq_ok h
  exact (e.shift k).make_self

theorem exists_make_of_shift {k start stop dot : Nat} {lhs : L} {rhs : List L} {e : Edge L}
    (h : make (k + start) (k + stop) lhs rhs dot = .ok e) :
    ∃ e₀, make start stop lhs rhs dot = .ok e₀ ∧ e = e₀.shift k := by
  obtain ⟨hstart, hstop, rfl, rfl, rfl⟩ := make_eq_ok h
  have hspan : start ≤ stop := by
    have hle := e.start_le_stop
    omega
  let e₀ : Edge L := ⟨start, stop, e.lhs, e.rhs, e.dot, hspan, e.dot_le_length⟩
  exact ⟨e₀, e₀.make_self, ext_parts hstart hstop rfl rfl rfl⟩

end Edge

variable [Label L] {productions : List (Production L)} {u v w : List String} {rules : List Rule}
  {x : Justification L}

/-! ### Inferences within a stretch -/

theorem getElem?_stretch {i : Nat} (hi : i < v.length) :
    (u ++ v ++ w)[u.length + i]? = v[i]? := by
  rw [List.append_assoc, List.getElem?_append_right (Nat.le_add_right _ _),
    Nat.add_sub_cancel_left, List.getElem?_append_left hi]

/-- No edge ends past the tokens. -/
theorem closedUnder_stop_le {tokens : List String} {rule : Rule} :
    ClosedUnder productions tokens rule fun x => x.1.stop ≤ tokens.length := by
  intro premises x hinfers hpremises
  cases hinfers with
  | leaf ht => exact (List.getElem?_eq_some_iff.1 ht).1
  | empty hp hrhs hi => exact hi
  | predict hb hp ha he =>
    obtain ⟨-, hstop, -⟩ := Edge.make_eq_ok he
    have hbase := hpremises _ List.mem_cons_self
    exact hstop ▸ hbase
  | fundamental hr hadj ha he =>
    obtain ⟨-, hstop, -⟩ := Edge.make_eq_ok he
    have hright := hpremises _ (List.mem_cons_of_mem _ List.mem_cons_self)
    exact hstop ▸ hright

/-- What is inferred over a stretch is inferred around it as well. -/
theorem Infers.shift {rule : Rule} {premises : List (Justification L)}
    (h : Infers productions v rule premises x) (u w : List String) :
    Infers productions (u ++ v ++ w) rule (premises.map (Justification.shift u.length))
      (x.shift u.length) := by
  cases h with
  | @leaf i t ht =>
    have hi : i < v.length := (List.getElem?_eq_some_iff.1 ht).1
    exact .leaf ((getElem?_stretch hi).trans ht)
  | @empty p i hp hrhs hi =>
    refine .empty hp hrhs ?_
    show u.length + i ≤ (u ++ v ++ w).length
    rw [List.length_append, List.length_append]
    omega
  | predict hb hp ha he => exact .predict hb hp ha (Edge.make_shift he u.length)
  | @fundamental l ls r rs a e hr hadj ha he =>
    have hjustified : Justification.shift u.length (e, ls ++ [r]) =
        (e.shift u.length, ls.map (Edge.shift u.length) ++ [r.shift u.length]) := by
      rw [Justification.shift, List.map_append]
      rfl
    rw [hjustified]
    exact .fundamental hr (congrArg (u.length + ·) hadj) ha (Edge.make_shift he u.length)

theorem Justified.shift (hx : Justified productions v rules x) (u w : List String) :
    Justified productions (u ++ v ++ w) rules (x.shift u.length) := by
  refine hx.of_closedUnder (S := fun x => Justified productions (u ++ v ++ w) rules
    (x.shift u.length)) fun rule hrule premises x hinfers hpremises => ?_
  refine .infer hrule (hinfers.shift u w) fun y' hy' => ?_
  obtain ⟨y, hy, rfl⟩ := List.mem_map.1 hy'
  exact hpremises y hy

/-- What is inferred within a stretch is inferred from within it. -/
theorem Justified.of_stretch (hx : Justified productions (u ++ v ++ w) rules x) :
    u.length ≤ x.1.start → x.1.stop ≤ u.length + v.length →
      ∃ y, Justified productions v rules y ∧ x = y.shift u.length := by
  refine hx.of_closedUnder (S := fun x => u.length ≤ x.1.start →
    x.1.stop ≤ u.length + v.length → ∃ y, Justified productions v rules y ∧
      x = y.shift u.length) fun rule hrule premises x hinfers hpremises hstart hstop => ?_
  cases hinfers with
  | @leaf i t ht =>
    obtain ⟨i, rfl⟩ := Nat.exists_eq_add_of_le hstart
    have hi : i < v.length := by
      have hlt : u.length + i + 1 ≤ u.length + v.length := hstop
      omega
    rw [getElem?_stretch hi] at ht
    exact ⟨_, .infer hrule (.leaf ht) (fun _ h => nomatch h), rfl⟩
  | @empty p i hp hrhs _ =>
    obtain ⟨i, rfl⟩ := Nat.exists_eq_add_of_le hstart
    have hi : i ≤ v.length := Nat.le_of_add_le_add_left hstop
    exact ⟨_, .infer hrule (.empty hp hrhs hi) (fun _ h => nomatch h), rfl⟩
  | @predict b bs p a e hb hp ha he =>
    obtain ⟨hestart, hestop, -⟩ := Edge.make_eq_ok he
    obtain ⟨⟨b₀, bs₀⟩, hbase, hshift⟩ := hpremises _ List.mem_cons_self (hestart ▸ hstart)
      (hestop ▸ hstop)
    obtain ⟨rfl, rfl⟩ := Prod.mk.inj hshift
    obtain ⟨e₀, he₀, rfl⟩ := Edge.exists_make_of_shift he
    have hinfers : Infers productions v .predictCombine [(b₀, bs₀)] (e₀, [b₀]) :=
      .predict hb hp ha he₀
    refine ⟨(e₀, [b₀]), .infer hrule hinfers fun y hy => ?_, rfl⟩
    rw [List.mem_singleton.1 hy]
    exact hbase
  | @fundamental l ls r rs a e hr hadj ha he =>
    obtain ⟨hestart, hestop, -⟩ := Edge.make_eq_ok he
    -- both edges lie within the span of the new one
    have hlstart : u.length ≤ l.start := hestart ▸ hstart
    have hrstop : r.stop ≤ u.length + v.length := hestop ▸ hstop
    have hrstart : u.length ≤ r.start := hlstart.trans (hadj ▸ l.start_le_stop)
    have hlstop : l.stop ≤ u.length + v.length := hadj ▸ r.start_le_stop.trans hrstop
    obtain ⟨⟨l₀, ls₀⟩, hleft, hshift⟩ := hpremises _ List.mem_cons_self hlstart hlstop
    obtain ⟨rfl, rfl⟩ := Prod.mk.inj hshift
    obtain ⟨⟨r₀, rs₀⟩, hright, hshift⟩ :=
      hpremises _ (List.mem_cons_of_mem _ List.mem_cons_self) hrstart hrstop
    obtain ⟨rfl, rfl⟩ := Prod.mk.inj hshift
    obtain ⟨e₀, he₀, rfl⟩ := Edge.exists_make_of_shift he
    have hinfers : Infers productions v .fundamental [(l₀, ls₀), (r₀, rs₀)] (e₀, ls₀ ++ [r₀]) :=
      .fundamental hr (Nat.add_left_cancel hadj) ha he₀
    refine ⟨(e₀, ls₀ ++ [r₀]), .infer hrule hinfers fun y hy => ?_, ?_⟩
    · rcases List.mem_cons.1 hy with rfl | hy
      · exact hleft
      · rw [List.mem_singleton.1 hy]
        exact hright
    · rw [Justification.shift, List.map_append]
      rfl

/-- Within a stretch the rules lead to what they lead to over it alone. -/
theorem justified_stretch_iff :
    Justified productions (u ++ v ++ w) rules x ∧ u.length ≤ x.1.start ∧
        x.1.stop ≤ u.length + v.length ↔
      ∃ y, Justified productions v rules y ∧ x = y.shift u.length := by
  constructor
  · rintro ⟨hx, hstart, hstop⟩
    exact hx.of_stretch hstart hstop
  · rintro ⟨y, hy, rfl⟩
    have hstop : y.1.stop ≤ v.length := hy.of_closedUnder fun _ _ => closedUnder_stop_le
    exact ⟨hy.shift u w, Nat.le_add_right _ _, Nat.add_le_add_left hstop _⟩

/-! ### Charts -/

namespace Chart

/-- Over the `n` tokens behind the first `k`, `c` holds what `d` holds, moved
there: the edges, for each edge its lists, by the edges that they name, and
the trees that are read off it. -/
structure OnStretch (c : Chart L) (k n : Nat) (d : Chart L) : Prop where
  edges : ∀ e, e ∈ c.edges ∧ k ≤ e.start ∧ e.stop ≤ k + n ↔ ∃ f ∈ d.edges, e = f.shift k
  cpls : ∀ id id' f, c.edges[id]? = some (f.shift k) → d.edges[id']? = some f →
    ((c.pointers id).map fun p => p.map (c.edges[·]?)).Perm
      ((d.pointers id').map fun p => p.map fun child => (d.edges[child]?).map (Edge.shift k))
  trees : ∀ id id' f complete, c.edges[id]? = some (f.shift k) → d.edges[id']? = some f →
    ∃ ts ts', c.trees id complete = .ok ts ∧ d.trees id' complete = .ok ts' ∧ ts.Perm ts'

variable {c d : Chart L}

/-- A filled chart holds those of all stretches. -/
theorem Filled.embeds (hd : d.Filled productions v rules)
    (hc : c.Filled productions (u ++ v ++ w) rules) :
    Embeds (Edge.shift u.length) d c where
  wellFormed := hd.wellFormed
  wellFormed' := hc.wellFormed
  injective := Edge.shift_injective u.length
  lhs := fun _ => rfl
  rhs := fun _ => rfl
  dot := fun _ => rfl
  length := Edge.length_shift u.length
  token := by
    intro f hf hleaf
    obtain ⟨i, t, ht, rfl⟩ := hd.exists_eq_leaf hf hleaf
    rw [hc.tokens_eq, hd.tokens_eq]
    exact getElem?_stretch (List.getElem?_eq_some_iff.1 ht).1
  justifies_iff := by
    intro f hf es'
    obtain ⟨fs, hfs⟩ := hd.wellFormed.mem_edges_iff.1 hf
    have hstop : f.stop ≤ v.length :=
      ((hd.justifies_iff _).1 hfs).of_closedUnder fun _ _ => closedUnder_stop_le
    rw [hc.justifies_iff]
    constructor
    · intro hes'
      obtain ⟨⟨f', es⟩, hes, heq⟩ := hes'.of_stretch (Nat.le_add_right _ _)
        (Nat.add_le_add_left hstop _)
      obtain ⟨hf', rfl⟩ := Prod.mk.inj heq
      obtain rfl := Edge.shift_injective _ hf'
      exact ⟨es, (hd.justifies_iff _).2 hes, rfl⟩
    · rintro ⟨es, hes, rfl⟩
      exact ((hd.justifies_iff _).1 hes).shift u w

theorem Filled.onStretch (hd : d.Filled productions v rules)
    (hc : c.Filled productions (u ++ v ++ w) rules) : c.OnStretch u.length v.length d where
  edges := by
    intro e
    rw [hc.wellFormed.mem_edges_iff]
    constructor
    · rintro ⟨⟨es, hes⟩, hstart, hstop⟩
      obtain ⟨⟨f, fs⟩, hfs, heq⟩ := ((hc.justifies_iff _).1 hes).of_stretch hstart hstop
      exact ⟨f, hd.wellFormed.mem_edges_iff.2 ⟨fs, (hd.justifies_iff _).2 hfs⟩,
        congrArg Prod.fst heq⟩
    · rintro ⟨f, hf, rfl⟩
      obtain ⟨fs, hfs⟩ := hd.wellFormed.mem_edges_iff.1 hf
      obtain ⟨hjustified, hstart, hstop⟩ :=
        justified_stretch_iff.2 ⟨_, (hd.justifies_iff _).1 hfs, rfl⟩
      exact ⟨⟨_, (hc.justifies_iff _).2 hjustified⟩, hstart, hstop⟩
  cpls := by
    intro id id' f hf hf'
    have hperm := ((hd.embeds hc).named_perm hf' hf).map (List.map some)
    rw [List.map_map, List.map_map] at hperm
    have hnames : (c.pointers id).map (fun p => p.map (c.edges[·]?)) =
        (c.pointers id).map (List.map some ∘ c.named) :=
      List.map_congr_left fun p hp => hc.wellFormed.map_eq_named hp
    have hnames' : (d.pointers id').map
        (fun p => p.map fun child => (d.edges[child]?).map (Edge.shift u.length)) =
        (d.pointers id').map (List.map some ∘ fun p => (d.named p).map (Edge.shift u.length)) := by
      refine List.map_congr_left fun p hp => ?_
      have hmap := congrArg (List.map (Option.map (Edge.shift u.length)))
        (hd.wellFormed.map_eq_named hp)
      rw [List.map_map, List.map_map] at hmap
      rw [Function.comp_apply, List.map_map]
      exact hmap
    rw [hnames, hnames']
    exact hperm.symm
  trees := by
    intro id id' f complete hf hf'
    refine ⟨_, _, hc.trees_eq (lt_size hf) complete, hd.trees_eq (lt_size hf') complete, ?_⟩
    refine ((hd.embeds hc).treesAvoiding_perm complete ∅ id' ∅ id f hf' hf ?_).symm
    exact fun j j' _ _ _ => iff_of_false (Finset.notMem_empty j) (Finset.notMem_empty j')

end Chart

namespace Parser

variable [DecidableEq L] [LawfulLabel L]

/-- What a chart holds over a stretch of the input, it holds whatever tokens
stand before and after it, as long as they are covered. -/
theorem onStretch_of_covered [Resolve L] (p : Parser L) (hp : p.grammar.Obtained)
    (u v w : List String) (hcovered : ∀ t ∈ u ++ v ++ w, Covered p.grammar.productions t) :
    ∃ whole part, p.chartParse (u ++ v ++ w) = .ok whole ∧ p.chartParse v = .ok part ∧
      whole.chart.OnStretch u.length v.length part.chart := by
  have hg : p.grammar.Indexed := hp.indexed
  have hcheck : ∀ tokens : List String, (∀ t ∈ tokens, t ∈ u ++ v ++ w) →
      p.grammar.checkCoverage tokens = .ok () := by
    intro tokens hsub
    rw [Grammar.checkCoverage_eq_ok_iff]
    exact fun t ht => (hg.covers_iff t).2 (hcovered t (hsub t ht))
  have hv : ∀ t ∈ v, t ∈ u ++ v ++ w := fun t ht =>
    List.mem_append_left _ (List.mem_append_right _ ht)
  obtain ⟨whole, hwhole, hfilled, -⟩ :=
    p.chartParseWith_spec hg (hcheck _ fun _ ht => ht) .idle ()
  obtain ⟨part, hpart, hfilled', -⟩ := p.chartParseWith_spec hg (hcheck v hv) .idle ()
  exact ⟨whole, part, hwhole, hpart, hfilled'.onStretch hfilled⟩

/-- The same token on both sides, where derivations run in circles; and a verb
without the noun that it would agree with. -/
theorem onStretch_of_covered_doubling_and_agreeing :
    (∃ whole part : Outcome Symbol Unit,
      Parser.chartParse ⟨.ofList (.nonterminal "S") doubling, ⟨bottomUpStrategy, .agenda, 50⟩⟩
          ["a", "a", "a"] = .ok whole ∧
        Parser.chartParse ⟨.ofList (.nonterminal "S") doubling, ⟨bottomUpStrategy, .agenda, 50⟩⟩
          ["a"] = .ok part ∧
          whole.chart.OnStretch 1 1 part.chart) ∧
      ∃ whole part : Outcome FeatureSymbol Unit,
        Parser.chartParse ⟨.ofList (.category (.bare "S")) Chart.agreeing,
            ⟨bottomUpStrategy, .fullPass, 50⟩⟩ ["dogs", "slept"] = .ok whole ∧
          Parser.chartParse ⟨.ofList (.category (.bare "S")) Chart.agreeing,
            ⟨bottomUpStrategy, .fullPass, 50⟩⟩ ["slept"] = .ok part ∧
            whole.chart.OnStretch 1 1 part.chart := by
  constructor
  · refine onStretch_of_covered ⟨.ofList _ doubling, _⟩ (.made _ doubling) ["a"] ["a"] ["a"] ?_
    unfold Covered
    decide
  · refine onStretch_of_covered ⟨.ofList _ Chart.agreeing, _⟩ (.made _ Chart.agreeing) ["dogs"]
      ["slept"] [] ?_
    unfold Covered
    decide

end Parser

end ChartParsing
