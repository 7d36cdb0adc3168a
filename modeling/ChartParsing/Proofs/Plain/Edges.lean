/-
ChartParsing/Proofs/Plain/Edges.lean

The edges of a plain grammar's chart.

A plain symbol fits where it stands and changes nothing, so the tiles that
justify an edge `[i:j] A → α • β` are labelled with `α`, and any such tiles
justify it (`justified_iff`).  Nothing is predicted from above, so a complete
edge is known wherever its tiles are, and by induction over a forest wherever
there is one (`Forest.exists_tiles`).
-/
import ChartParsing.Proofs.Parser.Fixpoint
import ChartParsing.Proofs.Plain.Derivation
import ChartParsing.Proofs.Tiling

namespace ChartParsing

/-- The edge `[i:j] A → α • β`. -/
def Edge.dotted (A : Symbol) (α β : List Symbol) {i j : Nat} (hij : i ≤ j) : Edge Symbol :=
  ⟨i, j, A, α ++ β, α.length, hij, by rw [List.length_append]; exact Nat.le_add_right _ _⟩

/-- The edge `[i:j] A → α •` of a production `A → α`. -/
def Edge.finished (p : Production Symbol) {i j : Nat} (hij : i ≤ j) : Edge Symbol :=
  ⟨i, j, p.lhs, p.rhs, p.rhs.length, hij, Nat.le_refl _⟩

/-- What a list of edges and the edge that it justifies look like. -/
inductive Shaped (productions : List (Production Symbol)) (tokens : List String)
    (K : Edge Symbol → Prop) : Justification Symbol → Prop
  | leaf {i w} : tokens[i]? = some w → Shaped productions tokens K (.leaf w i, [])
  | empty {p i} : p ∈ productions → p.rhs = [] → i ≤ tokens.length →
      Shaped productions tokens K (.ofProduction p i, [])
  | dotted {A es β i j} (hij : i ≤ j) : ⟨A, es.map Edge.lhs ++ β⟩ ∈ productions → es ≠ [] →
      Tiles K es i j → Shaped productions tokens K (.dotted A (es.map Edge.lhs) β hij, es)

/-- The edges over the tokens that the productions allow. -/
inductive Licensed (productions : List (Production Symbol)) (tokens : List String) :
    Edge Symbol → Prop
  | leaf {i w} : tokens[i]? = some w → Licensed productions tokens (.leaf w i)
  | empty {p i} : p ∈ productions → p.rhs = [] → i ≤ tokens.length →
      Licensed productions tokens (.ofProduction p i)
  | dotted {A α β i j} (hij : i ≤ j) : ⟨A, α ++ β⟩ ∈ productions → α ≠ [] → j ≤ tokens.length →
      Derives productions α (word tokens i j) →
      Licensed productions tokens (.dotted A α β hij)

/-- The complete edge that a derivation tree ends in. -/
inductive Tops (productions : List (Production Symbol)) (tokens : List String) :
    Edge Symbol → Tree Symbol → Prop
  | leaf {i w} : tokens[i]? = some w → Tops productions tokens (.leaf w i) (.leaf w)
  | node {p i j ts} (hij : i ≤ j) : p ∈ productions → Forest productions tokens p.rhs i j ts →
      Tops productions tokens (.finished p hij) (.node p.lhs ts)

variable {productions : List (Production Symbol)} {tokens : List String}
  {K : Edge Symbol → Prop} {es fs : List (Edge Symbol)} {i j k : Nat}

/-! ### Justifications -/

namespace Edge

theorem isLeaf_leaf (w : String) (i : Nat) : (leaf w i : Edge Symbol).isLeaf = true := by
  have hlength : (leaf w i : Edge Symbol).length = 1 := Nat.add_sub_cancel_left i 1
  rw [isLeaf, hlength]
  rfl

/-- Nothing is left to match after the dot of a complete edge. -/
theorem eq_nil_of_isComplete_dotted {A : Symbol} {α β : List Symbol} (hij : i ≤ j)
    (h : (dotted A α β hij).isComplete = true) : β = [] := by
  have hlength : α.length = (α ++ β).length := eq_of_beq h
  rwa [List.length_append, Nat.left_eq_add, List.length_eq_zero_iff] at hlength

end Edge

/-- Successive advances match the symbols as they stand, and change nothing. -/
theorem Symbol.advanceAll_eq_some_iff {A : Symbol} {rhs founds : List Symbol} {dot : Nat}
    {a : Advance Symbol} :
    Label.advanceAll dot ⟨A, rhs⟩ founds = some a ↔ founds <+: rhs.drop dot ∧ a = ⟨A, rhs⟩ := by
  induction founds generalizing dot with
  | nil => simp [Label.advanceAll, eq_comm]
  | cons X founds ih =>
    rw [Label.advanceAll, Option.bind_eq_some_iff]
    constructor
    · rintro ⟨a', ha', hothers⟩
      obtain ⟨hnext, rfl⟩ := Symbol.advance_eq_some_iff.1 ha'
      obtain ⟨hfront, rfl⟩ := ih.1 hothers
      obtain ⟨hlt, rfl⟩ := List.getElem?_eq_some_iff.1 hnext
      rw [List.drop_eq_getElem_cons hlt]
      exact ⟨List.cons_prefix_cons.2 ⟨rfl, hfront⟩, rfl⟩
    · rintro ⟨hfront, rfl⟩
      have hlt : dot < rhs.length := by
        have hle := hfront.length_le
        rw [List.length_drop, List.length_cons] at hle
        omega
      rw [List.drop_eq_getElem_cons hlt, List.cons_prefix_cons] at hfront
      obtain ⟨rfl, hfront⟩ := hfront
      exact ⟨_, Symbol.advance_eq_some_iff.2 ⟨List.getElem?_eq_getElem hlt, rfl⟩,
        ih.2 ⟨hfront, rfl⟩⟩

/-- With plain symbols, the labels of the tiles are what stands before the dot. -/
theorem stepped_iff_shaped {x : Justification Symbol} :
    Stepped productions tokens K x ↔ Shaped productions tokens K x := by
  constructor
  · intro h
    cases h with
    | leaf hw => exact .leaf hw
    | empty hp hrhs hi => exact .empty hp hrhs hi
    | @steps p e es hp hne hdot htiles ha =>
      obtain ⟨⟨β, hβ⟩, ha⟩ := Symbol.advanceAll_eq_some_iff.1 ha
      obtain ⟨hlhs, hrhs⟩ := Advance.mk.inj ha
      obtain ⟨A, rhs⟩ := p
      obtain rfl : es.map Edge.lhs ++ β = rhs := hβ
      have heq : e = .dotted A (es.map Edge.lhs) β htiles.le :=
        Edge.ext_parts rfl rfl hlhs hrhs (hdot.symm.trans (List.length_map _).symm)
      rw [heq]
      exact .dotted htiles.le hp hne htiles
  · intro h
    cases h with
    | leaf hw => exact .leaf hw
    | empty hp hrhs hi => exact .empty hp hrhs hi
    | @dotted A es β i j hij hp hne htiles =>
      exact .steps hp hne (List.length_map _).symm htiles
        (Symbol.advanceAll_eq_some_iff.2 ⟨List.prefix_append _ _, rfl⟩)

/-- What justifies the edges of a plain grammar's chart. -/
theorem justified_iff {x : Justification Symbol} :
    Justified productions tokens bottomUpStrategy x ↔
      Shaped productions tokens (Known productions tokens) x :=
  justified_iff_stepped.trans stepped_iff_shaped

/-! ### Edges -/

namespace Licensed

theorem stop_le {e : Edge Symbol} (h : Licensed productions tokens e) :
    e.stop ≤ tokens.length := by
  cases h with
  | leaf hw => exact (List.getElem?_eq_some_iff.1 hw).1
  | empty _ _ hi => exact hi
  | dotted _ _ _ hj _ => exact hj

/-- The left-hand side of a complete edge derives what the edge spans. -/
theorem derives {e : Edge Symbol} (h : Licensed productions tokens e)
    (hcomplete : e.isComplete = true) :
    Derives productions [e.lhs] (word tokens e.start e.stop) := by
  cases h with
  | @leaf i w hw =>
    show Derives productions [.terminal w] (word tokens i (i + 1))
    rw [word_succ hw]
    exact .refl
  | @empty p i hp hrhs _ =>
    show Derives productions [p.lhs] (word tokens i i)
    rw [word_self]
    refine .of_production hp ?_
    rw [hrhs]
    exact .refl
  | @dotted A α β i j hij hp _ _ hderives =>
    obtain rfl := Edge.eq_nil_of_isComplete_dotted hij hcomplete
    rw [List.append_nil] at hp
    exact .of_production hp hderives

end Licensed

theorem Tiles.derives (h : Tiles (Licensed productions tokens) es i j) :
    Derives productions (es.map Edge.lhs) (word tokens i j) := by
  induction h with
  | nil =>
    rw [word_self]
    exact .refl
  | @cons b es j hb hcomplete hrest ih =>
    rw [← word_append b.start_le_stop hrest.le]
    exact (hb.derives hcomplete).append ih

theorem Tiles.stop_le (h : Tiles (Licensed productions tokens) es i j)
    (hi : i ≤ tokens.length) : j ≤ tokens.length := by
  induction h with
  | nil => exact hi
  | cons hb _ _ ih => exact ih hb.stop_le

theorem Shaped.licensed {x : Justification Symbol}
    (h : Shaped productions tokens (Licensed productions tokens) x) :
    Licensed productions tokens x.1 := by
  cases h with
  | leaf hw => exact .leaf hw
  | empty hp hrhs hi => exact .empty hp hrhs hi
  | @dotted A es β i j hij hp hne htiles =>
    have hj : j ≤ tokens.length := by
      cases htiles with
      | nil => exact absurd rfl hne
      | cons hb _ hrest => exact hrest.stop_le hb.stop_le
    exact .dotted hij hp (fun h => hne (List.map_eq_nil_iff.1 h)) hj htiles.derives

theorem Justified.licensed {x : Justification Symbol}
    (hx : Justified productions tokens bottomUpStrategy x) : Licensed productions tokens x.1 := by
  have hstepped : Stepped productions tokens (Licensed productions tokens) x := by
    induction hx with
    | infer _ hinfers _ ih =>
      exact hinfers.stepped fun y hy => ⟨(stepped_iff_shaped.1 (ih y hy)).licensed, ih y hy⟩
  exact (stepped_iff_shaped.1 hstepped).licensed

theorem known_leaf {w : String} (hw : tokens[i]? = some w) :
    Known productions tokens (.leaf w i) := ⟨[], justified_iff.2 (.leaf hw)⟩

/-- A tiling of a right-hand side justifies the complete edge of the production. -/
theorem Tiles.justified_finished {p : Production Symbol} (hp : p ∈ productions)
    (hes : es.map Edge.lhs = p.rhs) (h : Tiles (Known productions tokens) es i j)
    (hj : j ≤ tokens.length) :
    Justified productions tokens bottomUpStrategy (.finished p h.le, es) := by
  refine justified_iff.2 ?_
  cases es with
  | nil =>
    cases h with
    | nil =>
      have hrhs : p.rhs = [] := hes.symm
      -- a right-hand side without symbols is matched before it starts
      have heq : Edge.finished p (Nat.le_refl i) = .ofProduction p i :=
        Edge.ext_parts rfl rfl rfl rfl (congrArg List.length hrhs)
      rw [heq]
      exact .empty hp hrhs hj
  | cons b es =>
    have heq : Edge.finished p h.le = .dotted p.lhs ((b :: es).map Edge.lhs) [] h.le := by
      refine Edge.ext_parts rfl rfl rfl ?_ (congrArg List.length hes.symm)
      exact hes.symm.trans (List.append_nil _).symm
    rw [heq]
    refine .dotted h.le ?_ (List.cons_ne_nil _ _) h
    rw [List.append_nil, hes]
    exact hp

/-- Apart from leaves, a complete edge has a production whose right-hand side is tiled. -/
theorem Shaped.of_isComplete {e : Edge Symbol} (h : Shaped productions tokens K (e, es))
    (hcomplete : e.isComplete = true) (hleaf : e.isLeaf = false) :
    ⟨e.lhs, e.rhs⟩ ∈ productions ∧ es.map Edge.lhs = e.rhs ∧ Tiles K es e.start e.stop := by
  cases h with
  | @leaf i w _ =>
    rw [Edge.isLeaf_leaf] at hleaf
    cases hleaf
  | empty hp hrhs _ => exact ⟨hp, hrhs.symm, .nil⟩
  | dotted hij hp _ htiles =>
    obtain rfl := Edge.eq_nil_of_isComplete_dotted hij hcomplete
    exact ⟨hp, (List.append_nil _).symm, htiles⟩

/-- The edges that the trees of a forest end in tile its span. -/
theorem Forest.exists_tiles {α : List Symbol} {ts : List (Tree Symbol)}
    (h : Forest productions tokens α i j ts) (hj : j ≤ tokens.length) :
    ∃ es, es.map Edge.lhs = α ∧ Tiles (Known productions tokens) es i j ∧
      List.Forall₂ (Tops productions tokens) es ts := by
  induction h with
  | nil => exact ⟨[], rfl, .nil, .nil⟩
  | @leaf w α i j ts hw _ ih =>
    obtain ⟨es, rfl, hes, htops⟩ := ih hj
    exact ⟨.leaf w i :: es, rfl, .cons (known_leaf hw) rfl hes, .cons (.leaf hw) htops⟩
  | @node p α i k j ts us hp hchildren hrest ih ih' =>
    have hk : k ≤ tokens.length := le_trans hrest.le hj
    obtain ⟨es, hes, htiles, -⟩ := ih hk
    obtain ⟨fs, rfl, hfs, htops⟩ := ih' hj
    have hcomplete : (Edge.finished p htiles.le).isComplete = true := beq_self_eq_true p.rhs.length
    have hknown : Known productions tokens (.finished p htiles.le) :=
      ⟨es, htiles.justified_finished hp hes hk⟩
    exact ⟨.finished p htiles.le :: fs, rfl, .cons hknown hcomplete hfs,
      .cons (.node _ hp hchildren) htops⟩

/-- The known edges are those that the productions allow. -/
theorem known_iff {e : Edge Symbol} :
    Known productions tokens e ↔ Licensed productions tokens e := by
  constructor
  · rintro ⟨es, h⟩
    exact h.licensed
  · intro h
    cases h with
    | leaf hw => exact known_leaf hw
    | empty hp hrhs hi => exact ⟨[], justified_iff.2 (.empty hp hrhs hi)⟩
    -- what is derived has a forest, and its trees end in edges that tile the span
    | dotted hij hp hne hj hderives =>
      obtain ⟨ts, hts⟩ := (derives_word_iff hij hj).1 hderives
      obtain ⟨es, rfl, htiles, -⟩ := hts.exists_tiles hj
      refine ⟨es, justified_iff.2 (.dotted hij hp (fun h => ?_) htiles)⟩
      exact hne (List.map_eq_nil_iff.2 h)

theorem Chart.Filled.mem_edges_iff {c : Chart Symbol}
    (h : c.Filled productions tokens bottomUpStrategy) {e : Edge Symbol} :
    e ∈ c.edges ↔ Known productions tokens e := by
  rw [h.wellFormed.mem_edges_iff]
  exact exists_congr fun es => h.justifies_iff (e, es)

/-- The edges of a filled chart are the leaves over the tokens, the empty
productions at every position, and the other productions with their dot behind
symbols that derive what the edge spans. -/
theorem mem_edges_chartParse_iff (start : Symbol) (productions : List (Production Symbol))
    (tokens : List String) (mode : LoopMode) (width : Nat)
    (hcovered : (Grammar.ofList start productions).checkCoverage tokens = .ok ()) :
    ∃ o, Parser.chartParse ⟨.ofList start productions, ⟨bottomUpStrategy, mode, width⟩⟩ tokens =
        .ok o ∧
      ∀ e, e ∈ o.chart.edges ↔ Licensed productions tokens e := by
  obtain ⟨o, hrun, hfilled, -⟩ :=
    Parser.chartParseWith_spec
      (p := ⟨.ofList start productions, ⟨bottomUpStrategy, mode, width⟩⟩)
      (Grammar.indexed_ofList start productions) hcovered .idle ()
  rw [Grammar.productions_ofList] at hfilled
  exact ⟨o, hrun, fun e => hfilled.mem_edges_iff.trans known_iff⟩

/-- `S → S S`, `S → a` and `S →`: symbols may derive nothing, and derivations run in circles. -/
def doubling : List (Production Symbol) :=
  [⟨.nonterminal "S", [.nonterminal "S", .nonterminal "S"]⟩,
    ⟨.nonterminal "S", [.terminal "a"]⟩, ⟨.nonterminal "S", []⟩]

theorem mem_edges_chartParse_iff_doubling :
    (Grammar.ofList (.nonterminal "S") doubling).checkCoverage ["a", "a"] = .ok () ∧
      ∃ o, Parser.chartParse ⟨.ofList (.nonterminal "S") doubling,
          ⟨bottomUpStrategy, .fullPass, 50⟩⟩ ["a", "a"] = .ok o ∧
        ∀ e, e ∈ o.chart.edges ↔ Licensed doubling ["a", "a"] e :=
  ⟨rfl, mem_edges_chartParse_iff (.nonterminal "S") doubling ["a", "a"] .fullPass 50 rfl⟩

end ChartParsing
