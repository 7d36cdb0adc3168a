/-
ChartParsing/Proofs/Tree/Yield.lean

What the trees of an edge look like.

The list that a tree goes down by names tiles of the span (`Stepped.tiles`), so
from tree to tree the leaves are the tokens between the two ends of the edge
(`Moment.leaves_of_mem`).  Under the root there is one child for each symbol of
the right-hand side: a tree of a complete edge that fits there, for those that
the dot has passed, and a childless node for each of the others (`Chart.Shows`).
-/
import ChartParsing.Proofs.Label.Settled
import ChartParsing.Proofs.Parser.Run
import ChartParsing.Proofs.Stretch

namespace ChartParsing

variable {L : Type}

/-- Two relations between lists, one after the other. -/
theorem forall₂_comp {α β γ : Type} {R : α → β → Prop} {S : β → γ → Prop} {as : List α}
    {bs : List β} {cs : List γ} (h : List.Forall₂ R as bs) (h' : List.Forall₂ S bs cs) :
    List.Forall₂ (fun a c => ∃ b, R a b ∧ S b c) as cs := by
  induction h generalizing cs with
  | nil =>
    cases h'
    exact .nil
  | cons hab _ ih =>
    cases h' with
    | cons hbc hrest => exact .cons ⟨_, hab, hbc⟩ (ih hrest)

/-! ### Leaves -/

namespace Tree

theorem leavesOf_append (ts us : List (Tree L)) :
    leavesOf (ts ++ us) = leavesOf ts ++ leavesOf us := by
  induction ts with
  | nil => rfl
  | cons t ts ih => simp [leavesOf, ih]

/-- Symbols that are still to be matched have no leaves. -/
theorem leavesOf_childless (ls : List L) : leavesOf (ls.map fun l => node l []) = [] := by
  induction ls with
  | nil => rfl
  | cons l ls ih => simp [leavesOf, leaves, ih]

end Tree

/-- The trees of tiles have the tokens for their leaves that the tiles cover. -/
theorem Tiles.leavesOf_eq {K : Edge L → Prop} {tokens : List String} {es : List (Edge L)}
    {ts : List (Tree L)} {i j : Nat} (h : Tiles K es i j)
    (hts : List.Forall₂ (fun t e => t.leaves.map .terminal = word tokens e.start e.stop) ts es) :
    (Tree.leavesOf ts).map .terminal = word tokens i j := by
  induction h generalizing ts with
  | nil =>
    cases hts
    simp [Tree.leavesOf, word_self]
  | @cons b es j _ _ hrest ih =>
    cases hts with
    | cons ht hts =>
      rw [Tree.leavesOf, List.map_append, ht, ih hts, word_append b.start_le_stop hrest.le]

variable [Label L]

/-- But for a leaf, the edges of a derivation step tile the span. -/
theorem Stepped.tiles {productions : List (Production L)} {tokens : List String}
    {K : Edge L → Prop} {e : Edge L} {es : List (Edge L)}
    (h : Stepped productions tokens K (e, es)) (hleaf : e.isLeaf = false) :
    Tiles K es e.start e.stop := by
  cases h with
  | leaf => simp [Edge.isLeaf, Edge.leaf, Edge.length] at hleaf
  | empty => exact .nil
  | steps _ _ _ htiles => exact htiles

namespace Chart

/-! ### What a tree shows -/

/-- `t` is a tree of a complete edge that fits the place `k` of the edge `e`;
to put the label of that edge there once more changes nothing in `e`. -/
def Fills (c : Chart L) (complete : Bool) (e : Edge L) (k : Nat) (t : Tree L) : Prop :=
  ∃ child b next ts, c.edges[child]? = some b ∧ b.isComplete = true ∧
    c.trees child complete = .ok ts ∧ t ∈ ts ∧ e.rhs[k]? = some next ∧
    Label.key next = Label.key b.lhs ∧
    Label.advance e.lhs e.rhs k b.lhs = some ⟨e.lhs, e.rhs⟩

/-- `t` spells the span of the edge `e`, and unless `e` is a leaf it has a
child for each symbol of the right-hand side: those before the dot are filled,
and those after it are left open. -/
structure Shows (c : Chart L) (tokens : List String) (complete : Bool) (e : Edge L)
    (t : Tree L) : Prop where
  stop_le : e.stop ≤ tokens.length
  leaves : t.leaves = (tokens.drop e.start).take (e.stop - e.start)
  label : e.isLeaf = false → t = .node e.lhs t.children
  length : e.isLeaf = false → t.children.length = e.rhs.length
  matched : e.isLeaf = false → ∀ k < e.dot, ∃ t', t.children[k]? = some t' ∧
    c.Fills complete e k t'
  unmatched : e.isLeaf = false → t.children.drop e.dot = e.unmatched.map fun l => .node l []

/-- Each edge can be read, and all its trees show it. -/
def ShowsEdges (c : Chart L) (tokens : List String) : Prop :=
  ∀ id e complete, c.edges[id]? = some e →
    ∃ ts, c.trees id complete = .ok ts ∧ ∀ t ∈ ts, c.Shows tokens complete e t

/-! ### Going down a list -/

variable [DecidableEq L] [LawfulLabel L] {g : Grammar L} {tokens : List String} {c : Chart L}
  {complete : Bool} {path : Finset EdgeId} {id : EdgeId} {e : Edge L} {t : Tree L}

omit [DecidableEq L] [LawfulLabel L] in
/-- A tree of an edge that is opened goes down by one of its lists. -/
theorem Opens.exists_children (h : c.Opens complete id e)
    (ht : t ∈ c.treesAvoiding complete path id) :
    ∃ p ∈ c.pointers id, ∃ ts, t = .node e.lhs (ts ++ e.unmatched.map fun l => .node l []) ∧
      List.Forall₂ (fun t child => t ∈ c.treesAvoiding complete (path ∪ {id}) child) ts p := by
  by_cases hpath : id ∈ path
  · rw [treesAvoiding, enumerate_of_mem hpath] at ht
    cases ht
  · rw [treesAvoiding, enumerate_of_opens hpath h] at ht
    obtain ⟨p, hp, ht⟩ := List.mem_flatMap.1 ht
    obtain ⟨ts, hts, rfl⟩ := List.mem_map.1 ht
    exact ⟨p, hp, ts, rfl, List.forall₂_map_right_iff.1 (mem_combinations.1 hts)⟩

namespace Moment

/-- A tree of an edge that is opened, together with the edges of the list that it goes down by. -/
theorem exists_matched (hg : g.Indexed) (hc : Moment g tokens c) (h : c.Opens complete id e)
    (ht : t ∈ c.treesAvoiding complete path id) :
    ∃ ts es, t = .node e.lhs (ts ++ e.unmatched.map fun l => .node l []) ∧
      Stepped g.productions tokens (· ∈ c.edges) (e, es) ∧
      List.Forall₂ (fun t b => ∃ child, t ∈ c.treesAvoiding complete (path ∪ {id}) child ∧
        c.edges[child]? = some b) ts es := by
  obtain ⟨p, hp, ts, rfl, hts⟩ := h.exists_children ht
  obtain ⟨es, hes, hstepped⟩ := hc.stepped hg h.edge hp
  have hedges : List.Forall₂ (fun child b => c.edges[child]? = some b) p es := by
    rw [← List.forall₂_eq_eq_eq, List.forall₂_map_left_iff, List.forall₂_map_right_iff] at hes
    exact hes
  exact ⟨ts, es, rfl, hstepped, forall₂_comp hts hedges⟩

/-- From left to right, the leaves are the tokens between the two ends of the edge. -/
theorem leaves_of_mem (hg : g.Indexed) (hc : Moment g tokens c) (he : c.edges[id]? = some e)
    (ht : t ∈ c.treesAvoiding complete path id) :
    t.leaves.map .terminal = word tokens e.start e.stop := by
  induction path, id using c.path_induction complete generalizing e t with
  | onPath path id hpath =>
    rw [treesAvoiding, enumerate_of_mem hpath] at ht
    cases ht
  | missing path id hedge =>
    rw [hedge] at he
    cases he
  | skipped path id e' hedge hskip =>
    rw [treesAvoiding, enumerate_of_skip hedge hskip] at ht
    cases ht
  | leaf path id e' hpath hedge hleaf =>
    obtain rfl : e' = e := Option.some.inj (hedge.symm.trans he)
    rw [treesAvoiding, enumerate_of_leaf hpath hedge hleaf, Option.mem_toList,
      hc.tokens_eq hg] at ht
    obtain ⟨token, htoken, rfl⟩ := Option.map_eq_some_iff.1 ht
    -- the shape of a leaf is that of a leaf over a token
    obtain ⟨i, w, -, rfl⟩ := hc.exists_eq_leaf hg (List.mem_of_getElem? he) hleaf
    exact (word_succ htoken).symm
  | opened path id e' hpath hopens ih =>
    obtain rfl : e' = e := Option.some.inj (hopens.edge.symm.trans he)
    obtain ⟨ts, es, rfl, hstepped, hts⟩ := hc.exists_matched hg hopens ht
    have hleaves : (Tree.node e'.lhs (ts ++ e'.unmatched.map fun l => .node l [])).leaves =
        Tree.leavesOf ts := by
      rw [Tree.leaves, Tree.leavesOf_append, Tree.leavesOf_childless, List.append_nil]
    rw [hleaves]
    apply (hstepped.tiles hopens.isLeaf).leavesOf_eq
    refine hts.imp ?_
    rintro t b ⟨child, ht, hb⟩
    exact ih child hb ht

/-- Each child before the dot fills its place. -/
theorem fills [SettledLabel L] (hg : g.Indexed) (hc : Moment g tokens c) {ts : List (Tree L)}
    {es : List (Edge L)} (hleaf : e.isLeaf = false)
    (hstepped : Stepped g.productions tokens (· ∈ c.edges) (e, es))
    (hts : List.Forall₂ (fun t b => ∃ child, t ∈ c.treesAvoiding complete path child ∧
      c.edges[child]? = some b) ts es) :
    ts.length = e.dot ∧ ∀ k < e.dot, ∃ t, ts[k]? = some t ∧ c.Fills complete e k t := by
  cases hstepped with
  | leaf => simp [Edge.isLeaf, Edge.leaf, Edge.length] at hleaf
  | empty =>
    cases hts
    exact ⟨rfl, fun k hk => absurd hk (Nat.not_lt_zero k)⟩
  | @steps p _ _ _ _ hdot htiles ha =>
    obtain ⟨hlength, hget⟩ := List.forall₂_iff_get.1 hts
    refine ⟨hlength.trans hdot, fun k hk => ?_⟩
    have hes : k < es.length := hdot ▸ hk
    have hk' : k < ts.length := hlength ▸ hes
    obtain ⟨child, ht, hb⟩ := hget k hk' hes
    have hfound : (es.map Edge.lhs)[k]? = some es[k].lhs := by
      rw [List.getElem?_map, List.getElem?_eq_getElem hes, Option.map_some]
    have hagain : Label.advance e.lhs e.rhs k es[k].lhs = some ⟨e.lhs, e.rhs⟩ :=
      SettledLabel.advance_again ha hfound
    obtain ⟨next, hnext, hkey⟩ := LawfulLabel.advance_next hagain
    exact ⟨ts[k], List.getElem?_eq_getElem hk', child, es[k], next, _, hb,
      htiles.isComplete _ (List.getElem_mem hes), hc.trees_eq hg (lt_size hb) complete,
      treesAvoiding_subset path child ht, hnext, hkey, hagain⟩

/-- Every tree of an edge shows it. -/
theorem shows [SettledLabel L] (hg : g.Indexed) (hc : Moment g tokens c)
    (he : c.edges[id]? = some e) (ht : t ∈ c.treesAvoiding complete ∅ id) :
    c.Shows tokens complete e t := by
  have hstop : e.stop ≤ tokens.length := by
    obtain ⟨es, hes⟩ := (hc.wellFormed hg).mem_edges_iff.1 (List.mem_of_getElem? he)
    exact hc.of_closedUnder hg (fun _ => closedUnder_stop_le) hes
  have hleaves : t.leaves = (tokens.drop e.start).take (e.stop - e.start) :=
    List.map_injective_iff.2 (fun _ _ => Symbol.terminal.inj) (hc.leaves_of_mem hg he ht)
  rcases opens_or complete he with hopens | hleaf | hskip
  · obtain ⟨ts, es, rfl, hstepped, hts⟩ := hc.exists_matched hg hopens ht
    obtain ⟨hlength, hfills⟩ := hc.fills hg hopens.isLeaf hstepped hts
    have hdot := e.dot_le_length
    refine ⟨hstop, hleaves, fun _ => rfl, fun _ => ?_, fun _ k hk => ?_, fun _ => ?_⟩
    · show (ts ++ _).length = _
      rw [List.length_append, hlength, List.length_map, Edge.unmatched, List.length_drop]
      omega
    · obtain ⟨t, htk, hfill⟩ := hfills k hk
      refine ⟨t, ?_, hfill⟩
      show (ts ++ _)[k]? = _
      rw [List.getElem?_append_left (hlength ▸ hk), htk]
    · show (ts ++ _).drop e.dot = _
      rw [← hlength, List.drop_left]
  · have hnot : e.isLeaf ≠ false := by simp [hleaf]
    exact ⟨hstop, hleaves, fun h => absurd h hnot, fun h => absurd h hnot,
      fun h => absurd h hnot, fun h => absurd h hnot⟩
  · rw [treesAvoiding, enumerate_of_skip he hskip] at ht
    cases ht

theorem showsEdges [SettledLabel L] (hg : g.Indexed) (hc : Moment g tokens c) :
    c.ShowsEdges tokens := fun _ _ complete he =>
  ⟨_, hc.trees_eq hg (lt_size he) complete, fun _ ht => hc.shows hg he ht⟩

end Moment

/-- Whatever rules are applied to an empty chart, and in whatever order, the
trees of an edge spell its span and show its labels and its dot.  In particular
this is so in every chart that a parse returns. -/
theorem run_showsEdges [SettledLabel L] (start : L) (productions : List (Production L))
    (tokens : List String) :
    (∀ applications,
      ((new tokens).run (.ofList start productions) applications).ShowsEdges tokens) ∧
      ∀ config o, Parser.chartParse ⟨.ofList start productions, config⟩ tokens = .ok o →
        o.chart.ShowsEdges tokens := by
  have hg := Grammar.indexed_ofList start productions
  constructor
  · intro applications
    exact (Moment.new.run hg applications).showsEdges hg
  · intro config o ho
    exact ((Parser.isRun_chartParseWith ho).moment hg).showsEdges hg

/-- Under `[0:1] S → N • V`, what stands for the verb has no child yet; and
`S → S S` may begin and end with an edge that spans nothing. -/
theorem run_showsEdges_agreeing_and_doubling :
    (let c := (new ["dogs", "slept"]).run (.ofList (.category (.bare "S")) agreeing)
        [.everywhere .leafInit, .everywhere .predictCombine]
      ∃ e ts, c.edges[4]? = some e ∧ e.isIncomplete = true ∧ c.trees 4 false = .ok ts ∧
        ts.map Tree.leaves = [["dogs"]] ∧ ∀ t ∈ ts, c.Shows ["dogs", "slept"] false e t) ∧
      ∃ o, Parser.chartParse ⟨.ofList (.nonterminal "S") doubling,
          ⟨bottomUpStrategy, .agenda, 50⟩⟩ ["a"] = .ok o ∧ o.chart.ShowsEdges ["a"] := by
  constructor
  · intro c
    obtain ⟨e, he⟩ := lt_size_iff.1 (show 4 < c.size by decide +kernel)
    obtain ⟨ts, hts, hshows⟩ := (run_showsEdges _ agreeing _).1 _ 4 e false he
    have hincomplete : (c.edges[4]?.map Edge.isIncomplete) = some true := by decide +kernel
    have hleaves : (c.trees 4 false).toOption.map (fun ts => ts.map Tree.leaves) =
        some [["dogs"]] := by decide +kernel
    rw [he] at hincomplete
    rw [hts] at hleaves
    exact ⟨e, ts, he, Option.some.inj hincomplete, hts, Option.some.inj hleaves, hshows⟩
  · obtain ⟨o, ho, -⟩ := Parser.chartParseWith_spec
      (p := ⟨.ofList (.nonterminal "S") doubling, ⟨bottomUpStrategy, .agenda, 50⟩⟩)
      (Grammar.indexed_ofList _ _) (show Grammar.checkCoverage _ ["a"] = .ok () from rfl) .idle ()
    exact ⟨o, ho, (run_showsEdges _ doubling _).2 _ o ho⟩

end Chart

end ChartParsing
