/-
ChartParsing/Proofs/Relabel/Label.lean

Labels that can be exchanged for others.

A chart only asks its labels what is in `Label`.  A map of labels that keeps
all the answers (`Relabelling`) carries edges and productions over, and nothing
that is found out about them changes: not their values, by which edges are
searched for, nor what productions are looked up for a key, nor which tokens
they cover.
-/
import ChartParsing.Grammar
import ChartParsing.Proofs.Chart.Capacity
import ChartParsing.Proofs.Grammar.Lookup
import ChartParsing.Proofs.Relabel.Steps

namespace ChartParsing

variable {L L' : Type}

/-! ### Carrying over -/

/-- The same answer with other labels. -/
def Advance.relabel (f : L → L') (a : Advance L) : Advance L' := ⟨f a.lhs, a.rhs.map f⟩

/-- The same production with other labels. -/
def Production.relabel (f : L → L') (p : Production L) : Production L' := ⟨f p.lhs, p.rhs.map f⟩

/-- The same edge with other labels. -/
def Edge.relabel (f : L → L') (e : Edge L) : Edge L' :=
  ⟨e.start, e.stop, f e.lhs, e.rhs.map f, e.dot, e.start_le_stop, by
    rw [List.length_map]
    exact e.dot_le_length⟩

/-- Exchanging labels makes no difference to what a chart asks of them. -/
structure Relabelling [Label L] [Label L'] (f : L → L') : Prop where
  injective : Function.Injective f
  key : ∀ l, Label.key (f l) = Label.key l
  terminal : ∀ t, f (Label.terminal t) = Label.terminal t
  advance : ∀ lhs rhs dot found, Label.advance (f lhs) (rhs.map f) dot (f found) =
    (Label.advance lhs rhs dot found).map (Advance.relabel f)
  acceptsRoot : ∀ root found, Label.acceptsRoot (f root) (f found) = Label.acceptsRoot root found
  varietyBits : ∀ ls, Label.varietyBits (ls.map f) = Label.varietyBits ls

/-! ### Edges -/

namespace Edge

variable (f : L → L') (e : Edge L)

@[simp] theorem next?_relabel : (e.relabel f).next? = e.next?.map f :=
  List.getElem?_map

@[simp] theorem isComplete_relabel : (e.relabel f).isComplete = e.isComplete := by
  show (e.dot == (e.rhs.map f).length) = (e.dot == e.rhs.length)
  rw [List.length_map]

@[simp] theorem isIncomplete_relabel : (e.relabel f).isIncomplete = e.isIncomplete := by
  rw [isIncomplete, isIncomplete, isComplete_relabel]

@[simp] theorem isLeaf_relabel : (e.relabel f).isLeaf = e.isLeaf := by
  show ((e.rhs.map f).isEmpty && e.length == 1) = (e.rhs.isEmpty && e.length == 1)
  rw [List.isEmpty_map]

theorem unmatched_relabel : (e.relabel f).unmatched = e.unmatched.map f :=
  List.map_drop.symm

theorem longestRhs_relabel (edges : List (Edge L)) :
    longestRhs (edges.map (relabel f)) = longestRhs edges := by
  rw [longestRhs, longestRhs, List.foldl_map]
  simp only [relabel, List.length_map]

theorem make_relabel (start stop : Nat) (lhs : L) (rhs : List L) (dot : Nat) :
    make start stop (f lhs) (rhs.map f) dot = (make start stop lhs rhs dot).map (relabel f) := by
  rw [make, make]
  by_cases hspan : start ≤ stop
  · rw [dif_pos hspan, dif_pos hspan]
    by_cases hdot : dot ≤ rhs.length
    · rw [dif_pos hdot, dif_pos (by rwa [List.length_map])]
      rfl
    · rw [dif_neg hdot, dif_neg (by rwa [List.length_map]), List.length_map]
      rfl
  · rw [dif_neg hspan, dif_neg hspan]
    rfl

theorem moveDot_relabel (stop : Nat) (a : Advance L) :
    (e.relabel f).moveDot stop (a.relabel f) = (e.moveDot stop a).map (relabel f) :=
  make_relabel f e.start stop a.lhs a.rhs (e.dot + 1)

end Edge

namespace Relabelling

variable [Label L] [Label L'] {f : L → L'} (hf : Relabelling f)

include hf

theorem edge_injective : Function.Injective (Edge.relabel f) := by
  intro e e' h
  have hparts := Edge.mk.inj h
  exact Edge.ext_parts hparts.1 hparts.2.1 (hf.injective hparts.2.2.1)
    (List.map_injective_iff.2 hf.injective hparts.2.2.2.1) hparts.2.2.2.2

theorem map_key (ls : List L) : (ls.map f).map Label.key = ls.map Label.key := by
  rw [List.map_map]
  exact List.map_congr_left fun l _ => hf.key l

theorem token? (l : L) : Label.token? (f l) = Label.token? l := by
  rw [Label.token?, Label.token?, hf.key]

theorem leaf (t : String) (i : Nat) : Edge.leaf t i = (Edge.leaf t i : Edge L).relabel f :=
  Edge.ext_parts rfl rfl (hf.terminal t).symm rfl rfl

/-- Edges are searched for by the same values. -/
theorem valueOf (e : Edge L) : (e.relabel f).valueOf = e.valueOf := by
  funext a
  cases a with
  | lhs => exact congrArg AttributeValue.key (hf.key e.lhs)
  | rhs => exact congrArg AttributeValue.keys (hf.map_key e.rhs)
  | nextSymbol =>
    rw [Edge.valueOf, Edge.valueOf, Edge.next?_relabel]
    cases e.next? with
    | none => rfl
    | some l => exact congrArg AttributeValue.key (hf.key l)
  | isComplete => exact congrArg AttributeValue.flag (e.isComplete_relabel f)
  | isIncomplete => exact congrArg AttributeValue.flag (e.isIncomplete_relabel f)
  | start => rfl
  | stop => rfl
  | length => rfl
  | span => rfl
  | dot => rfl

theorem holds (k : Constraint) (e : Edge L) : k.holds (e.relabel f) = k.holds e := by
  rw [Constraint.holds, Constraint.holds, hf.valueOf]

/-! ### How many edges there can be -/

theorem capacityBits (edges : List (Edge L)) :
    Edge.capacityBits (edges.map (Edge.relabel f)) = Edge.capacityBits edges := by
  have hlabels : (edges.map (Edge.relabel f)).flatMap Edge.labels =
      (edges.flatMap Edge.labels).map f := by
    rw [List.flatMap_map, List.map_flatMap]
    rfl
  have hstop : Edge.lastStop (edges.map (Edge.relabel f)) = Edge.lastStop edges := by
    rw [Edge.lastStop, Edge.lastStop, List.foldl_map]
    rfl
  have hbits : Edge.labelBits (edges.map (Edge.relabel f)) = Edge.labelBits edges := by
    simp only [Edge.labelBits, hlabels, List.length_map, hf.varietyBits]
  simp only [Edge.capacityBits, hbits, Edge.longestRhs_relabel, hstop]

theorem pointerBits (edges : List (Edge L)) :
    Edge.pointerBits (edges.map (Edge.relabel f)) = Edge.pointerBits edges := by
  simp only [Edge.pointerBits, hf.capacityBits, Edge.longestRhs_relabel]

end Relabelling

/-! ### Productions -/

section Productions

variable [Label L] [Label L'] {f : L → L'} (hf : Relabelling f)
  (productions : List (Production L))

/-- The same grammar with other labels. -/
def Grammar.relabel (f : L → L') (g : Grammar L) : Grammar L' :=
  .ofList (f g.start) (g.productions.map (Production.relabel f))

omit [Label L] in
@[simp] theorem Grammar.productions_relabel (g : Grammar L) :
    (g.relabel f).productions = g.productions.map (Production.relabel f) :=
  productions_ofList ..

theorem Grammar.relabel_ofList (start : L) :
    (ofList start productions).relabel f =
      .ofList (f start) (productions.map (Production.relabel f)) := by
  rw [relabel, productions_ofList]
  rfl

include hf

theorem ProductionIndex.withFirst_relabel (key : Symbol) :
    (ofList (productions.map (Production.relabel f))).withFirst key =
      ((ofList productions).withFirst key).map (Production.relabel f) := by
  rw [withFirst_ofList, withFirst_ofList, List.filter_map]
  refine congrArg (List.map (Production.relabel f)) (List.filter_congr fun p _ => ?_)
  show (((p.rhs.map f).head?.map Label.key) == some key) = (p.rhs.head?.map Label.key == some key)
  rw [List.head?_map, Option.map_map]
  exact congrArg (fun k => Option.map k p.rhs.head? == some key) (funext hf.key)

omit hf in
theorem ProductionIndex.empties_relabel :
    (ofList (productions.map (Production.relabel f))).empties =
      (ofList productions).empties.map (Production.relabel f) := by
  rw [empties_ofList, empties_ofList, List.filter_map]
  refine congrArg (List.map (Production.relabel f)) (List.filter_congr fun p _ => ?_)
  exact List.isEmpty_map

theorem ProductionIndex.covers_relabel (token : String) :
    (ofList (productions.map (Production.relabel f))).covers token =
      (ofList productions).covers token := by
  rw [Bool.eq_iff_iff, covers_ofList_iff, covers_ofList_iff]
  simp only [List.mem_map, exists_exists_and_eq_and, Production.relabel, hf.token?]

variable {g : Grammar L}

/-- The same tokens are covered. -/
theorem Grammar.checkCoverage_relabel (hg : g.Indexed) (tokens : List String) :
    (g.relabel f).checkCoverage tokens = g.checkCoverage tokens := by
  have hcovers : (g.relabel f).index.covers = g.index.covers := by
    funext t
    rw [hg]
    exact ProductionIndex.covers_relabel hf g.productions t
  rw [checkCoverage, checkCoverage, hcovers]

end Productions

end ChartParsing
