/-
ChartParsing/Rule/Apply.lean

What the inference rules derive.

Each rule reads the chart and the grammar, inserts what follows, and reports
the edges whose insertion changed the chart: new ones, and known ones that
gained a child pointer list.  An edge appears once for each insertion that
changed something.

The leaf, empty and predicting rules know all their insertions beforehand.
The fundamental rule pairs its edge with partners under a cursor, and so also
meets those partners that it derives itself; this can only happen at an edge
that spans nothing.
-/
import ChartParsing.Chart.Capacity
import ChartParsing.Grammar
import ChartParsing.Rule.Sweep

namespace ChartParsing

variable {L : Type} [DecidableEq L] [Label L]

namespace Chart

/-- A leaf for each token. -/
def leafOffers (c : Chart L) : List (Edge L × List Pointers) :=
  c.leafEdges.map fun e => (e, [[]])

/-- An edge for each empty production at each position. -/
def emptyOffers (c : Chart L) (g : Grammar L) : List (Edge L × List Pointers) :=
  g.index.empties.flatMap fun p =>
    (List.range (c.tokens.length + 1)).map fun i => (Edge.ofProduction p i, [[]])

/-- What a production's first symbol allows when it is matched by the complete edge `e`. -/
def predictions (g : Grammar L) (id : EdgeId) (e : Edge L) :
    Except EdgeFault (List (Edge L × List Pointers)) :=
  let advances := (g.index.withFirst (Label.key e.lhs)).filterMap fun p =>
    Label.advance p.lhs p.rhs 0 e.lhs
  advances.mapM fun a => do
    let new ← Edge.make e.start e.stop a.lhs a.rhs 1
    .ok (new, [[id]])

/-- Moves the dot of the edge `left` over the edge `right`, if its label fits. -/
def combine (c : Chart L) (left right : EdgeId) : Except ChartError (Chart L × List EdgeId) := do
  let l ← c.edge left
  let r ← c.edge right
  match Label.advance l.lhs l.rhs l.dot r.lhs with
  | none => .ok (c, [])
  | some a => do
    let new ← (l.moveDot r.stop a).mapError .impossibleEdge
    let (c, changed) ← c.insertAfter new left right
    .ok (c, changed.toList)

/-- The edges that a partner of `e` can be, by the symbol after its dot: the
complete edges that start where it ends, or, if it is complete itself, the
edges that end where it starts and wait for its key. -/
def partnerConstraints (e : Edge L) : List Constraint :=
  match e.next? with
  | some next => [.start e.stop, .isComplete true, .lhs (Label.key next)]
  | none => [.stop e.start, .isComplete false, .nextSymbol (Label.key e.lhs)]

/-- Pairs the edge of that id with a partner, in the order left and right. -/
def combineWith (e : Edge L) (id : EdgeId) (c : Chart L) (partner : EdgeId) :
    Except ChartError (Chart L × List EdgeId) :=
  if e.isComplete then c.combine partner id else c.combine id partner

/-- Pairs an edge with all its partners. -/
def combineAll (c : Chart L) (id : EdgeId) : Except ChartError (Sweep L) := do
  let e ← c.edge id
  let (c, cursor) ← c.select (partnerConstraints e)
  let partners := (c.remaining cursor).filterMap c.edge?
  Sweep.run (combineWith e id) (Edge.capacityBits (e :: partners) + 1) c cursor

/-- The edges that everything in the chart, and everything the rules can add
to it, is put together from. -/
def seeds (c : Chart L) (g : Grammar L) : List (Edge L) :=
  c.edges ++ c.leafEdges ++ g.productions.map fun p => Edge.ofProduction p c.tokens.length

end Chart

namespace Rule

/-- Applies the rule once: to nothing for an axiom, to an edge otherwise. -/
def apply (g : Grammar L) (rule : Rule) (id? : Option EdgeId) (c : Chart L) :
    Except ChartError (Chart L × List EdgeId) :=
  match rule, id? with
  | leafInit, none => c.insertAll c.leafOffers
  | emptyPredict, none => c.insertAll (c.emptyOffers g)
  | predictCombine, some id => do
    let e ← c.edge id
    if e.isComplete then
      let offers ← (Chart.predictions g id e).mapError .impossibleEdge
      c.insertAll offers
    else .ok (c, [])
  | fundamental, some id => do
    let done ← c.combineAll id
    .ok (done.chart, done.changed.toList)
  | rule, id? => .error (.ruleArity rule id?.toList.length)

/-- Applies the rule to every edge of the chart in turn, those included that it adds on the way. -/
def applyToAll (g : Grammar L) (rule : Rule) (c : Chart L) : Except ChartError (Sweep L) :=
  Sweep.run (fun c id => rule.apply g (some id) c) (Edge.capacityBits (c.seeds g) + 1) c ⟨.all, 0⟩

/-- Applies the rule wherever it can be: an axiom once, another rule to every edge. -/
def applyEverywhere (g : Grammar L) (rule : Rule) (c : Chart L) :
    Except ChartError (Chart L × List EdgeId) :=
  if rule.arity = 0 then rule.apply g none c
  else do
    let done ← rule.applyToAll g c
    .ok (done.chart, done.changed.toList)

end Rule

end ChartParsing
