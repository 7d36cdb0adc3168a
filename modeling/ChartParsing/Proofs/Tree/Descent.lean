/-
ChartParsing/Proofs/Tree/Descent.lean

The visits that reading trees off a chart is made of.

Visiting an edge may mean visits to its children, and so on down a graph that
may have circles.  A visit is known by the edges above it whose children are
being visited, its path, and `c.Descends complete` leads from a visit to those
that it makes itself: for each child on each list, after the lists and the
children before that one.  A visit runs out of depth exactly if one of the
visits that it leads to has none left (`visit_eq_none_iff`).

Every visit finds the edges of its path marked with their places on it
(`Marked.descends`).  So no path has an edge twice, which bounds its length by the
size of the chart; and a visit that comes to an answer leaves these marks as it
found them (`Chart.Built.visits_end`).
-/
import ChartParsing.Proofs.Tree.Extraction

namespace ChartParsing

/-! ### Steps that may run out of depth -/

section Steps

variable {ε α β : Type} {m : ExceptT ε Option α} {f : α → ExceptT ε Option β}

theorem run_bind_eq_none_iff :
    (m >>= f).run = none ↔ m.run = none ∨ ∃ a, m.run = some (.ok a) ∧ (f a).run = none := by
  rw [ExceptT.run_bind]
  cases hm : m.run with
  | none => simp
  | some r =>
    cases r with
    | error e => simp
    | ok a => simp

theorem run_bind_eq_some_iff {r : Except ε β} :
    (m >>= f).run = some r ↔
      (∃ a, m.run = some (.ok a) ∧ (f a).run = some r) ∨
        ∃ e, m.run = some (.error e) ∧ .error e = r := by
  rw [ExceptT.run_bind]
  cases hm : m.run with
  | none => simp
  | some r =>
    cases r with
    | error e => simp
    | ok a => simp

/-- `go` takes one step for each item on a list, from left to right, hands on
from step to step what has been visited, and adds up what the steps give. -/
structure Traverses {κ σ : Type} (step : κ → σ → ExceptT ε Option α)
    (go : List κ → σ → ExceptT ε Option β) (start : σ → β) (add : α → β → β)
    (next : α → σ) (last : β → σ) : Prop where
  nil : ∀ s, go [] s = pure (start s)
  cons : ∀ x xs s, go (x :: xs) s = step x s >>= fun a =>
    go xs (next a) >>= fun b => pure (add a b)
  last_start : ∀ s, last (start s) = s
  last_add : ∀ a b, last (add a b) = last b

/-- One way to take steps has all answers that another one has. -/
def KeepsAnswers {κ σ : Type} (step step' : κ → σ → ExceptT ε Option α) : Prop :=
  ∀ x s r, (step x s).run = some r → (step' x s).run = some r

namespace Traverses

variable {κ σ : Type} {step step' : κ → σ → ExceptT ε Option α}
  {go go' : List κ → σ → ExceptT ε Option β} {start : σ → β} {add : α → β → β} {next : α → σ}
  {last : β → σ}

/-- If the steps keep their answers, so does going through a list. -/
theorem keepsAnswers (h : Traverses step go start add next last)
    (h' : Traverses step' go' start add next last) (hstep : KeepsAnswers step step') :
    KeepsAnswers go go' := by
  intro xs
  induction xs with
  | nil =>
    intro s r hr
    rwa [h.nil, ← h'.nil] at hr
  | cons x xs ih =>
    intro s r hr
    rw [h.cons, run_bind_eq_some_iff] at hr
    rw [h'.cons, run_bind_eq_some_iff]
    refine hr.imp ?_ fun ⟨e, he, heq⟩ => ⟨e, hstep _ _ _ he, heq⟩
    rintro ⟨a, ha, hr⟩
    refine ⟨a, hstep _ _ _ ha, ?_⟩
    rw [run_bind_eq_some_iff] at hr ⊢
    exact hr.imp (fun ⟨b, hb, hr⟩ => ⟨b, ih _ _ hb, hr⟩)
      (fun ⟨e, he, heq⟩ => ⟨e, ih _ _ he, heq⟩)

/-- The steps run out of depth at one item, after those before it. -/
theorem eq_none_iff (h : Traverses step go start add next last) {xs : List κ} {s : σ} :
    (go xs s).run = none ↔ ∃ before x after b, xs = before ++ x :: after ∧
      (go before s).run = some (.ok b) ∧ (step x (last b)).run = none := by
  induction xs generalizing s with
  | nil =>
    rw [h.nil]
    refine iff_of_false (fun h => nomatch h) ?_
    rintro ⟨before, x, after, b, hxs, -⟩
    cases before <;> cases hxs
  | cons x xs ih =>
    rw [h.cons, run_bind_eq_none_iff]
    constructor
    · rintro (hx | ⟨a, ha, hrest⟩)
      · refine ⟨[], x, xs, start s, rfl, ?_, ?_⟩
        · rw [h.nil]
          rfl
        · rwa [h.last_start]
      · obtain hrest | ⟨b, -, hb⟩ := run_bind_eq_none_iff.1 hrest
        · obtain ⟨before, y, after, b, rfl, hbefore, hy⟩ := ih.1 hrest
          refine ⟨x :: before, y, after, add a b, rfl, ?_, by rwa [h.last_add]⟩
          rw [h.cons, run_bind_eq_some_iff]
          exact .inl ⟨a, ha, run_bind_eq_some_iff.2 (.inl ⟨b, hbefore, rfl⟩)⟩
        · cases hb
    · rintro ⟨before, y, after, b, hxs, hbefore, hy⟩
      cases before with
      | nil =>
        obtain ⟨rfl, rfl⟩ := List.cons.inj hxs
        rw [h.nil] at hbefore
        obtain rfl : start s = b := Except.ok.inj (Option.some.inj hbefore)
        rw [h.last_start] at hy
        exact .inl hy
      | cons z before =>
        obtain ⟨rfl, rfl⟩ := List.cons.inj hxs
        rw [h.cons, run_bind_eq_some_iff] at hbefore
        obtain ⟨a, ha, hbefore⟩ | ⟨e, -, he⟩ := hbefore
        · obtain ⟨b', hb', hb⟩ | ⟨e, -, he⟩ := run_bind_eq_some_iff.1 hbefore
          · obtain rfl : add a b' = b := Except.ok.inj (Option.some.inj hb)
            rw [h.last_add] at hy
            exact .inr ⟨a, ha, run_bind_eq_none_iff.2
              (.inl (ih.2 ⟨before, y, after, b', rfl, hb', hy⟩))⟩
          · cases he
        · cases he

end Traverses

end Steps

namespace Reading

/-! ### Children and lists -/

section Traversal

variable {L : Type}

theorem traverses_visitChildren (visit : Visit L) :
    Traverses visit (visitChildren visit) (fun v => ([], none, v))
      (fun a b => (a.1.readings :: b.1, shallowest a.1.blockedAt b.2.1, b.2.2))
      Prod.snd fun b => b.2.2 :=
  ⟨fun _ => rfl, fun _ _ _ => rfl, fun _ => rfl, fun _ _ => rfl⟩

theorem traverses_visitLists (visit : Visit L) (id : EdgeId) (e : Edge L) :
    Traverses (visitChildren visit) (visitLists visit id e) (fun v => ([], none, v))
      (fun a b => ((Odometer.all a.1).filterMap (assemble id e) ++ b.1,
        shallowest a.2.1 b.2.1, b.2.2))
      (fun a => a.2.2) fun b => b.2.2 :=
  ⟨fun _ => rfl, fun _ _ _ => rfl, fun _ => rfl, fun _ _ => rfl⟩

end Traversal

/-! ### More depth -/

variable {L : Type} [Label L] {c : Chart L} {complete : Bool} {id : EdgeId} {e : Edge L}
  {v : Visited L}

/-- How a visit to an edge at that depth ends: what was blocked further up is not kept. -/
def close (id : EdgeId) (depth : Nat) (r : List (Reading L) × Option Nat × Visited L) :
    Findings L × Visited L :=
  match r.2.1.filter fun d => d < depth with
  | some d => (⟨r.1, some d⟩, r.2.2.leave.erase id)
  | none => (⟨r.1, none⟩, r.2.2.leave.set id (.read r.1))

/-- An edge without a mark that is opened is visited by going through its lists. -/
theorem visit_of_opens (hmark : v.get? id = none) (hopens : c.Opens complete id e) (limit : Nat) :
    visit c complete (limit + 1) id v =
      visitLists (visit c complete limit) id e (c.pointers id) (v.enter id) >>=
        fun r => pure (close id v.depth r) := by
  obtain ⟨hedge, hleaf, hkept⟩ := hopens
  obtain ⟨cpls, hentry, hpointers⟩ := Chart.exists_entry_of_edge hedge
  rw [visit, hmark, hentry, hpointers]
  simp only [hkept, hleaf, Bool.false_eq_true, if_false]
  refine congrArg (_ >>= ·) (funext fun r => ?_)
  obtain ⟨readings, blockedAt, v'⟩ := r
  dsimp only [close]
  cases blockedAt.filter fun d => d < v.depth with
  | none => rfl
  | some d => rfl

/-- Any other edge is visited without visiting another one. -/
theorem opens_or_exists_run (c : Chart L) (complete : Bool) (id : EdgeId) (v : Visited L) :
    (v.get? id = none ∧ ∃ e, c.Opens complete id e) ∨
      ∃ r, ∀ limit, (visit c complete (limit + 1) id v).run = some r := by
  cases hmark : v.get? id with
  | some mark =>
    cases mark with
    | read readings => exact .inr ⟨_, fun limit => by rw [visit, hmark]; rfl⟩
    | onPath depth => exact .inr ⟨_, fun limit => by rw [visit, hmark]; rfl⟩
  | none =>
    cases hentry : c.entries[id]? with
    | none => exact .inr ⟨_, fun limit => by rw [visit, hmark, hentry]; rfl⟩
    | some entry =>
      obtain ⟨e, cpls⟩ := entry
      have hedge : c.edges[id]? = some e := by
        rw [Chart.getElem?_edges, hentry]
        rfl
      cases hkept : complete && e.isIncomplete with
      | true =>
        refine .inr ⟨.ok (⟨[], none⟩, v), fun limit => ?_⟩
        rw [visit, hmark, hentry]
        simp only [hkept, if_true]
        rfl
      | false =>
        cases hleaf : e.isLeaf with
        | false => exact .inl ⟨rfl, e, hedge, hleaf, hkept⟩
        | true =>
          cases htoken : c.tokens[e.start]? with
          | none =>
            refine .inr ⟨.error (.edgeNotInChart id), fun limit => ?_⟩
            rw [visit, hmark, hentry]
            simp only [hkept, hleaf, htoken, Bool.false_eq_true, if_false, if_true]
            rfl
          | some token =>
            refine .inr ⟨.ok (⟨[⟨.leaf token, [id]⟩], none⟩,
              v.set id (.read [⟨.leaf token, [id]⟩])), fun limit => ?_⟩
            rw [visit, hmark, hentry]
            simp only [hkept, hleaf, htoken, Bool.false_eq_true, if_false, if_true]
            rfl

/-- A visit that comes to an end comes to the same end if it may go deeper. -/
theorem keepsAnswers_visit {limit limit' : Nat} (hle : limit ≤ limit') :
    KeepsAnswers (visit c complete limit) (visit c complete limit') := by
  induction limit generalizing limit' with
  | zero => exact fun id v r h => nomatch h
  | succ limit ih =>
    obtain ⟨limit', rfl⟩ : ∃ more, limit' = more + 1 := Nat.exists_eq_add_of_le' (by omega)
    intro id v r hr
    rcases opens_or_exists_run c complete id v with ⟨hmark, e, hopens⟩ | ⟨r', hr'⟩
    · have hchildren := (traverses_visitChildren _).keepsAnswers (traverses_visitChildren _)
        (ih (Nat.le_of_succ_le_succ hle))
      have hlists :=
        (traverses_visitLists _ id e).keepsAnswers (traverses_visitLists _ id e) hchildren
      rw [visit_of_opens hmark hopens, run_bind_eq_some_iff] at hr ⊢
      exact hr.imp (fun ⟨a, ha, hr⟩ => ⟨a, hlists _ _ _ ha, hr⟩)
        (fun ⟨e, he, heq⟩ => ⟨e, hlists _ _ _ he, heq⟩)
    · rw [hr'] at hr ⊢
      exact hr

end Reading

/-! ### Visits that are made -/

section Descent

variable {L : Type} [Label L]

/-- A visit: how deep visits may still nest, the edges above whose children are
being visited, the edge, and what has been visited before. -/
structure Visiting (L : Type) where
  limit : Nat
  path : List EdgeId
  id : EdgeId
  visited : Visited L

/-- What the visit comes to. -/
def Visiting.run (c : Chart L) (complete : Bool) (here : Visiting L) :
    Option (Except ChartError (Findings L × Visited L)) :=
  (Reading.visit c complete here.limit here.id here.visited).run

namespace Chart

/-- A visit to an edge that is opened makes a visit to each child on its lists,
with what has been visited after the lists before and the children before. -/
inductive Descends (c : Chart L) (complete : Bool) : Visiting L → Visiting L → Prop
  | child {limit path id v e lists cpl laterLists children child laterChildren afterLists
      afterChildren} :
      v.get? id = none → c.Opens complete id e →
      c.pointers id = lists ++ cpl :: laterLists → cpl = children ++ child :: laterChildren →
      (Reading.visitLists (Reading.visit c complete limit) id e lists (v.enter id)).run =
        some (.ok afterLists) →
      (Reading.visitChildren (Reading.visit c complete limit) children afterLists.2.2).run =
        some (.ok afterChildren) →
      Descends c complete ⟨limit + 1, path, id, v⟩ ⟨limit, path ++ [id], child, afterChildren.2.2⟩

variable {c : Chart L} {complete : Bool} {here below : Visiting L}

/-- A visit runs out of depth if it has none, or if one that it makes runs out. -/
theorem run_eq_none_iff : here.run c complete = none ↔
    here.limit = 0 ∨ ∃ below, c.Descends complete here below ∧ below.run c complete = none := by
  obtain ⟨limit, path, id, v⟩ := here
  cases limit with
  | zero => exact iff_of_true rfl (.inl rfl)
  | succ limit =>
    constructor
    · intro h
      rcases Reading.opens_or_exists_run c complete id v with ⟨hmark, e, hopens⟩ | ⟨r, hr⟩
      · rw [Visiting.run, Reading.visit_of_opens hmark hopens, run_bind_eq_none_iff] at h
        obtain h | ⟨a, -, h⟩ := h
        · obtain ⟨lists, cpl, laterLists, r, hlists, hrun, h⟩ :=
            (Reading.traverses_visitLists _ id e).eq_none_iff.1 h
          obtain ⟨children, child, laterChildren, r', hcpl, hrun', h⟩ :=
            (Reading.traverses_visitChildren _).eq_none_iff.1 h
          exact .inr ⟨_, .child hmark hopens hlists hcpl hrun hrun', h⟩
        · cases h
      · rw [Visiting.run, hr] at h
        cases h
    · rintro (h | ⟨below, hdown, h⟩)
      · cases h
      · cases hdown with
        | child hmark hopens hlists hcpl hrun hrun' =>
          rw [Visiting.run, Reading.visit_of_opens hmark hopens, run_bind_eq_none_iff]
          exact .inl ((Reading.traverses_visitLists _ _ _).eq_none_iff.2 ⟨_, _, _, _, hlists, hrun,
            (Reading.traverses_visitChildren _).eq_none_iff.2 ⟨_, _, _, _, hcpl, hrun', h⟩⟩)

/-- A visit runs out of depth exactly if it leads to one that has none. -/
theorem visit_eq_none_iff : here.run c complete = none ↔
    ∃ below, Relation.ReflTransGen (c.Descends complete) here below ∧ below.limit = 0 := by
  constructor
  · intro h
    induction hlimit : here.limit generalizing here with
    | zero => exact ⟨here, .refl, hlimit⟩
    | succ limit ih =>
      obtain hzero | ⟨below, hdown, h'⟩ := run_eq_none_iff.1 h
      · rw [hlimit] at hzero
        cases hzero
      · have hlimit' : below.limit = limit := by
          cases hdown
          exact Nat.succ.inj hlimit
        obtain ⟨last, hlast, hzero⟩ := ih h' hlimit'
        exact ⟨last, .head hdown hlast, hzero⟩
  · rintro ⟨below, hreaches, hzero⟩
    induction hreaches using Relation.ReflTransGen.head_induction_on with
    | refl => exact run_eq_none_iff.2 (.inl hzero)
    | head hdown _ ih => exact run_eq_none_iff.2 (.inr ⟨_, hdown, ih⟩)

theorem Descends.limit_add_length (h : c.Descends complete here below) :
    below.limit + below.path.length = here.limit + here.path.length := by
  cases h
  rw [List.length_append, List.length_singleton, Nat.add_assoc, Nat.add_comm 1]

/-! ### The path of a visit -/

/-- A visit whose path is marked hands on a path that is marked: the lists and
the children before have left the marks as they found them. -/
theorem Marked.descends (hwf : c.WellFormed) (hlimit : c.size < here.limit + here.path.length)
    (h : c.Marked complete here.path here.visited) (hdown : c.Descends complete here below) :
    c.Marked complete below.path below.visited := by
  cases hdown with
  | @child limit path id v e lists cpl laterLists children child laterChildren _ _
      hmark hopens hlists hcpl hrun hrun' =>
    have hvisit : ∀ cpl' ∈ c.pointers id, ∀ x ∈ cpl',
        Reading.Visits c complete (path ++ [id]) (Reading.visit c complete limit) x := by
      intro cpl' hcpl' x hx
      refine Reading.visit_spec hwf limit _ ?_ x (hwf.child_lt id cpl' hcpl' x hx)
      rw [List.length_append, List.length_singleton]
      dsimp only at hlimit
      omega
    have hentered := h.enter hmark (lt_size_iff.2 ⟨e, hopens.edge⟩)
    have hafterLists := (Reading.visitLists_spec id e lists (fun cpl' hcpl' => hvisit cpl'
      (hlists ▸ List.mem_append_left _ hcpl')) hentered).of_run hrun
    have hbefore : ∀ x ∈ children, x ∈ cpl := fun x hx => hcpl ▸ List.mem_append_left _ hx
    exact ((Reading.visitChildren_spec children (fun x hx => hvisit cpl
      (hlists ▸ List.mem_append_cons_self) x (hbefore x hx)) hafterLists.1).of_run hrun').1

/-- So has every visit that one visit leads to, however far down. -/
theorem Marked.reaches (hwf : c.WellFormed) (hlimit : c.size < here.limit + here.path.length)
    (h : c.Marked complete here.path here.visited)
    (hreaches : Relation.ReflTransGen (c.Descends complete) here below) :
    c.Marked complete below.path below.visited ∧ c.size < below.limit + below.path.length := by
  induction hreaches with
  | refl => exact ⟨h, hlimit⟩
  | tail _ hdown ih => exact ⟨ih.1.descends hwf ih.2 hdown, hdown.limit_add_length ▸ ih.2⟩

/-- A visit to what is not an edge of the chart changes nothing. -/
theorem visited_eq_of_size_le (hid : c.size ≤ here.id) {r : Findings L × Visited L}
    (hrun : here.run c complete = some (.ok r)) : r.2 = here.visited := by
  obtain ⟨limit, path, id, v⟩ := here
  cases limit with
  | zero => cases hrun
  | succ limit =>
    rw [Visiting.run, Reading.visit] at hrun
    dsimp only at hrun
    cases hmark : v.get? id with
    | none =>
      rw [hmark, Array.getElem?_eq_none hid] at hrun
      cases hrun
    | some mark =>
      rw [hmark] at hrun
      cases mark with
      | read readings =>
        cases hrun
        rfl
      | onPath depth =>
        cases hrun
        rfl

/-- A visit that comes to an answer leaves the marks of its path as it found them. -/
theorem Marked.run (hwf : c.WellFormed) (hlimit : c.size < here.limit + here.path.length)
    (h : c.Marked complete here.path here.visited) {r : Findings L × Visited L}
    (hrun : here.run c complete = some (.ok r)) : c.Marked complete here.path r.2 := by
  by_cases hid : here.id < c.size
  · exact ((Reading.visit_spec hwf here.limit here.path hlimit here.id hid _ h).of_run hrun).1
  · rw [visited_eq_of_size_le (Nat.le_of_not_lt hid) hrun]
    exact h

end Chart

/-- The visits under way are those to the edges of the path, each of which is
marked with its place there. -/
structure Visited.Follows (v : Visited L) (path : List EdgeId) : Prop where
  depth_eq : v.depth = path.length
  nodup : path.Nodup
  onPath_iff : ∀ id d, v.get? id = some (.onPath d) ↔ path[d]? = some id

theorem Chart.Marked.follows {c : Chart L} {complete : Bool} {path : List EdgeId} {v : Visited L}
    (h : c.Marked complete path v) : v.Follows path :=
  ⟨h.depth_eq, h.nodup, h.onPath_iff⟩

/-- What holds of each visit that reading trees leads to. -/
structure Visiting.Orderly (c : Chart L) (complete : Bool) (here : Visiting L) : Prop where
  /-- When it begins, the marks are those of its path. -/
  begins : here.visited.Follows here.path
  /-- Visits nest no deeper than the chart has edges, plus one. -/
  nests : here.path.length + 1 ≤ c.size + 1
  /-- While the children of its edge are visited, that edge is on the path as well. -/
  enters : here.visited.get? here.id = none → (∃ e, c.Opens complete here.id e) →
    (here.visited.enter here.id).Follows (here.path ++ [here.id])
  /-- When it comes to an answer, the depth and the edges marked as being on
  the path are those that it began with. -/
  returns : ∀ found v, here.run c complete = some (.ok (found, v)) →
    v.depth = here.visited.depth ∧
      ∀ id d, v.get? id = some (.onPath d) ↔ here.visited.get? id = some (.onPath d)

theorem Chart.Marked.orderly {c : Chart L} {complete : Bool} {here : Visiting L}
    (hwf : c.WellFormed) (hlimit : c.size < here.limit + here.path.length)
    (h : c.Marked complete here.path here.visited) : here.Orderly c complete where
  begins := h.follows
  nests := Nat.succ_le_succ h.length_le
  enters := fun hmark ⟨e, hopens⟩ => (h.enter hmark (lt_size_iff.2 ⟨e, hopens.edge⟩)).follows
  returns := by
    intro found v hrun
    have hreturned := h.run hwf hlimit hrun
    refine ⟨hreturned.depth_eq.trans h.depth_eq.symm, fun id d => ?_⟩
    rw [hreturned.onPath_iff, h.onPath_iff]

namespace Chart.Built

variable [DecidableEq L] {c : Chart L}

/-- On every chart that insertions lead to, reading the trees of an edge comes
to an end, in circles as well: with a depth above the number of edges visits
never run out of it, and how much above makes no difference.  The edges whose
children are being visited are different ones, each marked with its place on
the path; and a visit that comes to an answer leaves the depth and these marks
as it found them. -/
theorem visits_end (hc : c.Built) (complete : Bool) (root : EdgeId) :
    (∃ r, ∀ limit, c.size < limit →
        (Reading.visit c complete limit root .nothing).run = some r) ∧
      ∀ limit, c.size < limit → ∀ here,
        Relation.ReflTransGen (c.Descends complete) ⟨limit, [], root, .nothing⟩ here →
          here.Orderly c complete := by
  have hmarked : ∀ limit, c.size < limit → ∀ here,
      Relation.ReflTransGen (c.Descends complete) ⟨limit, [], root, .nothing⟩ here →
        c.Marked complete here.path here.visited ∧ c.size < here.limit + here.path.length :=
    fun limit hlimit here hreaches => by
      refine Marked.reaches hc.wellFormed ?_ .nothing hreaches
      rwa [List.length_nil, Nat.add_zero]
  refine ⟨?_, fun limit hlimit here hreaches =>
    have h := hmarked limit hlimit here hreaches
    h.1.orderly hc.wellFormed h.2⟩
  -- a visit without depth would have a path with more edges than the chart has
  have hends : (Reading.visit c complete (c.size + 1) root .nothing).run ≠ none := by
    intro hnone
    have hrun : (⟨c.size + 1, [], root, .nothing⟩ : Visiting L).run c complete = none := hnone
    obtain ⟨here, hreaches, hzero⟩ := visit_eq_none_iff.1 hrun
    obtain ⟨hpath, hdeep⟩ := hmarked _ (Nat.lt_succ_self _) here hreaches
    have hle := hpath.length_le
    omega
  obtain ⟨r, hr⟩ := Option.ne_none_iff_exists'.1 hends
  exact ⟨r, fun limit hlimit => Reading.keepsAnswers_visit hlimit root .nothing r hr⟩

/-- An edge that is on its own list is visited from itself, and that visit is cut. -/
theorem visits_end_self_reference :
    ∃ (c : Chart Symbol) (v : Visited Symbol), c.Built ∧ c.size < 3 ∧
      Relation.ReflTransGen (c.Descends true) ⟨3, [], 1, .nothing⟩ ⟨2, [1], 1, v⟩ ∧
        (⟨2, [1], 1, v⟩ : Visiting Symbol).Orderly c true ∧
          (Reading.visit c true 2 1 v).run = some (.ok (⟨[], some 0⟩, v)) ∧
            ∃ r, (Reading.visit c true 3 1 .nothing).run = some r := by
  obtain ⟨loop, c, c', _, _, hleaf, hloop, hsize, hopens, hpointers, r₀, hfirst, hcut⟩ :
      ∃ (loop : Edge Symbol) (c c' : Chart Symbol) (id? id?' : Option EdgeId),
        (Chart.new ["x"]).insert (.leaf "x" 0) [[]] = .ok (c, id?) ∧
          c.insert loop [[0], [1]] = .ok (c', id?') ∧ c'.size < 3 ∧ c'.Opens true 1 loop ∧
            c'.pointers 1 = [[0]] ++ [1] :: [] ∧ ∃ r,
              (Reading.visitLists (Reading.visit c' true 2) 1 loop [[0]]
                (Visited.nothing.enter 1)).run = some (.ok r) ∧
              (Reading.visit c' true 2 1 r.2.2).run = some (.ok (⟨[], some 0⟩, r.2.2)) :=
    ⟨⟨0, 1, .nonterminal "S", [.nonterminal "S"], 1, by decide, by decide⟩, _, _, _, _,
      rfl, rfl, by decide, ⟨rfl, rfl, rfl⟩, rfl, _, rfl, rfl⟩
  have hbefore : (Reading.visitChildren (Reading.visit c' true 2) [] r₀.2.2).run =
      some (.ok ([], none, r₀.2.2)) := rfl
  have hdown : c'.Descends true ⟨3, [], 1, .nothing⟩ ⟨2, [] ++ [1], 1, r₀.2.2⟩ :=
    .child rfl hopens hpointers (List.nil_append [1]).symm hfirst hbefore
  have hc : c'.Built := .insert (.insert (.new _) hleaf) hloop
  obtain ⟨⟨r, hr⟩, horderly⟩ := hc.visits_end true 1
  have hreaches := Relation.ReflTransGen.single hdown
  exact ⟨c', r₀.2.2, hc, hsize, hreaches, horderly 3 hsize _ hreaches, hcut, r, hr 3 hsize⟩

end Chart.Built

end Descent

end ChartParsing
