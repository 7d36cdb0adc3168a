/-
ChartParsing/Proofs/Chart/Effect.lean

All that an insertion does.

`Chart.Inserted` says what is in a chart after an insertion.  `Chart.Effect`
says what the chart is: where the edge stands, which lists it has and in which
order, what the answer is, and that there is no other difference.  An insertion
whose lists dangle is refused for the first id that does
(`Chart.insert_eq_error_iff`), with a limit that counts the edge itself, and
otherwise has just this effect (`Chart.insert_effect`).  Either way the same
insertion once more changes nothing.
-/
import ChartParsing.Proofs.Chart.Session

namespace ChartParsing

namespace Chart

variable {L : Type} [Label L] [DecidableEq L]

/-! ### What is refused -/

/-- The number of edges that there are with `e` among them. -/
def sizeWith (c : Chart L) (e : Edge L) : Nat := if e ∈ c.edges then c.size else c.size + 1

/-- The first id in the lists, in reading order, that is not below the limit. -/
def FirstDangling (limit : Nat) (offered : List Pointers) (child : EdgeId) : Prop :=
  ∃ before after, offered.flatten = before ++ child :: after ∧ (∀ id ∈ before, id < limit) ∧
    limit ≤ child

theorem dangling?_eq_some_iff {limit : Nat} {offered : List Pointers} {child : EdgeId} :
    dangling? limit offered = some child ↔ FirstDangling limit offered child := by
  rw [dangling?, List.find?_eq_some_iff_append]
  simp only [decide_eq_true_eq, Bool.not_eq_true', decide_eq_false_iff_not, Nat.not_le]
  constructor
  · rintro ⟨hle, before, after, hsplit, hbefore⟩
    exact ⟨before, after, hsplit, hbefore, hle⟩
  · rintro ⟨before, after, hsplit, hbefore, hle⟩
    exact ⟨hle, before, after, hsplit, hbefore⟩

/-- Insertions are refused for dangling lists, and for nothing else. -/
theorem insert_eq_error_iff {c : Chart L} {e : Edge L} {offered : List Pointers}
    {x : ChartError} :
    c.insert e offered = .error x ↔
      ∃ child, x = .danglingChild child ∧ FirstDangling (c.sizeWith e) offered child := by
  simp only [← dangling?_eq_some_iff]
  by_cases he : e ∈ c.edges
  · obtain ⟨id, entry, hid, hentry, -⟩ := exists_entry_of_mem he
    rw [insert_of_idOf? hid hentry, sizeWith, if_pos he]
    cases dangling? c.size offered with
    | some child => simp [eq_comm]
    | none =>
      dsimp only
      split <;> simp
  · rw [insert_of_not_mem he, sizeWith, if_neg he]
    split
    · -- nothing is offered, so nothing dangles
      rename_i hempty
      simp [List.isEmpty_iff.1 hempty, dangling?]
    · cases dangling? (c.size + 1) offered with
      | some child => simp [eq_comm]
      | none => simp

/-! ### What is done -/

/-- All that inserting `e` by the lists `offered` does, where it is not refused. -/
structure Effect (c : Chart L) (e : Edge L) (offered : List Pointers) (c' : Chart L)
    (id? : Option EdgeId) : Prop where
  tokens : c'.tokens = c.tokens
  /-- A new edge comes behind the others, if anything is offered with it. -/
  edges : c'.edges = if e ∈ c.edges ∨ offered = [] then c.edges else c.edges ++ [e]
  others : ∀ id, c'.edges[id]? ≠ some e → c'.pointers id = c.pointers id
  /-- The edge keeps its lists, and has behind them those that are new, as they first came. -/
  own : ∀ id, c'.edges[id]? = some e →
    c'.pointers id = c.pointers id ++ (offered.filter (· ∉ c.pointers id)).eraseDups
  answer : ∀ id, id? = some id ↔ c'.edges[id]? = some e ∧
    ((e ∉ c.edges ∧ offered ≠ []) ∨ (c.pointers id).length < (c'.pointers id).length)
  unchanged : id? = none → c' = c
  again : c'.insert e offered = .ok (c', none)

/-- Offering an edge what it has changes nothing. -/
theorem insert_of_subset {c : Chart L} (hwf : c.WellFormed) {id : EdgeId} {e : Edge L}
    (he : c.edges[id]? = some e) {offered : List Pointers}
    (hold : ∀ p ∈ offered, p ∈ c.pointers id) : c.insert e offered = .ok (c, none) := by
  have hid := hwf.idOf?_eq_some_iff.2 he
  obtain ⟨cpls, hentry, hlists⟩ := exists_entry_of_edge he
  -- the lists are the chart's own, so they do not dangle
  have hdangling : dangling? c.size offered = none :=
    dangling?_eq_none fun p hp => hwf.child_lt id p (hold p hp)
  have hall : offered.all cpls.contains = true :=
    List.all_eq_true.2 fun p hp => (cpls.contains_iff_mem p).2 (hlists ▸ hold p hp)
  rw [insert_of_idOf? hid hentry, hdangling]
  simp only [hall, if_true]

/-- Where an edge is offered nothing that it does not have. -/
theorem effect_same {c : Chart L} {e : Edge L} {offered : List Pointers}
    (hempty : e ∈ c.edges ∨ offered = [])
    (hold : ∀ id, c.edges[id]? = some e → ∀ p ∈ offered, p ∈ c.pointers id)
    (hagain : c.insert e offered = .ok (c, none)) : Effect c e offered c none where
  tokens := rfl
  edges := (if_pos hempty).symm
  others := fun _ _ => rfl
  own := by
    intro id hid
    have hnone : offered.filter (· ∉ c.pointers id) = [] :=
      List.filter_eq_nil_iff.2 fun p hp => by simpa using hold id hid p hp
    rw [hnone, List.eraseDups_nil, List.append_nil]
  answer := by
    intro id
    refine ⟨fun h => (by cases h), ?_⟩
    rintro ⟨hid, ⟨hnew, -⟩ | hlt⟩
    · exact absurd (List.mem_of_getElem? hid) hnew
    · exact absurd hlt (Nat.lt_irrefl _)
  unchanged := fun _ => rfl
  again := hagain

/-- Where the chart changes at one edge, the rest of the effect follows from its lists. -/
theorem effect_of_inserted {c c' : Chart L} {e : Edge L} {offered : List Pointers} {id : EdgeId}
    (h : Inserted c e offered c' (some id)) (hid : c'.edges[id]? = some e)
    (hedges : c'.edges = if e ∈ c.edges ∨ offered = [] then c.edges else c.edges ++ [e])
    (hown : c'.pointers id = c.pointers id ++ (offered.filter (· ∉ c.pointers id)).eraseDups) :
    Effect c e offered c' (some id) where
  tokens := h.grows.tokens
  edges := hedges
  others := by
    intro id' hid'
    refine h.grows.pointers_eq fun hmem => hid' ?_
    rw [List.mem_singleton.1 hmem, hid]
  own := by
    intro id' hid'
    obtain rfl := h.wellFormed.id_unique hid' hid
    exact hown
  answer := by
    intro id'
    constructor
    · rintro ⟨⟩
      exact ⟨hid, .inr (h.grows.gained id List.mem_cons_self)⟩
    · rintro ⟨hid', -⟩
      exact congrArg some (h.wellFormed.id_unique hid hid')
  unchanged := nofun
  again := insert_of_subset h.wellFormed hid fun p hp => (h.mem_pointers id p).2 (.inr ⟨hid, hp⟩)

/-- An insertion that is not refused has its effect and no other. -/
theorem insert_effect {c c' : Chart L} {id? : Option EdgeId} (hwf : c.WellFormed) {e : Edge L}
    {offered : List Pointers} (h : c.insert e offered = .ok (c', id?)) :
    Effect c e offered c' id? := by
  have hins := insert_inserted hwf h
  by_cases he : e ∈ c.edges
  · obtain ⟨id, entry, hid, hentry, rfl⟩ := exists_entry_of_mem he
    have hedge := getElem?_of_idOf? hid
    have hlists : c.pointers id = entry.cpls.toList := by rw [pointers, hentry]
    have hrun := h
    rw [insert_of_idOf? hid hentry] at h
    split at h
    · cases h
    · split at h
      · -- the edge has all the lists
        rename_i hall
        obtain ⟨rfl, rfl⟩ := Prod.mk.inj (Except.ok.inj h)
        refine effect_same (.inl he) (fun id' hid' p hp => ?_) hrun
        rw [hwf.id_unique hid' hedge, hlists]
        exact (entry.cpls.contains_iff_mem p).1 (List.all_eq_true.1 hall p hp)
      · obtain ⟨rfl, rfl⟩ := Prod.mk.inj (Except.ok.inj h)
        refine effect_of_inserted hins ?_ ?_ ?_
        · rw [edges_justify, hedge]
        · rw [edges_justify, if_pos (.inl he)]
        · rw [pointers_justify (lt_size hedge), if_pos rfl, hlists, Roster.toList_enterAll]
  · have hrun := h
    rw [insert_of_not_mem he] at h
    split at h
    · -- nothing justifies the edge
      rename_i hempty
      obtain ⟨rfl, rfl⟩ := Prod.mk.inj (Except.ok.inj h)
      refine effect_same (.inr (List.isEmpty_iff.1 hempty)) (fun id' hid' => ?_) hrun
      exact absurd (List.mem_of_getElem? hid') he
    · rename_i hne
      rw [List.isEmpty_iff] at hne
      split at h
      · cases h
      · obtain ⟨rfl, rfl⟩ := Prod.mk.inj (Except.ok.inj h)
        refine effect_of_inserted hins ?_ ?_ ?_
        · rw [edges_append, size_eq_length_edges, List.getElem?_concat_length]
        · rw [edges_append, if_neg (not_or.2 ⟨he, hne⟩)]
        · rw [pointers_append, if_pos rfl, pointers_of_le_size le_rfl, Roster.toList_enterAll,
            Roster.toList_empty]

/-- Inserting by the lists of an edge of the chart, each with one more child. -/
theorem insertAfter_of_lt {c : Chart L} {previous : EdgeId} (h : previous < c.size) (e : Edge L)
    (child : EdgeId) :
    c.insertAfter e previous child =
      c.insert e ((c.pointers previous).map fun p => p ++ [child]) := by
  rw [insertAfter, cpls_eq_ok h, ok_bind]

theorem insertAfter_of_le {c : Chart L} {previous : EdgeId} (h : c.size ≤ previous) (e : Edge L)
    (child : EdgeId) : c.insertAfter e previous child = .error (.edgeNotInChart previous) := by
  rw [insertAfter, cpls, Array.getElem?_eq_none h]
  rfl

end Chart

namespace Session

variable {L : Type} [Label L] [DecidableEq L] [LawfulLabel L]

/-- Whatever a chart has been asked before, an insertion is refused for the
first id that dangles and leaves everything as it was, or has its effect and no
other; and one by the lists of another edge is the insertion by these lists,
each with the child, or is refused where there is no such edge. -/
theorem insert_refused_or_effect (tokens : List String) (requests : List (Request L))
    (e : Edge L) (offered : List Pointers) :
    ((∃ child, Chart.FirstDangling ((run tokens requests).chart.sizeWith e) offered child ∧
        (run tokens requests).chart.insert e offered = .error (.danglingChild child) ∧
          (run tokens requests).perform (.insert e offered) = run tokens requests) ∨
      (∀ p ∈ offered, ∀ child ∈ p, child < (run tokens requests).chart.sizeWith e) ∧
        ∃ c' id?, (run tokens requests).chart.insert e offered = .ok (c', id?) ∧
          (run tokens requests).chart.Effect e offered c' id?) ∧
    ∀ previous child,
      (previous < (run tokens requests).chart.size ∧
        (run tokens requests).chart.insertAfter e previous child =
          (run tokens requests).chart.insert e
            (((run tokens requests).chart.pointers previous).map fun p => p ++ [child])) ∨
      (run tokens requests).chart.size ≤ previous ∧
        (run tokens requests).chart.insertAfter e previous child =
          .error (.edgeNotInChart previous) ∧
        (run tokens requests).perform (.insertAfter e previous child) = run tokens requests := by
  have hwf : (run tokens requests).chart.WellFormed := (sound_run tokens requests).wellFormed
  generalize run tokens requests = s at hwf
  refine ⟨?_, fun previous child => ?_⟩
  · cases hinsert : s.chart.insert e offered with
    | error x =>
      obtain ⟨child, rfl, hfirst⟩ := (Chart.insert_eq_error_iff).1 hinsert
      refine .inl ⟨child, hfirst, rfl, ?_⟩
      rw [perform, hinsert]
      rfl
    | ok r =>
      refine .inr ⟨?_, r.1, r.2, rfl, Chart.insert_effect hwf hinsert⟩
      refine Chart.lt_of_dangling?_eq_none (Option.eq_none_iff_forall_ne_some.2 fun child hchild => ?_)
      -- a list that dangled would have been refused
      have hrefused := (Chart.insert_eq_error_iff).2
        ⟨child, rfl, Chart.dangling?_eq_some_iff.1 hchild⟩
      cases hrefused.symm.trans hinsert
  · rcases Nat.lt_or_ge previous s.chart.size with hlt | hge
    · exact .inl ⟨hlt, Chart.insertAfter_of_lt hlt e child⟩
    · have hrefused := Chart.insertAfter_of_le hge e child
      refine .inr ⟨hge, hrefused, ?_⟩
      rw [perform, hrefused]
      rfl

/-- A chart that has been given the edge of a production by hand, by nothing and by itself. -/
def selfJustified (s a : L) : List (Request L) :=
  [.insert (.ofProduction ⟨s, [a]⟩ 0) [[], [0]]]

/-- An edge that the chart has, offered a list that would be good for a new
edge only; with features, a list that is new and comes twice; and lists of an
edge that there is not. -/
theorem insert_refused_or_effect_self_justified :
    let s := Symbol.nonterminal "S"
    let a := Symbol.terminal "a"
    let plain := run ["a"] (selfJustified s a)
    let s' := FeatureSymbol.category (.bare "S")
    let a' := FeatureSymbol.terminal "a"
    let featured := run ["a"] (selfJustified s' a')
    (∃ child, Chart.FirstDangling 1 [[0], [0, 1], [2]] child ∧
        plain.chart.insert (.ofProduction ⟨s, [a]⟩ 0) [[0], [0, 1], [2]] =
          .error (.danglingChild child)) ∧
      (∃ c' id?, featured.chart.insert (.ofProduction ⟨s', [a']⟩ 0) [[0, 0], [], [0, 0]] =
          .ok (c', id?) ∧ c'.pointers 0 = [[], [0], [0, 0]] ∧ id? = some 0) ∧
      plain.chart.insertAfter (.leaf "a" 0) 1 0 = .error (.edgeNotInChart 1) := by
  intro s a plain s' a' featured
  have hplain : plain.chart.sizeWith (.ofProduction ⟨s, [a]⟩ 0) = 1 := by decide +kernel
  have hfeatured : featured.chart.sizeWith (.ofProduction ⟨s', [a']⟩ 0) = 1 := by decide +kernel
  obtain ⟨hrefused, -⟩ :=
    insert_refused_or_effect ["a"] (selfJustified s a) (.ofProduction ⟨s, [a]⟩ 0)
      [[0], [0, 1], [2]]
  obtain ⟨hdone, -⟩ :=
    insert_refused_or_effect ["a"] (selfJustified s' a') (.ofProduction ⟨s', [a']⟩ 0)
      [[0, 0], [], [0, 0]]
  obtain ⟨-, hafter⟩ :=
    insert_refused_or_effect ["a"] (selfJustified s a) (.leaf "a" 0) []
  refine ⟨?_, ?_, ?_⟩
  · rcases hrefused with ⟨child, hfirst, hrefused, -⟩ | ⟨hall, -⟩
    · exact ⟨child, hplain ▸ hfirst, hrefused⟩
    · rw [hplain] at hall
      exact absurd hall (by decide)
  · rcases hdone with ⟨child, hfirst, -⟩ | ⟨-, c', id?, hinsert, heffect⟩
    · rw [hfeatured, ← Chart.dangling?_eq_some_iff] at hfirst
      cases hfirst
    · have hedge : c'.edges[0]? = some (.ofProduction ⟨s', [a']⟩ 0) := by
        rw [heffect.edges]
        decide +kernel
      have hlists : c'.pointers 0 = [[], [0], [0, 0]] := by
        rw [heffect.own 0 hedge]
        decide +kernel
      refine ⟨c', id?, hinsert, hlists, (heffect.answer 0).2 ⟨hedge, .inr ?_⟩⟩
      rw [hlists]
      decide +kernel
  · rcases hafter 1 0 with ⟨hlt, -⟩ | ⟨-, hrefused, -⟩
    · exact absurd hlt (by decide +kernel)
    · exact hrefused

end Session

end ChartParsing
