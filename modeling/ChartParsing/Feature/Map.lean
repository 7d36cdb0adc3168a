/-
ChartParsing/Feature/Map.lean

Features and their values.

A feature value is an atom or a variable `?x`.  A feature map keeps its
features in the order of their names, each name once, so two maps with the
same features are equal and print alike.  The order is part of the type;
`insert` and `map` keep it (`sorted_place`).
-/

namespace ChartParsing

/-- The value of a feature: an atom, or a variable that unification may bind. -/
inductive FeatureValue where
  | atom (text : String)
  | var (name : String)
  deriving DecidableEq

namespace FeatureValue

/-- An atom in single quotes, a variable after a question mark. -/
def text : FeatureValue → String
  | atom a => "'" ++ a ++ "'"
  | var x => "?" ++ x

/-- Atoms come before variables; within each kind the texts decide. -/
def order : FeatureValue → FeatureValue → Ordering
  | atom a, atom b => compare a b
  | atom _, var _ => .lt
  | var _, atom _ => .gt
  | var x, var y => compare x y

instance : Ord FeatureValue := ⟨order⟩

end FeatureValue

/-! ### Feature maps -/

/-- Features and their values, by increasing name. -/
structure FeatureMap where
  entries : List (String × FeatureValue)
  sorted : entries.Pairwise (fun p q => p.1 < q.1)
  deriving DecidableEq

namespace FeatureMap

/-- No features. -/
def empty : FeatureMap := ⟨[], .nil⟩

/-- The value paired with `feature` in a list of pairs. -/
def find? (feature : String) : List (String × FeatureValue) → Option FeatureValue
  | [] => none
  | (f, v) :: rest => if f = feature then some v else find? feature rest

/-- The value of `feature`, if the map has it. -/
def get? (m : FeatureMap) (feature : String) : Option FeatureValue :=
  find? feature m.entries

/-- Puts a pair in its place among pairs sorted by name; a pair of the same name gives way. -/
def place (feature : String) (value : FeatureValue) :
    List (String × FeatureValue) → List (String × FeatureValue)
  | [] => [(feature, value)]
  | (f, v) :: rest =>
    if feature < f then (feature, value) :: (f, v) :: rest
    else if feature = f then (feature, value) :: rest
    else (f, v) :: place feature value rest

theorem mem_place {p : String × FeatureValue} {feature : String} {value : FeatureValue}
    {entries : List (String × FeatureValue)} (h : p ∈ place feature value entries) :
    p = (feature, value) ∨ p ∈ entries := by
  induction entries with
  | nil => simpa [place] using h
  | cons entry rest ih =>
    obtain ⟨f, v⟩ := entry
    rw [place] at h
    split at h
    · simpa using h
    · split at h
      · rcases List.mem_cons.1 h with h | h
        · exact .inl h
        · exact .inr (List.mem_cons_of_mem _ h)
      · rcases List.mem_cons.1 h with h | h
        · exact .inr (h ▸ List.mem_cons_self)
        · exact (ih h).imp id (List.mem_cons_of_mem _)

theorem sorted_place (feature : String) (value : FeatureValue)
    {entries : List (String × FeatureValue)} (h : entries.Pairwise (fun p q => p.1 < q.1)) :
    (place feature value entries).Pairwise (fun p q => p.1 < q.1) := by
  induction entries with
  | nil => simp [place]
  | cons entry rest ih =>
    obtain ⟨f, v⟩ := entry
    have hrest := List.pairwise_cons.1 h
    rw [place]
    split
    · rename_i hlt
      refine List.pairwise_cons.2 ⟨fun q hq => ?_, h⟩
      rcases List.mem_cons.1 hq with rfl | hq
      · exact hlt
      · exact String.lt_trans hlt (hrest.1 q hq)
    · rename_i hge
      split
      · rename_i heq
        exact List.pairwise_cons.2 ⟨fun q hq => heq ▸ hrest.1 q hq, hrest.2⟩
      · rename_i hne
        refine List.pairwise_cons.2 ⟨fun q hq => ?_, ih hrest.2⟩
        rcases mem_place hq with rfl | hq
        · exact Decidable.byContradiction fun hf =>
            hne (String.le_antisymm (String.not_lt.1 hf) (String.not_lt.1 hge))
        · exact hrest.1 q hq

theorem find?_place (f f' : String) (v : FeatureValue) (entries : List (String × FeatureValue)) :
    find? f' (place f v entries) = if f = f' then some v else find? f' entries := by
  induction entries with
  | nil => simp [place, find?]
  | cons entry rest ih =>
    obtain ⟨g, w⟩ := entry
    rw [place]
    split
    · simp [find?]
    · split
      · rename_i h
        subst h
        by_cases h' : f = f' <;> simp [find?, h']
      · rename_i h
        by_cases h' : g = f'
        · subst h'
          simp [find?, h]
        · simp [find?, h', ih]

/-- Gives `feature` the value `value`, in place of the one it may have had. -/
def insert (m : FeatureMap) (feature : String) (value : FeatureValue) : FeatureMap :=
  ⟨place feature value m.entries, sorted_place feature value m.sorted⟩

/-- Giving one feature a value leaves every other as it was. -/
theorem get?_insert (m : FeatureMap) (f f' : String) (v : FeatureValue) :
    (m.insert f v).get? f' = if f = f' then some v else m.get? f' :=
  find?_place f f' v m.entries

/-- The map with these features; of two values for one feature the later counts. -/
def ofList (pairs : List (String × FeatureValue)) : FeatureMap :=
  pairs.foldl (fun m p => m.insert p.1 p.2) empty

/-- Changes every value, keeping the names. -/
def map (change : FeatureValue → FeatureValue) (m : FeatureMap) : FeatureMap :=
  ⟨m.entries.map fun p => (p.1, change p.2), List.Pairwise.map _ (fun _ _ h => h) m.sorted⟩

theorem get?_map (change : FeatureValue → FeatureValue) (m : FeatureMap) (f : String) :
    (m.map change).get? f = (m.get? f).map change := by
  obtain ⟨entries, _⟩ := m
  simp only [get?, map]
  induction entries with
  | nil => rfl
  | cons entry rest ih =>
    by_cases h : entry.1 = f
    · simp [find?, h]
    · simp_all [find?]

/-- Adds those of `pairs` whose feature the map does not have. -/
def complete (m : FeatureMap) (pairs : List (String × FeatureValue)) : FeatureMap :=
  pairs.foldl (fun m p => if (m.get? p.1).isSome then m else m.insert p.1 p.2) m

/-- The names of the features, increasing. -/
def features (m : FeatureMap) : List String := m.entries.map Prod.fst

/-- The values of the features, in the order of the names. -/
def values (m : FeatureMap) : List FeatureValue := m.entries.map Prod.snd

/-- A feature whose value is the atom `+` or `-` is written as that sign and its name. -/
def entryText : String × FeatureValue → String
  | (f, .atom "+") => "+" ++ f
  | (f, .atom "-") => "-" ++ f
  | (f, v) => f ++ "=" ++ v.text

/-- The features in brackets; nothing at all for a map without features. -/
def text (m : FeatureMap) : String :=
  if m.entries.isEmpty then "" else "[" ++ ", ".intercalate (m.entries.map entryText) ++ "]"

/-- The order of two lists of features: name before value at the first pair
that differs, and a list before its extensions. -/
def orderEntries : List (String × FeatureValue) → List (String × FeatureValue) → Ordering
  | [], [] => .eq
  | [], _ :: _ => .lt
  | _ :: _, [] => .gt
  | (f, v) :: rest, (f', v') :: rest' =>
    (compare f f').then ((compare v v').then (orderEntries rest rest'))

end FeatureMap

end ChartParsing
