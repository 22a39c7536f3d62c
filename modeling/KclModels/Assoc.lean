/-!
# Lists of pairs as maps

Maps that answers show are kept as lists of pairs: in order of first insertion, or sorted by key.
Both read through `List.lookup`; this module holds how they are written and the lemmas that say what
a lookup then finds.
-/

namespace KclModels.Assoc

variable {α : Type}

/-- The keys of a map, in its order. -/
def keys (m : List (String × α)) : List String := m.map Prod.fst

/-- Whether the map has the key. -/
def has (m : List (String × α)) (k : String) : Bool := (m.lookup k).isSome

/-- Sets a key: a key the map has keeps its place, another goes to the end. -/
def put (m : List (String × α)) (k : String) (v : α) : List (String × α) :=
  match m with
  | [] => [(k, v)]
  | (l, w) :: rest => if l = k then (k, v) :: rest else (l, w) :: put rest k v

/-- Sets a key only if the map lacks it. -/
def putNew (m : List (String × α)) (k : String) (v : α) : List (String × α) :=
  if has m k then m else m ++ [(k, v)]

/-- The map of a list of pairs: of a repeated key the last value, in the place of the first. -/
def ofPairs (pairs : List (String × α)) : List (String × α) :=
  pairs.foldl (fun m (k, v) => put m k v) []

/-- Sets a key of a map that is sorted by key. -/
def putSorted (m : List (String × α)) (k : String) (v : α) : List (String × α) :=
  match m with
  | [] => [(k, v)]
  | (l, w) :: rest =>
    if k = l then (k, v) :: rest
    else if k < l then (k, v) :: (l, w) :: rest
    else (l, w) :: putSorted rest k v

/-- Sets all keys of `other` in a map that is sorted by key. -/
def mergeSorted (m other : List (String × α)) : List (String × α) :=
  other.foldl (fun m (k, v) => putSorted m k v) m

/-- The map of a list of pairs, sorted by key; of a repeated key the last value. -/
def sortedOfPairs (pairs : List (String × α)) : List (String × α) := mergeSorted [] pairs

theorem lookup_pair (m : List (String × α)) (k l : String) (v : α) :
    ((k, v) :: m).lookup l = if l = k then some v else m.lookup l := by
  by_cases h : l = k
  · simp [h]
  · have hb : (l == k) = false := by simpa using h
    simp [List.lookup_cons, h, hb]

theorem lookup_put (m : List (String × α)) (k l : String) (v : α) :
    (put m k v).lookup l = if l = k then some v else m.lookup l := by
  induction m with
  | nil => simp [put, lookup_pair]
  | cons p rest ih =>
    obtain ⟨q, w⟩ := p
    by_cases hq : q = k
    · subst hq
      by_cases h : l = q <;> simp [put, lookup_pair, h]
    · by_cases h : l = q
      · subst h
        simp [put, hq]
      · simp [put, hq, lookup_pair, h, ih]

theorem mem_put {m : List (String × α)} {k : String} {v : α} {e : String × α}
    (h : e ∈ put m k v) : e = (k, v) ∨ e ∈ m := by
  induction m with
  | nil => exact Or.inl (List.mem_singleton.mp h)
  | cons p rest ih =>
    obtain ⟨l, w⟩ := p
    unfold put at h
    split at h
    · exact (List.mem_cons.mp h).imp_right (List.mem_cons_of_mem _)
    · rcases List.mem_cons.mp h with rfl | h
      · exact Or.inr List.mem_cons_self
      · exact (ih h).imp_right (List.mem_cons_of_mem _)

theorem mem_keys_put {m : List (String × α)} {k n : String} {v : α} :
    n ∈ keys (put m k v) ↔ n = k ∨ n ∈ keys m := by
  induction m with
  | nil => simp [put, keys]
  | cons p rest ih =>
    obtain ⟨l, w⟩ := p
    unfold put
    split
    · rename_i hl
      simp [keys, hl]
    · simp only [keys, List.map_cons, List.mem_cons] at ih ⊢
      rw [ih, or_left_comm]

theorem nodup_keys_put {m : List (String × α)} {k : String} {v : α} (h : (keys m).Nodup) :
    (keys (put m k v)).Nodup := by
  induction m with
  | nil => exact List.pairwise_singleton _ _
  | cons p rest ih =>
    obtain ⟨l, w⟩ := p
    obtain ⟨hl, hrest⟩ := List.nodup_cons.mp h
    unfold put
    by_cases heq : l = k
    · rw [if_pos heq]
      exact List.nodup_cons.mpr ⟨heq ▸ hl, hrest⟩
    · rw [if_neg heq]
      refine List.nodup_cons.mpr ⟨fun hmem => ?_, ih hrest⟩
      exact (mem_keys_put.mp hmem).elim heq hl

/-- The map of a list of pairs has no others. -/
theorem mem_ofPairs {pairs : List (String × α)} {e : String × α} (h : e ∈ ofPairs pairs) :
    e ∈ pairs := by
  have hfold : ∀ m : List (String × α), e ∈ pairs.foldl (fun m (k, v) => put m k v) m →
      e ∈ m ∨ e ∈ pairs := by
    clear h
    induction pairs with
    | nil => exact fun _ h => Or.inl h
    | cons p rest ih =>
      intro m h
      rcases ih _ h with h | h
      · rcases mem_put h with rfl | h
        · exact Or.inr List.mem_cons_self
        · exact Or.inl h
      · exact Or.inr (List.mem_cons_of_mem _ h)
  exact (hfold [] h).resolve_left List.not_mem_nil

/-- The map of a list of pairs has each key once. -/
theorem nodup_keys_ofPairs (pairs : List (String × α)) : (keys (ofPairs pairs)).Nodup := by
  have hfold : ∀ m : List (String × α), (keys m).Nodup →
      (keys (pairs.foldl (fun m (k, v) => put m k v) m)).Nodup := by
    induction pairs with
    | nil => exact fun _ h => h
    | cons p rest ih => exact fun m h => ih _ (nodup_keys_put h)
  exact hfold [] .nil

theorem lookup_putSorted (m : List (String × α)) (k l : String) (v : α) :
    (putSorted m k v).lookup l = if l = k then some v else m.lookup l := by
  induction m with
  | nil => simp [putSorted, lookup_pair]
  | cons p rest ih =>
    obtain ⟨q, w⟩ := p
    by_cases hq : k = q
    · subst hq
      by_cases h : l = k <;> simp [putSorted, lookup_pair, h]
    · by_cases hlt : k < q
      · simp [putSorted, hq, hlt, lookup_pair]
      · by_cases h : l = q
        · subst h
          simp [putSorted, hq, hlt, Ne.symm hq]
        · simp [putSorted, hq, hlt, lookup_pair, h, ih]

theorem mem_putSorted {m : List (String × α)} {k : String} {v : α} {e : String × α}
    (h : e ∈ putSorted m k v) : e = (k, v) ∨ e ∈ m := by
  induction m with
  | nil => exact Or.inl (List.mem_singleton.mp h)
  | cons p rest ih =>
    obtain ⟨l, w⟩ := p
    unfold putSorted at h
    split at h
    · exact (List.mem_cons.mp h).imp_right (List.mem_cons_of_mem _)
    · split at h
      · exact List.mem_cons.mp h
      · rcases List.mem_cons.mp h with rfl | h
        · exact Or.inr List.mem_cons_self
        · exact (ih h).imp_right (List.mem_cons_of_mem _)

theorem mem_keys_putSorted {m : List (String × α)} {k n : String} {v : α} :
    n ∈ keys (putSorted m k v) ↔ n = k ∨ n ∈ keys m := by
  induction m with
  | nil => simp [putSorted, keys]
  | cons p rest ih =>
    obtain ⟨l, w⟩ := p
    unfold putSorted
    split
    · rename_i hl
      subst hl
      simp [keys]
    · split
      · simp [keys]
      · simp only [keys, List.map_cons, List.mem_cons] at ih ⊢
        rw [ih, or_left_comm]

theorem mem_mergeSorted {m other : List (String × α)} {e : String × α}
    (h : e ∈ mergeSorted m other) : e ∈ m ∨ e ∈ other := by
  unfold mergeSorted at h
  induction other generalizing m with
  | nil => exact Or.inl h
  | cons p rest ih =>
    rcases ih h with h | h
    · rcases mem_putSorted h with rfl | h
      · exact Or.inr List.mem_cons_self
      · exact Or.inl h
    · exact Or.inr (List.mem_cons_of_mem _ h)

theorem mem_keys_mergeSorted {m other : List (String × α)} {n : String} :
    n ∈ keys (mergeSorted m other) ↔ n ∈ keys m ∨ n ∈ keys other := by
  unfold mergeSorted
  induction other generalizing m with
  | nil => simp [keys]
  | cons p rest ih =>
    rw [List.foldl_cons, ih, mem_keys_putSorted]
    simp only [keys, List.map_cons, List.mem_cons]
    rw [or_assoc, or_left_comm]

theorem has_iff_mem_keys {m : List (String × α)} {k : String} : has m k = true ↔ k ∈ keys m := by
  induction m with
  | nil => simp [has, keys]
  | cons p rest ih =>
    obtain ⟨l, w⟩ := p
    unfold has at ih ⊢
    rw [lookup_pair]
    by_cases h : k = l
    · simp [h, keys]
    · rw [if_neg h, ih]
      simp [h, keys]

theorem mem_of_lookup {m : List (String × α)} {k : String} {v : α} (h : m.lookup k = some v) :
    (k, v) ∈ m := by
  obtain ⟨before, after, rfl, -⟩ := List.lookup_eq_some_iff.mp h
  exact List.mem_append_right _ List.mem_cons_self

/-! ## Sets of names -/

/-- Adds a name to a sorted list of names without repetitions. -/
def insertName (names : List String) (n : String) : List String :=
  match names with
  | [] => [n]
  | m :: rest =>
    if n = m then m :: rest else if n < m then n :: m :: rest else m :: insertName rest n

/-- The names of a list, sorted and without repetitions. -/
def nameSet (names : List String) : List String := names.foldl insertName []

theorem mem_insertName {names : List String} {n m : String} :
    m ∈ insertName names n ↔ m = n ∨ m ∈ names := by
  induction names with
  | nil => simp [insertName]
  | cons p rest ih =>
    unfold insertName
    split
    · rename_i h
      subst h
      simp
    · split
      · simp
      · simp [ih, or_left_comm]

theorem mem_insertNames {names acc : List String} {n : String} :
    n ∈ names.foldl insertName acc ↔ n ∈ acc ∨ n ∈ names := by
  induction names generalizing acc with
  | nil => simp
  | cons m rest ih => rw [List.foldl_cons, ih, mem_insertName, List.mem_cons, or_assoc, or_left_comm]

theorem mem_nameSet {names : List String} {n : String} : n ∈ nameSet names ↔ n ∈ names := by
  simp [nameSet, mem_insertNames]

end KclModels.Assoc
