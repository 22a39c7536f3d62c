import KclModels.Schema.Basic

/-!
# Schemas inside schemas

A schema holds others at any depth, through its properties, branches, items, values and additional
items. What is said of all of them is said of the schema and of everywhere in its children; that is
how it is used, since building goes from a schema to its children.
-/

namespace KclModels.Schema

/-- `t.Within s`: the schema `t` is `s` or stands somewhere in it. -/
inductive Within : Schema → Schema → Prop
  | refl (s : Schema) : Within s s
  | child {t c s : Schema} : c ∈ s.children → Within t c → Within t s

/-- What holds of a schema and of all schemas in it. -/
def Everywhere (P : Schema → Prop) (s : Schema) : Prop := ∀ t : Schema, t.Within s → P t

theorem Within.trans {t u s : Schema} (h : t.Within u) (h' : u.Within s) : t.Within s := by
  induction h' with
  | refl => exact h
  | child hmem _ ih => exact .child hmem ih

theorem Within.of_child {t d c : Schema} (h : t.Within d) (hd : d ∈ c.children) : t.Within c :=
  .child hd h

variable {P Q : Schema → Prop} {s c : Schema}

theorem Everywhere.here (h : s.Everywhere P) : P s := h s (.refl s)

theorem Everywhere.child (h : s.Everywhere P) (hc : c ∈ s.children) : c.Everywhere P :=
  fun t ht => h t (.child hc ht)

theorem everywhere_of_children (hs : P s) (hc : ∀ c ∈ s.children, c.Everywhere P) :
    s.Everywhere P := by
  intro t ht
  cases ht with
  | refl => exact hs
  | child hmem ht => exact hc _ hmem t ht

theorem Everywhere.mono (h : s.Everywhere P) (hPQ : ∀ t, P t → Q t) : s.Everywhere Q :=
  fun t ht => hPQ t (h t ht)

/-! ## Children -/

theorem mem_children_iff :
    c ∈ s.children ↔ (∃ n, (n, c) ∈ s.properties) ∨ c ∈ s.allOf ∨
      s.items = some (.single c) ∨ (∃ l, s.items = some (.tuple l) ∧ c ∈ l) ∨
      s.additionalProperties = some (.schema c) ∨ s.additionalItems = some (.schema c) := by
  have hextra : ∀ e : Option (Extra Schema),
      c ∈ (e.bind Extra.schema?).toList ↔ e = some (.schema c) := by
    intro e
    match e with
    | none => simp
    | some (.flag b) => simp [Extra.schema?]
    | some (.schema d) => simp [Extra.schema?, eq_comm]
  have hitems : c ∈ s.itemSchemas ↔
      s.items = some (.single c) ∨ ∃ l, s.items = some (.tuple l) ∧ c ∈ l := by
    unfold itemSchemas
    split <;> rename_i h <;> simp [h, eq_comm]
  unfold children
  rw [List.mem_append, List.mem_append, List.mem_append, List.mem_append, hextra, hextra, hitems]
  simp [or_assoc]

theorem property_mem_children {n : String} (h : (n, c) ∈ s.properties) : c ∈ s.children :=
  Iff.mpr mem_children_iff (.inl ⟨n, h⟩)

theorem branch_mem_children (h : c ∈ s.allOf) : c ∈ s.children :=
  Iff.mpr mem_children_iff (.inr (.inl h))

theorem item_mem_children (h : s.items = some (.single c)) : c ∈ s.children :=
  Iff.mpr mem_children_iff (.inr (.inr (.inl h)))

theorem place_mem_children {l : List Schema} (h : s.items = some (.tuple l)) (hc : c ∈ l) :
    c ∈ s.children :=
  Iff.mpr mem_children_iff (.inr (.inr (.inr (.inl ⟨l, h, hc⟩))))

theorem value_mem_children (h : s.additionalProperties = some (.schema c)) : c ∈ s.children :=
  Iff.mpr mem_children_iff (.inr (.inr (.inr (.inr (.inl h)))))

theorem extraItem_mem_children (h : s.additionalItems = some (.schema c)) : c ∈ s.children :=
  Iff.mpr mem_children_iff (.inr (.inr (.inr (.inr (.inr h)))))

theorem items_of_singleItem? (h : s.singleItem? = some c) : s.items = some (.single c) := by
  unfold singleItem? at h
  split at h
  · rename_i item hitem
    rw [hitem, Option.some.inj h]
  · simp at h

theorem items_eq_none (hsingle : s.singleItem? = none) (htuple : s.tupleItems? = none) :
    s.items = none := by
  unfold singleItem? at hsingle
  unfold tupleItems? at htuple
  rcases hitems : s.items with _ | item | places
  · rfl
  · simp [hitems] at hsingle
  · simp [hitems] at htuple

theorem value_of_extraValue? (h : s.extraValue? = some c) :
    s.additionalProperties = some (.schema c) := by
  obtain ⟨extra, hextra, hc⟩ := Option.bind_eq_some_iff.mp h
  match extra with
  | .flag _ => simp [Extra.schema?] at hc
  | .schema v => rw [hextra, Option.some.inj hc]

theorem children_referenceTo (n : String) : (referenceTo n).children = [] := rfl

theorem children_typed (type : String) : (typed type).children = [] := rfl

/-! ### Other schemas in the place of parts -/

variable {d e : Schema}

theorem getElem?_setBranch {i j : Nat} (h : (c.allOf.set i d)[j]? = some e) :
    c.allOf[j]? = some e ∨ e = d := by
  rw [List.getElem?_set] at h
  split at h
  · split at h
    · exact Or.inr (Option.some.inj h).symm
    · exact absurd h (by simp)
  · exact Or.inl h

theorem mem_children_setBranch {i : Nat}
    (h : e ∈ ({ c with allOf := c.allOf.set i d } : Schema).children) : e ∈ c.children ∨ e = d := by
  rw [mem_children_iff] at h
  rcases h with h | h | h
  · exact Or.inl (Iff.mpr mem_children_iff (Or.inl h))
  · exact (List.mem_or_eq_of_mem_set h).imp_left branch_mem_children
  · exact Or.inl (Iff.mpr mem_children_iff (Or.inr (Or.inr h)))

theorem mem_children_setItem
    (h : e ∈ ({ c with items := some (.single d) } : Schema).children) : e ∈ c.children ∨ e = d := by
  rw [mem_children_iff] at h
  rcases h with h | h | h | ⟨l, hl, -⟩ | h
  · exact Or.inl (Iff.mpr mem_children_iff (Or.inl h))
  · exact Or.inl (branch_mem_children h)
  · exact Or.inr (by simpa using h.symm)
  · exact absurd hl (by simp)
  · exact Or.inl (Iff.mpr mem_children_iff (Or.inr (Or.inr (Or.inr (Or.inr h)))))

theorem mem_children_setValue
    (h : e ∈ ({ c with additionalProperties := some (.schema d) } : Schema).children) :
    e ∈ c.children ∨ e = d := by
  rw [mem_children_iff] at h
  rcases h with h | h | h | ⟨l, hl, h⟩ | h | h
  · exact Or.inl (Iff.mpr mem_children_iff (Or.inl h))
  · exact Or.inl (branch_mem_children h)
  · exact Or.inl (item_mem_children h)
  · exact Or.inl (place_mem_children hl h)
  · exact Or.inr (by simpa using h.symm)
  · exact Or.inl (extraItem_mem_children h)

theorem mem_children_setExtraItem
    (h : e ∈ ({ c with additionalItems := some (.schema d) } : Schema).children) :
    e ∈ c.children ∨ e = d := by
  rw [mem_children_iff] at h
  rcases h with h | h | h | ⟨l, hl, h⟩ | h | h
  · exact Or.inl (Iff.mpr mem_children_iff (Or.inl h))
  · exact Or.inl (branch_mem_children h)
  · exact Or.inl (item_mem_children h)
  · exact Or.inl (place_mem_children hl h)
  · exact Or.inl (value_mem_children h)
  · exact Or.inr (by simpa using h.symm)

/-- A child is a branch, or a child of what there is beside the branches. -/
theorem mem_children_or_beside (h : d ∈ c.children) :
    d ∈ c.allOf ∨ d ∈ ({ c with allOf := [] } : Schema).children := by
  rw [mem_children_iff] at h
  rcases h with h | h | h
  · exact Or.inr (Iff.mpr mem_children_iff (Or.inl h))
  · exact Or.inl h
  · exact Or.inr (Iff.mpr mem_children_iff (Or.inr (Or.inr h)))

theorem mem_children_of_beside (h : d ∈ ({ c with allOf := [] } : Schema).children) :
    d ∈ c.children := by
  rw [mem_children_iff] at h
  rcases h with h | h | h
  · exact Iff.mpr mem_children_iff (Or.inl h)
  · exact absurd h List.not_mem_nil
  · exact Iff.mpr mem_children_iff (Or.inr (Or.inr h))

theorem eq_with_allOf {l : List Schema} (h : c.allOf = l) : c = { c with allOf := l } := by
  subst h
  cases c
  rfl

theorem exists_additionalProperties (s : Schema) :
    ∃ additionalProperties, s = { s with additionalProperties } := by
  cases s
  exact ⟨_, rfl⟩

theorem exists_additionalItems (s : Schema) : ∃ additionalItems, s = { s with additionalItems } := by
  obtain ⟨keywords, properties, allOf, items, value, extraItems⟩ := s
  exact ⟨extraItems, rfl⟩

/-! ## Checking a schema with all schemas in it -/

mutual

/-- Checks a schema and all schemas in it. -/
def all (p : Schema → Bool) : Schema → Bool
  | ⟨keywords, properties, allOf, items, value, extraItems⟩ =>
    p ⟨keywords, properties, allOf, items, value, extraItems⟩ && allProperties p properties &&
      allList p allOf && allItems p items && allExtra p value && allExtra p extraItems

def allProperties (p : Schema → Bool) : List (String × Schema) → Bool
  | [] => true
  | (_, s) :: rest => all p s && allProperties p rest

def allList (p : Schema → Bool) : List Schema → Bool
  | [] => true
  | s :: rest => all p s && allList p rest

def allItems (p : Schema → Bool) : Option (Items Schema) → Bool
  | none => true
  | some (.single s) => all p s
  | some (.tuple schemas) => allList p schemas

def allExtra (p : Schema → Bool) : Option (Extra Schema) → Bool
  | some (.schema s) => all p s
  | _ => true

end

variable {p : Schema → Bool}

theorem allProperties_eq (properties : List (String × Schema)) :
    allProperties p properties = (properties.map Prod.snd).all (all p) := by
  induction properties with
  | nil => rfl
  | cons entry rest ih => rw [allProperties, ih, List.map_cons, List.all_cons]

theorem allList_eq (l : List Schema) : allList p l = l.all (all p) := by
  induction l with
  | nil => rfl
  | cons s rest ih => rw [allList, ih, List.all_cons]

theorem allExtra_eq (e : Option (Extra Schema)) :
    allExtra p e = (e.bind Extra.schema?).toList.all (all p) := by
  match e with
  | none => rfl
  | some (.flag _) => rfl
  | some (.schema s) => exact (Bool.and_true _).symm

theorem all_eq (s : Schema) : all p s = (p s && s.children.all (all p)) := by
  obtain ⟨keywords, properties, allOf, items, value, extraItems⟩ := s
  have hitems : ∀ s : Schema, allItems p s.items = s.itemSchemas.all (all p) := by
    intro s
    unfold itemSchemas
    match s.items with
    | none => rfl
    | some (.single item) => exact (Bool.and_true _).symm
    | some (.tuple schemas) => exact allList_eq schemas
  rw [all, allProperties_eq, allList_eq, allExtra_eq, allExtra_eq,
    hitems ⟨keywords, properties, allOf, items, value, extraItems⟩]
  simp only [children, List.all_append, Bool.and_assoc]

/-- The check finds out what holds everywhere. -/
theorem everywhere_of_all (h : all p s = true) : s.Everywhere fun t => p t = true := by
  intro t ht
  induction ht with
  | refl =>
    rw [all_eq, Bool.and_eq_true] at h
    exact h.1
  | child hc _ ih =>
    rw [all_eq, Bool.and_eq_true, List.all_eq_true] at h
    exact ih (h.2 _ hc)

/-! ## Maps of maps -/

theorem size_lt_of_value {v next : Schema} (h : v.additionalProperties = some (.schema next)) :
    next.size < v.size := by
  obtain ⟨keywords, properties, allOf, items, value, extraItems⟩ := v
  obtain rfl : value = some (.schema next) := h
  rw [size, extraSize]
  omega

/-- To show something of a schema, it may be assumed of the schema of the values. -/
theorem value_induction {P : Schema → Prop}
    (step : ∀ v : Schema, (∀ next, v.additionalProperties = some (.schema next) → P next) → P v)
    (v : Schema) : P v := by
  have hsize : ∀ n, ∀ v : Schema, v.size < n → P v := by
    intro n
    induction n with
    | zero => exact fun _ hv => absurd hv (Nat.not_lt_zero _)
    | succ n ih =>
      intro v hv
      exact step v fun next hnext => ih next (by have := size_lt_of_value hnext; omega)
  exact hsize _ v (Nat.lt_succ_self _)

end KclModels.Schema
