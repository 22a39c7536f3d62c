import KclModels.Proofs.Schema.Within

/-!
# The size of schemas

The size of a schema counts the schemas in it. Each schema in it is smaller, and a reference is as
small as a schema can be, so putting a reference in place of a part never makes a schema larger.

Two more things count for how far a schema can be taken apart: whether anything in it is taken apart
at all (it is not `Inert`), and whether it still has a schema of its elements that is no reference
(it `Opens`).
-/

namespace KclModels.Schema

variable {c d : Schema}

theorem listSize_append (l l' : List Schema) : listSize (l ++ l') = listSize l + listSize l' := by
  induction l with
  | nil => rw [List.nil_append, listSize, Nat.zero_add]
  | cons s rest ih => rw [List.cons_append, listSize, listSize, ih, Nat.add_assoc]

theorem size_le_listSize {l : List Schema} (h : c ∈ l) : c.size ≤ listSize l := by
  induction l with
  | nil => exact absurd h List.not_mem_nil
  | cons s rest ih =>
    rw [listSize]
    rcases List.mem_cons.mp h with rfl | h
    · omega
    · have := ih h
      omega

theorem propertiesSize_eq (properties : List (String × Schema)) :
    propertiesSize properties = listSize (properties.map Prod.snd) := by
  induction properties with
  | nil => rfl
  | cons entry rest ih => rw [propertiesSize, ih, List.map_cons, listSize]

theorem extraSize_eq (e : Option (Extra Schema)) :
    extraSize e = listSize (e.bind Extra.schema?).toList := by
  match e with
  | none => rfl
  | some (.flag _) => rfl
  | some (.schema s) => exact (Nat.add_zero _).symm

theorem itemsSize_eq (s : Schema) : itemsSize s.items = listSize s.itemSchemas := by
  unfold itemSchemas
  match s.items with
  | none => rfl
  | some (.single item) => exact (Nat.add_zero _).symm
  | some (.tuple schemas) => rfl

theorem size_eq_parts (s : Schema) : s.size = 1 + propertiesSize s.properties +
    listSize s.allOf + itemsSize s.items + extraSize s.additionalProperties +
    extraSize s.additionalItems := by
  obtain ⟨keywords, properties, allOf, items, value, extraItems⟩ := s
  rw [size]

theorem size_eq (s : Schema) : s.size = 1 + listSize s.children := by
  rw [size_eq_parts, propertiesSize_eq, itemsSize_eq, extraSize_eq, extraSize_eq, children]
  simp only [listSize_append]
  omega

theorem size_pos (s : Schema) : 0 < s.size := by
  rw [size_eq]
  omega

/-- **A schema in a schema is smaller.** -/
theorem size_lt_of_child (h : c ∈ d.children) : c.size < d.size := by
  have hle := size_le_listSize h
  rw [size_eq d]
  omega

/-- To show something of a schema, it may be assumed of the schemas in it. -/
theorem children_induction {P : Schema → Prop}
    (step : ∀ s : Schema, (∀ c ∈ s.children, P c) → P s) (s : Schema) : P s := by
  have hsize : ∀ n, ∀ s : Schema, s.size < n → P s := by
    intro n
    induction n with
    | zero => exact fun _ hs => absurd hs (Nat.not_lt_zero _)
    | succ n ih =>
      intro s hs
      exact step s fun c hc => ih c (by have := size_lt_of_child hc; omega)
  exact hsize _ s (Nat.lt_succ_self _)

@[simp]
theorem size_referenceTo (n : String) : (referenceTo n).size = 1 := rfl

/-! ## What is taken apart -/

/-- Nothing in the schema is taken apart, and nothing is allowed beyond what it says. -/
structure Inert (c : Schema) : Prop where
  children : c.children = []
  items : c.items = none
  values : c.hasAdditionalProperties = false
  extraItems : c.hasAdditionalItems = false

/-- The schema has a schema of its elements that is no reference. -/
def Opens (c : Schema) : Prop := ∃ item, c.items = some (.single item) ∧ item.reference = none

instance : Decidable c.Inert :=
  decidable_of_iff (c.children.isEmpty = true ∧ c.items.isNone = true ∧
      c.hasAdditionalProperties = false ∧ c.hasAdditionalItems = false)
    ⟨fun ⟨hc, hi, hv, hx⟩ => ⟨List.isEmpty_iff.mp hc, Option.isNone_iff_eq_none.mp hi, hv, hx⟩,
      fun h => ⟨List.isEmpty_iff.mpr h.children, Option.isNone_iff_eq_none.mpr h.items, h.values,
        h.extraItems⟩⟩

theorem opens_iff : c.Opens ↔ c.singleItem?.any (·.reference.isNone) = true := by
  unfold Opens singleItem?
  split
  · rename_i item hitem
    simp [hitem]
  · rename_i hno
    constructor
    · rintro ⟨item, hitem, -⟩
      exact (hno item hitem).elim
    · exact fun h => absurd h (by simp)

instance : Decidable c.Opens := decidable_of_iff _ opens_iff.symm

theorem inert_referenceTo (n : String) : (referenceTo n).Inert := ⟨rfl, rfl, rfl, rfl⟩

theorem inert_typed (type : String) : (typed type).Inert := ⟨rfl, rfl, rfl, rfl⟩

theorem not_inert_of_child (h : c ∈ d.children) : ¬ d.Inert := by
  intro hd
  rw [hd.children] at h
  exact absurd h List.not_mem_nil

theorem not_inert_of_size_lt (h : c.size < d.size) : ¬ d.Inert := by
  intro hd
  have hpos := size_pos c
  rw [size_eq d, hd.children, listSize] at h
  omega

theorem Opens.not_inert (h : c.Opens) : ¬ c.Inert := by
  intro hc
  obtain ⟨item, hitem, -⟩ := h
  rw [hc.items] at hitem
  exact absurd hitem (by simp)

theorem not_opens_of_items (h : ∀ item, c.items ≠ some (.single item)) : ¬ c.Opens :=
  fun ⟨item, hitem, _⟩ => h item hitem

/-! ## Schemas that become no larger -/

/--
The schema `d` is what became of `c` while it was taken apart. If it is still as large, and there is
something left to take apart, only parts of it are others.
-/
structure Shrinks (c d : Schema) : Prop where
  size_le : d.size ≤ c.size
  inert : c.Inert → d.Inert
  same : d.size = c.size → ¬ d.Inert → d.reference = c.reference ∧ (d.Opens → c.Opens)

variable {e : Schema}

theorem Shrinks.refl (c : Schema) : Shrinks c c where
  size_le := Nat.le_refl _
  inert := id
  same _ _ := ⟨rfl, id⟩

theorem Shrinks.trans (h : Shrinks c d) (h' : Shrinks d e) : Shrinks c e where
  size_le := Nat.le_trans h'.size_le h.size_le
  inert hc := h'.inert (h.inert hc)
  same hsize he := by
    have hle := h.size_le
    have hle' := h'.size_le
    obtain ⟨href, hopen⟩ := h.same (by omega) fun hd => he (h'.inert hd)
    obtain ⟨href', hopen'⟩ := h'.same (by omega) he
    exact ⟨href'.trans href, fun hopens => hopen (hopen' hopens)⟩

theorem shrinks_of_inert (hsize : d.size ≤ c.size) (hd : d.Inert) : Shrinks c d where
  size_le := hsize
  inert _ := hd
  same _ hnot := absurd hd hnot

theorem shrinks_child (h : d ∈ c.children) : Shrinks c d where
  size_le := Nat.le_of_lt (size_lt_of_child h)
  inert hc := absurd hc (not_inert_of_child h)
  same hsize := absurd hsize (Nat.ne_of_lt (size_lt_of_child h))

theorem listSize_set_le {l : List Schema} {i : Nat} (hd : d.size = 1) :
    listSize (l.set i d) ≤ listSize l := by
  induction l generalizing i with
  | nil => exact Nat.le_refl _
  | cons s rest ih =>
    cases i with
    | zero =>
      have := size_pos s
      rw [List.set_cons_zero, listSize, listSize]
      omega
    | succ i =>
      have := ih (i := i)
      rw [List.set_cons_succ, listSize, listSize]
      omega

/-- A reference in place of a branch. -/
theorem shrinks_branch (c : Schema) (i : Nat) (n : String) :
    Shrinks c { c with allOf := c.allOf.set i (referenceTo n) } where
  same _ _ := ⟨rfl, id⟩
  size_le := by
    have := listSize_set_le (l := c.allOf) (i := i) (size_referenceTo n)
    rw [size_eq_parts, size_eq_parts c]
    simp only
    omega
  inert hc := by
    have hnil : c.allOf = [] := by
      refine List.eq_nil_iff_forall_not_mem.mpr fun d hd => ?_
      exact not_inert_of_child (branch_mem_children hd) hc
    rw [hnil, List.set_nil, ← hnil]
    exact ⟨hc.children, hc.items, hc.values, hc.extraItems⟩

/-- A smaller schema in place of that of the values. -/
theorem shrinks_value {v w : Schema} (hv : c.additionalProperties = some (.schema v))
    (hw : w.size ≤ v.size) : Shrinks c { c with additionalProperties := some (.schema w) } where
  same _ _ := ⟨rfl, id⟩
  size_le := by
    rw [size_eq_parts, size_eq_parts c, hv]
    simp only [extraSize]
    omega
  inert hc := absurd hc (not_inert_of_child (value_mem_children hv))

/-- A reference in place of the schema of the additional items. -/
theorem shrinks_extraItem {v : Schema} {n : String} (hv : c.additionalItems = some (.schema v)) :
    Shrinks c { c with additionalItems := some (.schema (referenceTo n)) } where
  same _ _ := ⟨rfl, id⟩
  size_le := by
    have := size_pos v
    rw [size_eq_parts, size_eq_parts c, hv]
    simp only [extraSize, size_referenceTo]
    omega
  inert hc := absurd hc (not_inert_of_child (extraItem_mem_children hv))

/-- A reference in place of the schema of the elements. -/
theorem shrinks_item {item : Schema} {n : String} (hi : c.items = some (.single item)) :
    Shrinks c { c with items := some (.single (referenceTo n)) } where
  size_le := by
    have := size_pos item
    rw [size_eq_parts, size_eq_parts c, hi]
    simp only [itemsSize, size_referenceTo]
    omega
  same _ _ := by
    refine ⟨rfl, ?_⟩
    rintro ⟨item', hitem', hnone⟩
    simp only [Option.some.injEq, Items.single.injEq] at hitem'
    rw [← hitem'] at hnone
    exact absurd hnone (by simp [referenceTo])
  inert hc := absurd hc (not_inert_of_child (item_mem_children hi))

end KclModels.Schema
