/-!
# Sorting

Sorting by insertion: each element goes before the first one that it may stand before, so elements
that may stand in either order keep theirs.
-/

namespace KclModels

variable {α : Type}

/-- Puts an element before the first one that it may stand before. -/
def insertBy (le : α → α → Bool) (a : α) : List α → List α
  | [] => [a]
  | b :: rest => if le a b then a :: b :: rest else b :: insertBy le a rest

/-- The elements of a list in order. -/
def sortBy (le : α → α → Bool) : List α → List α
  | [] => []
  | a :: rest => insertBy le a (sortBy le rest)

theorem insertBy_perm (le : α → α → Bool) (a : α) (l : List α) : (insertBy le a l).Perm (a :: l) := by
  induction l with
  | nil => exact .refl _
  | cons b rest ih =>
    unfold insertBy
    split
    · exact .refl _
    · exact (ih.cons b).trans (.swap a b rest)

theorem sortBy_perm (le : α → α → Bool) (l : List α) : (sortBy le l).Perm l := by
  induction l with
  | nil => exact .refl _
  | cons a rest ih => exact (insertBy_perm le a _).trans (ih.cons a)

/-- `le` puts any two elements in some order, and does so without contradiction. -/
structure Orders (le : α → α → Bool) : Prop where
  total : ∀ a b, le a b = true ∨ le b a = true
  trans : ∀ a b c, le a b = true → le b c = true → le a c = true

theorem insertBy_pairwise {le : α → α → Bool} (h : Orders le) {a : α} {l : List α}
    (hl : l.Pairwise (le · · = true)) : (insertBy le a l).Pairwise (le · · = true) := by
  induction l with
  | nil => exact List.pairwise_singleton _ _
  | cons b rest ih =>
    obtain ⟨hb, hrest⟩ := List.pairwise_cons.mp hl
    unfold insertBy
    split
    · rename_i hle
      refine List.pairwise_cons.mpr ⟨fun d hd => ?_, hl⟩
      rcases List.mem_cons.mp hd with rfl | hd
      · exact hle
      · exact h.trans _ _ _ hle (hb d hd)
    · rename_i hle
      refine List.pairwise_cons.mpr ⟨fun d hd => ?_, ih hrest⟩
      rcases List.mem_cons.mp ((insertBy_perm le a rest).mem_iff.mp hd) with rfl | hd
      · exact (h.total d b).resolve_left hle
      · exact hb d hd

/-- The elements are in order. -/
theorem sortBy_pairwise {le : α → α → Bool} (h : Orders le) (l : List α) :
    (sortBy le l).Pairwise (le · · = true) := by
  induction l with
  | nil => exact .nil
  | cons a rest ih => exact insertBy_pairwise h ih

@[simp]
theorem mem_sortBy {le : α → α → Bool} {l : List α} {a : α} : a ∈ sortBy le l ↔ a ∈ l :=
  (sortBy_perm le l).mem_iff

/-! ## What keeps its order -/

theorem sublist_insertBy (le : α → α → Bool) (a : α) (l : List α) : l.Sublist (insertBy le a l) := by
  induction l with
  | nil => exact List.nil_sublist _
  | cons b rest ih =>
    unfold insertBy
    split
    · exact List.sublist_cons_self a _
    · exact ih.cons_cons b

theorem cons_sublist_insertBy {le : α → α → Bool} {a : α} {l part : List α}
    (ha : ∀ b ∈ part, le a b = true) (h : part.Sublist l) :
    (a :: part).Sublist (insertBy le a l) := by
  induction l with
  | nil =>
    rw [List.sublist_nil.mp h]
    exact .refl _
  | cons b rest ih =>
    unfold insertBy
    by_cases hle : le a b = true
    · rw [if_pos hle]
      exact h.cons_cons a
    · -- `a` goes behind `b`, so `b` is not in the part
      rw [if_neg hle]
      cases h with
      | cons _ h => exact (ih h).cons b
      | cons_cons _ h => exact absurd (ha b List.mem_cons_self) hle

/-- **Elements that are in order keep it**, also those that may stand in either order. -/
theorem sublist_sortBy {le : α → α → Bool} {l part : List α}
    (hpart : part.Pairwise (le · · = true)) (h : part.Sublist l) : part.Sublist (sortBy le l) := by
  induction l generalizing part with
  | nil => exact h
  | cons a rest ih =>
    cases h with
    | cons _ h => exact (ih hpart h).trans (sublist_insertBy le a _)
    | cons_cons _ h =>
      obtain ⟨ha, hrest⟩ := List.pairwise_cons.mp hpart
      exact cons_sublist_insertBy ha (ih hrest h)

/-- A list that is in order stays as it is. -/
theorem sortBy_of_pairwise {le : α → α → Bool} {l : List α} (h : l.Pairwise (le · · = true)) :
    sortBy le l = l :=
  ((sublist_sortBy h (.refl l)).eq_of_length (sortBy_perm le l).length_eq.symm).symm

/-- Where only equal elements may stand in either order, the order of the list does not matter. -/
theorem sortBy_eq_of_perm {le : α → α → Bool} (h : Orders le) {l l' : List α} (hperm : l'.Perm l)
    (hanti : ∀ a ∈ l, ∀ b ∈ l, le a b = true → le b a = true → a = b) :
    sortBy le l' = sortBy le l := by
  refine List.Perm.eq_of_pairwise (fun a b ha hb => ?_) (sortBy_pairwise h l')
    (sortBy_pairwise h l) (((sortBy_perm le l').trans hperm).trans (sortBy_perm le l).symm)
  exact hanti a (hperm.mem_iff.mp (mem_sortBy.mp ha)) b (mem_sortBy.mp hb)

end KclModels
