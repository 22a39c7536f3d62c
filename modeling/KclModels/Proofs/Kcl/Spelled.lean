import KclModels.Kcl.Declaration
import KclModels.Proofs.Model.Positions

/-!
# What a declaration spells

The models whose types a declaration is written with: those of its attributes, of the parent it
inherits from, of what it allows beyond its attributes, and the models below these through items and
values. Of a composition only the parent's own type is written, and the properties of the other
branches.
-/

namespace KclModels.Kcl

/-- `TypePart a m`: the model `a` is `m` or below it through items and values. -/
inductive TypePart : Model → Model → Prop
  | refl (m : Model) : TypePart m m
  | item {a p m : Model} : m.items = some p → TypePart a p → TypePart a m
  | extraItem {a p m : Model} : m.additionalItems = some p → TypePart a p → TypePart a m
  | value {a p m : Model} : m.additionalProperties = some p → TypePart a p → TypePart a m

/-- The models whose types stand in a declaration by themselves. -/
def spelledHeads (m : Model) : List Model :=
  (m.parentBranch.bind (m.allOf[·]?)).toList ++ attributes m m.parentBranch ++ m.items.toList ++
    m.additionalItems.toList ++ m.additionalProperties.toList

/-- The declaration of `m` spells the type of `a`. -/
def Spelled (m a : Model) : Prop := ∃ h ∈ spelledHeads m, TypePart a h

variable {m a p : Model}

theorem TypePart.within (h : TypePart a m) : a.Within m := by
  induction h with
  | refl => exact .refl _
  | item hp _ ih => exact .part (Model.mem_parts_iff.mpr (Or.inl hp)) ih
  | extraItem hp _ ih => exact .part (Model.mem_parts_iff.mpr (Or.inr (Or.inl hp))) ih
  | value hp _ ih =>
    exact .part (Model.mem_parts_iff.mpr (Or.inr (Or.inr (Or.inr (Or.inr hp))))) ih

theorem mem_firstOfEachName {l : List Model} : ∀ {seen : List String},
    p ∈ firstOfEachName seen l → p ∈ l := by
  induction l with
  | nil => exact fun hp => absurd hp (by simp [firstOfEachName])
  | cons q rest ih =>
    intro seen hp
    rw [firstOfEachName] at hp
    split at hp
    · exact List.mem_cons_of_mem _ (ih hp)
    · rcases List.mem_cons.mp hp with rfl | hp
      · exact List.mem_cons_self
      · exact List.mem_cons_of_mem _ (ih hp)

/-- An attribute is a property of the model itself or of a branch other than the parent. -/
theorem mem_ownAttributes {parent : Option Nat} (h : p ∈ ownAttributes m parent) :
    p ∈ m.properties ∨ ∃ (i : Nat) (b : Model), m.allOf[i]? = some b ∧ parent ≠ some i ∧
      p ∈ b.properties := by
  rcases List.mem_append.mp (mem_firstOfEachName h) with hp | hp
  · exact Or.inl hp
  · obtain ⟨b, hb, hp⟩ := List.mem_flatMap.mp hp
    obtain ⟨⟨b', i⟩, hi, rfl⟩ := List.mem_map.mp hb
    rw [List.mem_filter] at hi
    refine Or.inr ⟨i, b', List.mk_mem_zipIdx_iff_getElem?.mp hi.1, ?_, hp⟩
    simpa using hi.2

/-- Of the attribute for items past the places of a tuple only these refer to anything. -/
theorem restAttribute_parts (h : p ∈ restAttribute? m) (ha : TypePart a p) :
    a.reference = none ∨ ∃ q, m.additionalItems = some q ∧ TypePart a q := by
  unfold restAttribute? at h
  split at h
  · obtain rfl := Option.some.inj h
    cases ha with
    | refl => exact Or.inl rfl
    | item hq ha =>
      obtain rfl := Option.some.inj hq
      cases hm : m.additionalItems with
      -- items that allow anything refer to nothing
      | none =>
        rw [hm] at ha
        cases ha with
        | refl => exact Or.inl rfl
        | item hq _ => simp at hq
        | extraItem hq _ => simp at hq
        | value hq _ => simp at hq
      | some q =>
        rw [hm] at ha
        exact Or.inr ⟨q, rfl, ha⟩
    | extraItem hq _ => simp at hq
    | value hq _ => simp at hq
  · simp at h

/--
**Where a spelled type comes from**: it refers to nothing, or belongs to a part of the model itself
or to a branch.
-/
theorem spelled_cases (h : Spelled m a) :
    a.reference = none ∨ (∃ p ∈ ({ m with allOf := [] } : Model).parts, a.Within p) ∨
      ∃ (i : Nat) (b : Model), m.allOf[i]? = some b ∧
        ((m.parentBranch = some i ∧ a = b) ∨ ∃ p ∈ b.parts, a.Within p) := by
  obtain ⟨q, hq, ha⟩ := h
  have hown : ∀ p, p ∈ ({ m with allOf := [] } : Model).parts → a.Within p →
      ∃ p ∈ ({ m with allOf := [] } : Model).parts, a.Within p := fun p hp hw => ⟨p, hp, hw⟩
  simp only [spelledHeads, List.mem_append, Option.mem_toList, attributes] at hq
  -- the heads in the order in which they are spelled: parent, attributes, rest, items, values
  rcases hq with (((hq | hq | hq) | hq) | hq) | hq
  · obtain ⟨i, hi, hb⟩ := Option.bind_eq_some_iff.mp hq
    refine Or.inr (Or.inr ⟨i, q, hb, ?_⟩)
    cases ha with
    | refl => exact Or.inl ⟨hi, rfl⟩
    | item hp ha => exact Or.inr ⟨_, Model.mem_parts_iff.mpr (Or.inl hp), ha.within⟩
    | extraItem hp ha =>
      exact Or.inr ⟨_, Model.mem_parts_iff.mpr (Or.inr (Or.inl hp)), ha.within⟩
    | value hp ha =>
      exact Or.inr ⟨_, Model.mem_parts_iff.mpr (Or.inr (Or.inr (Or.inr (Or.inr hp)))), ha.within⟩
  · rcases mem_ownAttributes hq with hq | ⟨i, b, hb, -, hq⟩
    · exact Or.inr (Or.inl (hown q (Model.mem_parts_iff.mpr (Or.inr (Or.inr (Or.inl hq))))
        ha.within))
    · exact Or.inr (Or.inr ⟨i, b, hb, Or.inr ⟨q,
        Model.mem_parts_iff.mpr (Or.inr (Or.inr (Or.inl hq))), ha.within⟩⟩)
  · refine (restAttribute_parts hq ha).imp_right fun ⟨p, hp, ha⟩ => Or.inl ?_
    exact hown p (Model.mem_parts_iff.mpr (Or.inr (Or.inl hp))) ha.within
  · exact Or.inr (Or.inl (hown q (Model.mem_parts_iff.mpr (Or.inl hq)) ha.within))
  · exact Or.inr (Or.inl (hown q (Model.mem_parts_iff.mpr (Or.inr (Or.inl hq))) ha.within))
  · exact Or.inr (Or.inl (hown q
      (Model.mem_parts_iff.mpr (Or.inr (Or.inr (Or.inr (Or.inr hq))))) ha.within))

end KclModels.Kcl
