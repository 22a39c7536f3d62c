import KclModels.Proofs.Registry.Grounded
import KclModels.Proofs.Resolve.Records

/-!
# Compositions of objects

What a schema declares: the names of its properties, what the branches of its composition declare,
and for a reference what its target declares. A schema is composed of objects if each branch is one
or a reference to one, and it is shallow if its branches are objects with nothing below them.
-/

namespace KclModels

namespace Schema

/-- A reference beside which nothing is declared. -/
structure Solitary (c : Schema) : Prop where
  reference : c.reference.isSome = true
  properties : c.properties = []
  allOf : c.allOf = []
  items : c.items = none
  values : c.additionalProperties = none
  extraItems : c.additionalItems = none

/-- The schema holds no other schema. -/
structure Childless (c : Schema) : Prop where
  properties : c.properties = []
  allOf : c.allOf = []
  items : c.items = none
  values : c.additionalProperties = none
  extraItems : c.additionalItems = none

theorem Solitary.childless {c : Schema} (h : c.Solitary) : c.Childless :=
  ⟨h.properties, h.allOf, h.items, h.values, h.extraItems⟩

theorem solitary_referenceTo (n : String) : (referenceTo n).Solitary :=
  ⟨rfl, rfl, rfl, rfl, rfl, rfl⟩

/-- A branch of a composition of objects: an object, or a reference beside which nothing is. -/
inductive IsBranch (b : Schema) : Prop
  | solitary : b.Solitary → IsBranch b
  | object : b.reference = none → b.saysObject = true → b.items = none → IsBranch b

/-- An object that is composed of objects. -/
structure Composed (c : Schema) : Prop where
  reference : c.reference = none
  object : c.saysObject = true
  items : c.items = none
  branches : ∀ b ∈ c.allOf, b.IsBranch

/-- An object whose branches are objects without branches and without values beside their own. -/
structure Shallow (c : Schema) : Prop extends Composed c where
  flat : ∀ b ∈ c.allOf, b.reference = none ∧ b.allOf = [] ∧ b.extraValue? = none

theorem isScalar_of_saysObject {c : Schema} (h : c.saysObject = true) : c.isScalar = false := by
  rw [isScalar, h]
  rfl

/-- Whether a schema says that it is an object depends on its plain keywords alone. -/
theorem saysObject_congr {c d : Schema} (h : c.toKeywords = d.toKeywords) :
    c.saysObject = d.saysObject := by
  obtain ⟨keywords⟩ := c
  obtain ⟨keywords'⟩ := d
  obtain rfl : keywords = keywords' := h
  rfl

/-- Whether a schema declares something depends on the count of its branches only. -/
theorem isRecord_with_allOf {c : Schema} {l : List Schema} (hlen : l.length = c.allOf.length) :
    ({ c with allOf := l } : Schema).isRecord = c.isRecord := by
  have hempty : l.isEmpty = c.allOf.isEmpty := by
    rw [Bool.eq_iff_iff, List.isEmpty_iff_length_eq_zero, List.isEmpty_iff_length_eq_zero, hlen]
  rw [isRecord, isRecord, hempty]
  rfl

theorem exists_allOf (c : Schema) :
    ∃ l, c = { c with allOf := l } ∧ l.length = c.allOf.length := by
  refine ⟨c.allOf, ?_, rfl⟩
  cases c
  rfl

end Schema

namespace Definitions

variable {defs : Definitions} {c d e b : Schema} {x : String}

/-- What a schema declares, over any depth of composition. -/
inductive Declares (defs : Definitions) : Schema → String → Prop
  | own {c : Schema} {x : String} : c.reference = none → x ∈ Assoc.keys c.properties →
      Declares defs c x
  | branch {c b : Schema} {x : String} : c.reference = none → b ∈ c.allOf → Declares defs b x →
      Declares defs c x
  | target {c d : Schema} {reference n x : String} : c.reference = some reference →
      Reference.name? reference = some n → defs.lookup n = some d → Declares defs d x →
      Declares defs c x

/-- The schema at the end of the references that begin with the schema `c`. -/
inductive Ends (defs : Definitions) : Schema → Schema → Prop
  | here {c : Schema} : c.reference = none → Ends defs c c
  | next {c d e : Schema} {reference n : String} : c.reference = some reference →
      Reference.name? reference = some n → defs.lookup n = some d → Ends defs d e → Ends defs c e

theorem Ends.reference (h : defs.Ends c d) : d.reference = none := by
  induction h with
  | here hnone => exact hnone
  | next _ _ _ _ ih => exact ih

theorem Ends.of_inline (h : defs.Ends c d) (hnone : c.reference = none) : d = c := by
  cases h with
  | here => rfl
  | next href => exact absurd (hnone.symm.trans href) (by simp)

theorem Ends.unique (h : defs.Ends c d) (h' : defs.Ends c e) : d = e := by
  induction h with
  | here hnone => exact (h'.of_inline hnone).symm
  | next href hn hd _ ih =>
    cases h' with
    | here hnone => exact absurd (hnone.symm.trans href) (by simp)
    | next href' hn' hd' htail =>
      obtain rfl := Option.some.inj (href.symm.trans href')
      obtain rfl := Option.some.inj (hn.symm.trans hn')
      obtain rfl := Option.some.inj (hd.symm.trans hd')
      exact ih htail

/-- What is declared is declared by the schema at the end of the references. -/
theorem Declares.exists_end (h : defs.Declares c x) : ∃ d, defs.Ends c d ∧ defs.Declares d x := by
  induction h with
  | own href hx => exact ⟨_, .here href, .own href hx⟩
  | branch href hb hx _ => exact ⟨_, .here href, .branch href hb hx⟩
  | target href hn hd _ ih =>
    obtain ⟨e, he, hx⟩ := ih
    exact ⟨e, .next href hn hd he, hx⟩

theorem Ends.declares (h : defs.Ends c d) (hx : defs.Declares d x) : defs.Declares c x := by
  induction h with
  | here _ => exact hx
  | next href hn hd _ ih => exact .target href hn hd (ih hx)

/-- Following references in the definitions is following them among all that is known. -/
theorem ends_of_leads {r : Registry} (hr : ∀ n d, r.get? n = some d → defs.lookup n = some d)
    {reference : String} (h : r.Leads reference d) (href : c.reference = some reference) :
    defs.Ends c d := by
  induction h generalizing c with
  | stop hn hc hnone => exact .next href hn (hr _ _ hc) (.here hnone)
  | next hn hc hnext _ ih => exact .next href hn (hr _ _ hc) (ih hnext)

/-- What a reference ends at in the definitions is found at the end of the chain that is followed. -/
theorem Ends.leads {r : Registry} (h : defs.Ends c d)
    (hr : ∀ n d, defs.lookup n = some d → r.get? n = some d) {reference : String}
    (href : c.reference = some reference) : r.Leads reference d := by
  induction h generalizing reference with
  | here hnone => exact absurd (hnone.symm.trans href) (by simp)
  | @next c d e next n hnext hn hget htail ih =>
    obtain rfl := Option.some.inj (hnext.symm.trans href)
    have hstored := hr n d hget
    cases hlast : d.reference with
    | none => exact htail.of_inline hlast ▸ .stop hn hstored hlast
    | some reference' => exact .next hn hstored hlast (ih hlast)

/-- What a schema declares that has no branches or whose branches have none. -/
theorem Declares.of_shallow (h : defs.Declares c x) (hc : c.Shallow) :
    x ∈ Assoc.keys c.properties ∨ ∃ b ∈ c.allOf, x ∈ Assoc.keys b.properties := by
  cases h with
  | own _ hx => exact .inl hx
  | branch _ hb hx =>
    refine .inr ⟨_, hb, ?_⟩
    obtain ⟨href, hall, -⟩ := hc.flat _ hb
    cases hx with
    | own _ hx => exact hx
    | branch _ hmem _ => exact absurd hmem (by simp [hall])
    | target href' => exact absurd (href.symm.trans href') (by simp)
  | target href => exact absurd (hc.reference.symm.trans href) (by simp)

/-- An object that declares something is a record. -/
theorem Declares.isRecord (h : defs.Declares c x) (hc : c.Composed) : c.isRecord = true := by
  rw [Schema.isRecord, hc.object, Bool.true_and, Bool.or_eq_true]
  cases h with
  | own _ hx =>
    refine .inl ?_
    cases hp : c.properties with
    | nil => simp [hp, Assoc.keys] at hx
    | cons => rfl
  | branch _ hb _ =>
    refine .inr ?_
    cases ha : c.allOf with
    | nil => simp [ha] at hb
    | cons => rfl
  | target href => exact absurd (hc.reference.symm.trans href) (by simp)

end Definitions

end KclModels
