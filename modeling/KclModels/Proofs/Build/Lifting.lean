import KclModels.Proofs.Build.Cases
import KclModels.Proofs.Run.Accounted
import KclModels.Text.AsciiTable

/-!
# Lifting a branch

A composition of which one branch alone is substantive is replaced by that branch. A branch that is
not substantive names no type, declares no property and refers to nothing, but it may still hold
constraints; and nothing is looked at of what stands beside the composition. So what a schema says
about values is kept if types are named where values are described: a branch with constraints is
substantive then, and a composition that leaves the type to its branches holds nothing but texts.
-/

namespace KclModels

/-- What one keyword says about values. Texts, defaults and examples say nothing about them. -/
inductive Clause
  | types (types : List String)
  | format (format : String)
  | reference (reference : String)
  | property (name : String) (schema : Schema)
  | required (name : String)
  | items (items : Items Schema)
  | additionalProperties (beyond : List String) (extra : Extra Schema)
  | additionalItems (extra : Extra Schema)
  | maximum (bound : Double) (exclusive : Bool)
  | minimum (bound : Double) (exclusive : Bool)
  | multipleOf (factor : Double)
  | maxLength (bound : Nat)
  | minLength (bound : Nat)
  | pattern (pattern : String)
  | maxItems (bound : Nat)
  | minItems (bound : Nat)
  | uniqueItems
  | enumValues (values : List Value)

namespace Schema

/-- What the constraints of the schema say. -/
def constraintClauses (s : Schema) : List Clause :=
  s.maximum.toList.map (Clause.maximum · s.exclusiveMaximum) ++
    s.minimum.toList.map (Clause.minimum · s.exclusiveMinimum) ++
    s.multipleOf.toList.map Clause.multipleOf ++ s.maxLength.toList.map Clause.maxLength ++
    s.minLength.toList.map Clause.minLength ++ s.pattern.toList.map Clause.pattern ++
    s.maxItems.toList.map Clause.maxItems ++ s.minItems.toList.map Clause.minItems ++
    (if s.uniqueItems then [Clause.uniqueItems] else []) ++
    (if s.enumValues.isEmpty then [] else [Clause.enumValues s.enumValues])

/-- What the keywords of the schema say, its composition apart. -/
def clauses (s : Schema) : List Clause :=
  (if s.types.isEmpty then [] else [Clause.types s.types]) ++ s.format.toList.map Clause.format ++
    s.reference.toList.map Clause.reference ++
    s.properties.map (fun (n, c) => Clause.property n c) ++ s.required.map Clause.required ++
    s.items.toList.map Clause.items ++
    s.additionalProperties.toList.map (Clause.additionalProperties (Assoc.keys s.properties)) ++
    s.additionalItems.toList.map Clause.additionalItems ++ s.constraintClauses

/-- A schema says what its keywords say and what the branches of its composition say. -/
inductive Says : Schema → Clause → Prop
  | own {s : Schema} {c : Clause} : c ∈ s.clauses → Says s c
  | branch {s b : Schema} {c : Clause} : b ∈ s.allOf → Says b c → Says s c

variable {s b d : Schema} {c : Clause} {before after : List Schema}

theorem says_iff : s.Says c ↔ c ∈ s.clauses ∨ ∃ b ∈ s.allOf, b.Says c := by
  constructor
  · rintro (h | ⟨hb, h⟩)
    · exact .inl h
    · exact .inr ⟨_, hb, h⟩
  · rintro (h | ⟨b, hb, h⟩)
    · exact .own h
    · exact .branch hb h

theorem says_of_allOf_nil (h : s.allOf = []) : s.Says c ↔ c ∈ s.clauses := by
  rw [says_iff, h]
  simp

/--
Types are named where values are described: the composition leaves the type to its branches, and
neither it nor a branch without a type says anything itself, unless it is a reference.
-/
structure NamesTypes (s : Schema) : Prop where
  composition : s.types = [] ∧ s.reference = none
  untyped : ∀ t, t = s ∨ t ∈ s.allOf → t.types = [] → t.reference = none → t.clauses = []

/-- A branch that is passed over: it has no type, no properties, no reference and no branches. -/
structure Slight (d : Schema) : Prop where
  types : d.types = []
  properties : d.properties = []
  reference : d.reference = none
  allOf : d.allOf = []

theorem slight_of_not_substantive (h : ¬ Frame.isSubstantive d = true) : d.Slight := by
  unfold Frame.isSubstantive at h
  simp only [Bool.or_eq_true, Bool.not_eq_true', List.isEmpty_eq_false_iff, not_or, not_not,
    Bool.not_eq_true, Option.isSome_eq_false_iff, Option.isNone_iff_eq_none] at h
  exact ⟨h.1.1.1, h.1.1.2, h.1.2, h.2⟩

/-- What a composition says whose branches but one are slight. -/
theorem says_of_slight (hall : s.allOf = before ++ b :: after)
    (hslight : ∀ d ∈ before ++ after, d.Slight) :
    s.Says c ↔ b.Says c ∨ c ∈ s.clauses ∨ ∃ d ∈ before ++ after, c ∈ d.clauses := by
  have hd : ∀ d ∈ before ++ after, d.Says c ↔ c ∈ d.clauses := fun d hd =>
    says_of_allOf_nil (hslight d hd).allOf
  rw [says_iff, hall]
  constructor
  · rintro (h | ⟨d, hmem, h⟩)
    · exact .inr (.inl h)
    · rcases List.mem_append.mp hmem with hmem | hmem
      · have hmem := List.mem_append_left after hmem
        exact .inr (.inr ⟨d, hmem, (hd d hmem).mp h⟩)
      · rcases List.mem_cons.mp hmem with rfl | hmem
        · exact .inl h
        · have hmem := List.mem_append_right before hmem
          exact .inr (.inr ⟨d, hmem, (hd d hmem).mp h⟩)
  · rintro (h | h | ⟨d, hmem, h⟩)
    · exact .inr ⟨b, by simp, h⟩
    · exact .inl h
    · refine .inr ⟨d, ?_, (hd d hmem).mpr h⟩
      rcases List.mem_append.mp hmem with hmem | hmem <;> simp [hmem]

end Schema

namespace Frame

open Build

variable {setting : Setting} {s s' : Session} {f f' : Frame}

section

variable {tr : Text.Transliteration}

/--
**What lifting a branch discards.** The branches that are dropped declare no property and refer to
nothing; what else they say, and all that stands beside the composition, is lost. That is nothing
where types are named: then the branch says all that the composition said.
-/
theorem liftBranch_says (h : (f.liftBranch setting).Gives s f' s') :
    f' = f ∨ ∃ before branch after, f.schema.allOf = before ++ branch :: after ∧
      f' = f.lift branch ∧ (∀ d ∈ before ++ after, d.Slight) ∧
      (∀ c, f.schema.Says c ↔
        branch.Says c ∨ c ∈ f.schema.clauses ∨ ∃ d ∈ before ++ after, c ∈ d.clauses) ∧
      (f.schema.NamesTypes → f.schema.clauses = [] ∧ (∀ d ∈ before ++ after, d.clauses = []) ∧
        ∀ c, f.schema.Says c ↔ f'.schema.Says c) := by
  obtain ⟨-, ⟨rfl, -⟩ | ⟨branch, ⟨-, hfilter, -⟩, rfl⟩⟩ := liftBranch_cases h
  · exact .inl rfl
  · obtain ⟨before, after, hall, hbefore, -, hafter⟩ := List.filter_eq_cons_iff.mp hfilter
    -- the branches around the lifted one say nothing that would make a type
    have hslight : ∀ d ∈ before ++ after, d.Slight := by
      intro d hd
      refine Schema.slight_of_not_substantive ?_
      rcases List.mem_append.mp hd with hd | hd
      · exact hbefore d hd
      · exact List.filter_eq_nil_iff.mp hafter d hd
    have hsame := fun c => Schema.says_of_slight (c := c) hall hslight
    refine .inr ⟨before, branch, after, hall, rfl, hslight, hsame, fun hnames => ?_⟩
    have hown := hnames.untyped f.schema (.inl rfl) hnames.composition.1 hnames.composition.2
    -- where types are named, what has no type has no clause either
    have hdropped : ∀ d ∈ before ++ after, d.clauses = [] := by
      intro d hd
      have hmem : d ∈ f.schema.allOf := by
        rw [hall]
        rcases List.mem_append.mp hd with hd | hd <;> simp [hd]
      exact hnames.untyped d (.inr hmem) (hslight d hd).types (hslight d hd).reference
    refine ⟨hown, hdropped, fun c => (hsame c).trans (or_iff_left ?_)⟩
    rintro (hc | ⟨d, hd, hc⟩)
    · rw [hown] at hc
      exact absurd hc List.not_mem_nil
    · rw [hdropped d hd] at hc
      exact absurd hc List.not_mem_nil

end

theorem exists_gives_of_any {α : Type} {m : Build α} {p : α → Bool}
    (h : (m.run s).run.1.toOption.any p = true) : ∃ a s', m.Gives s a s' ∧ p a = true := by
  obtain ⟨a, ha, hp⟩ := Run.exists_ok_of_any h
  exact ⟨a, (m.run s).run.2, Prod.ext ha rfl, hp⟩

/-- A composition of an order with a text. -/
def described : Schema :=
  { allOf := [.referenceTo "Order", { description := some "An order of today" }] }

theorem described_names_types : described.NamesTypes where
  composition := ⟨rfl, rfl⟩
  untyped := by
    rintro t (rfl | ht) - href
    · rfl
    · simp only [described, List.mem_cons, List.not_mem_nil, or_false] at ht
      rcases ht with rfl | rfl
      · exact absurd href (by simp [Schema.referenceTo])
      · rfl

theorem described_lifted : ∃ f' s',
    ((Frame.root "Today" described "").liftBranch {}).Gives
      { registry := .ofDefinitions Run.orders.definitions } f' s' ∧
    f'.schema.reference = some "#/definitions/Order" ∧
    ∀ c, described.Says c ↔ f'.schema.Says c := by
  obtain ⟨f', s', h, hf'⟩ := exists_gives_of_any
    (m := (Frame.root "Today" described "").liftBranch {})
    (s := { registry := .ofDefinitions Run.orders.definitions })
    (p := fun f' => f'.schema.reference == some "#/definitions/Order") (by decide +kernel)
  have href : f'.schema.reference = some "#/definitions/Order" := by simpa using hf'
  refine ⟨f', s', h, href, ?_⟩
  rcases liftBranch_says h with rfl | ⟨before, branch, after, -, -, -, -, hkeeps⟩
  · exact absurd href (by simp [Frame.root, described])
  · exact (hkeeps described_names_types).2.2

end Frame

namespace Run

/-- A composition of a label with a text, with a count beside it. -/
def tallies : Run := ofDefinitions [
  ("Label", { types := ["object"], properties := [("text", .typed "string")] }),
  ("Tally", { types := ["object"], properties := [("count", .typed "integer")]
              allOf := [.referenceTo "Label", { description := some "A count of labels" }] })]

/-- What stands beside the composition is lost. -/
theorem tallies_count_lost : ∃ tally file warnings hoisted,
    tallies.definitions.lookup "Tally" = some tally ∧
    tally.Says (.property "count" (.typed "integer")) ∧
    tallies.generateReserving "Tally" [] = .ok (file, warnings, hoisted) ∧
    file.model.properties = [] ∧ file.model.allOf = [] ∧ file.extras = [] := by
  obtain ⟨⟨file, warnings, hoisted⟩, h, hcheck⟩ :=
    exists_ok_of_any (e := tallies.generateReserving "Tally" [])
      (p := fun one => one.1.model.properties.isEmpty && one.1.model.allOf.isEmpty &&
        one.1.extras.isEmpty)
      (by decide +kernel)
  simp only [Bool.and_eq_true, List.isEmpty_iff] at hcheck
  refine ⟨_, file, warnings, hoisted, rfl, .own ?_, h, hcheck.1.1, hcheck.1.2, hcheck.2⟩
  simp [Schema.clauses]

end Run

end KclModels
