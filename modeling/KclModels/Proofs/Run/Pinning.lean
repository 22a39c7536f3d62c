import KclModels.Proofs.Build.Inheriting
import KclModels.Proofs.Run.Composition
import KclModels.Text.AsciiTable

/-!
# Subtypes and their discriminators

A subtype pins the discriminator of its base, unless an attribute of it has the name of the field. So
that it is pinned depends on what the attributes are: the properties of the subtype itself, and those
of all branches but the one that it inherits from. The full models of bases are put in place so that
a branch which is an object of its own leaves to them what they declare. What a subtype declares
itself it keeps, and so does a reference to another definition.
-/

namespace KclModels

open Build KclModels.Frame

variable {tr : Text.Transliteration}

/--
The field is left to the base that branch number `i`, the schema `b`, ends at, and the composition
stays one.
-/
structure Definitions.Leaves (defs : Definitions) (c : Schema) (field : String) (i : Nat)
    (b base : Schema) : Prop where
  composes : defs.Composes c
  whole : c.Whole
  branch : c.allOf[i]? = some b
  refers : b.reference.isSome = true
  ends : defs.Ends b base
  discriminator : base.discriminator.isSome = true
  record : base.isRecord = true
  wholeBase : base.Whole
  /-- No branch before it ends at a base. -/
  first : ∀ (j : Nat) b' d, j < i → c.allOf[j]? = some b' → defs.Ends b' d → d.discriminator = none
  own : field ∉ Assoc.keys c.properties
  /-- Of the other branches only plain objects declare the field, and then the base does. -/
  others : ∀ (j : Nat) b', j ≠ i → c.allOf[j]? = some b' → defs.Declares b' field →
    b'.Plain ∧ b'.extraValue? = none ∧ b'.discriminator = none ∧
      field ∈ Assoc.keys base.properties

/-- The model inherits from what branch number `i` refers to, and no attribute has the field. -/
structure Model.Pins (m : Model) (subtype : Subtype) (i : Nat) (b : Schema) : Prop where
  isSubtype : m.isSubtype = true
  field : m.discriminatorField = some subtype.fieldName
  value : m.discriminatorValue = some subtype.fieldValue
  tuple : m.type.tuple = false
  parent : m.parentBranch = some i
  branch : ∃ m', m.allOf[i]? = some m' ∧ m'.reference = b.referenceName
  free : subtype.fieldName ∉ names (Kcl.ownAttributes m m.parentBranch)

variable {setting : Setting} {defs : Definitions} {r : Registry} {s s' : Session} {f : Frame}
variable {b c base : Schema} {field name : String} {i : Nat} {subtype : Subtype}

theorem Definitions.Leaves.inheritsFrom (h : defs.Leaves c field i b base) :
    defs.InheritsFrom c i b base :=
  ⟨h.composes, h.whole, h.branch, h.refers, h.ends, h.discriminator, h.record, h.wholeBase, h.first⟩

/-- **A subtype whose field is left to its base pins it.** -/
theorem fileFrame_pins (hr : s.registry.Holds defs) (hc : defs.lookup name = some c)
    (hknown : ∀ b ∈ c.allOf, ∀ n, b.referenceName = some n → (defs.lookup n).isSome = true)
    (hsub : setting.polymorphism.subtypes.lookup (Reference.toDefinition name) = some subtype)
    (hl : defs.Leaves c subtype.fieldName i b base) (h : (fileFrame setting name).Gives s f s') :
    f.model.Pins subtype i b := by
  obtain ⟨hinherits, hisSubtype, hfield, hvalue⟩ :=
    fileFrame_inherits hr hc hknown hsub hl.inheritsFrom h
  refine ⟨hisSubtype, hfield, hvalue, hinherits.tuple, hinherits.parent, hinherits.branch,
    fun hx => ?_⟩
  rcases Kcl.mem_names_ownAttributes.mp hx with hx | ⟨j, k, hk, hne, hx⟩
  · exact hl.own (hinherits.properties.mem_iff.mp hx)
  · have hji : j ≠ i := fun heq => hne (heq ▸ hinherits.parent)
    obtain ⟨b', hb', hsound, hleft⟩ := hinherits.others j k hji hk
    obtain ⟨hplain, hvalue, -, hmem⟩ := hl.others j b' hji hb' (hsound _ hx)
    exact hleft (.own hplain hvalue) _ hx hmem

end KclModels

/-!
## The text of a subtype

A subtype that leaves the field of its discriminator to its base is written as a schema that inherits
from the base, with a line that pins the field to its value. A field that the subtype declares again
is written as an attribute like any other, and nothing pins it.
-/

namespace KclModels

open Kcl

/-- The line that pins the discriminator stands in the schema. -/
theorem Kcl.schemaBlocks_pins {m : Model} {n line : String}
    (h : discriminatorLine? m (attributes m m.parentBranch) = some line) :
    ∃ blocks, schemaBlocks m n = [.line (header m n m.parentBranch), .indented blocks] ∧
      .line line ∈ blocks := by
  refine ⟨_, rfl, ?_⟩
  rw [h]
  simp

namespace Model

variable {m m' : Model} {subtype : Subtype} {i : Nat} {b : Schema}

/-- What is pinned stays so when the texts of types are written out. -/
theorem Pins.alike (h : m.Pins subtype i b) (hm : m.Alike m') : m'.Pins subtype i b := by
  have hfacts := hm.outline
  refine ⟨?_, ?_, ?_, ?_, hm.parentBranch ▸ h.parent, ?_, ?_⟩
  · exact (congrArg ModelFacts.isSubtype hfacts).symm.trans h.isSubtype
  · exact (congrArg ModelFacts.discriminatorField hfacts).symm.trans h.field
  · exact (congrArg ModelFacts.discriminatorValue hfacts).symm.trans h.value
  · exact (congrArg (fun k => k.type.tuple) hfacts).symm.trans h.tuple
  · obtain ⟨k, hk, href⟩ := h.branch
    obtain ⟨k', hk', halike⟩ := hm.part (e := .branch i) hk
    exact ⟨k', hk', (congrArg ModelFacts.reference halike.outline).symm.trans href⟩
  · rw [Frame.names, ← names_ownAttributes hm]
    exact h.free

/-- **A schema that inherits, with a line that pins the field.** -/
theorem Pins.declaration (h : m.Pins subtype i b) : ∃ parent blocks,
    m.allOf[i]? = some parent ∧ parent.reference = b.referenceName ∧
      Kcl.declaration m = [.line ("schema " ++ m.declaredName ++ "(" ++ typeText parent ++ "):"),
        .indented blocks] ∧
      .line (Naming.attributeName subtype.fieldName ++ ": str = " ++ quote subtype.fieldValue) ∈
        blocks := by
  obtain ⟨parent, hparent, href⟩ := h.branch
  have halias : isAlias m m.declaredName = false := by
    have hne : m.allOf.isEmpty = false :=
      List.isEmpty_eq_false_iff_exists_mem.mpr ⟨parent, List.mem_of_getElem? hparent⟩
    rw [isAlias, hne, Bool.and_false]
    rfl
  have hattributes : attributes m m.parentBranch = ownAttributes m m.parentBranch := by
    rw [attributes, restAttribute?, h.tuple]
    exact List.append_nil _
  have hline : discriminatorLine? m (attributes m m.parentBranch) =
      some (Naming.attributeName subtype.fieldName ++ ": str = " ++ quote subtype.fieldValue) := by
    -- no attribute has the name of the field, so the line is not left out
    have hfree : (ownAttributes m m.parentBranch).any (·.name == subtype.fieldName) = false := by
      refine List.any_eq_false.mpr fun a ha hname => h.free ?_
      rw [← beq_iff_eq.mp hname]
      exact List.mem_map_of_mem ha
    rw [discriminatorLine?, h.field, h.value, hattributes]
    simp only [h.isSubtype, hfree, Bool.not_false, Bool.and_self, if_true]
  have hheader : header m m.declaredName m.parentBranch =
      "schema " ++ m.declaredName ++ "(" ++ typeText parent ++ "):" := by
    rw [header, h.parent, Option.bind_some, hparent]
  obtain ⟨blocks, hblocks, hmem⟩ := schemaBlocks_pins (n := m.declaredName) hline
  refine ⟨parent, blocks, hparent, href, ?_, hmem⟩
  rw [Kcl.declaration, halias, if_neg (by simp), hblocks, hheader]

end Model

namespace Run

variable {r : Run} {name : String} {taken hoisted : List String} {c b base : Schema}
variable {file : ModelFile} {warnings : List Warning} {subtype : Subtype} {i : Nat}

section

variable {tr : Text.Transliteration}

/--
**Every subtype pins its discriminator** that leaves the field to its base: it is written as a schema
that inherits from the base, and declares the field with its value.
-/
theorem subtype_pins (hc : r.definitions.Canonical) (hget : r.definitions.lookup name = some c)
    (hsub : r.polymorphism.subtypes.lookup (Reference.toDefinition name) = some subtype)
    (hl : r.definitions.Leaves c subtype.fieldName i b base)
    (h : r.generateReserving name taken = .ok (file, warnings, hoisted)) :
    ∃ parent blocks, file.model.allOf[i]? = some parent ∧ parent.reference = b.referenceName ∧
      declaration file.model =
        [.line ("schema " ++ file.model.declaredName ++ "(" ++ typeText parent ++ "):"),
          .indented blocks] ∧
      .line (Naming.attributeName subtype.fieldName ++ ": str = " ++ quote subtype.fieldValue) ∈
        blocks := by
  obtain ⟨s', hbuild, -⟩ := generateReserving_ok h
  obtain ⟨f, s₁, hf, -, rfl⟩ := Build.file_cases hbuild
  have hpins := fileFrame_pins (session_holds taken hc) hget (branches_known hc hget) hsub hl hf
  have hdeclared : (Build.declare r.setting name s₁.registry f.model).Pins subtype i b :=
    ⟨hpins.isSubtype, hpins.field, hpins.value, hpins.tuple, hpins.parent, hpins.branch, hpins.free⟩
  rw [(Build.assemble_facts r.setting name s₁.registry f).1]
  exact (hdeclared.alike (Imports.collectRendered_alike _ _ _)).declaration

end

/-- An animal has a kind, by which its subtypes are told apart. -/
def animal : Schema where
  types := ["object"]
  discriminator := some "kind"
  properties := [("kind", .typed "string"), ("name", .typed "string")]

/-- What a dog is besides an animal: a branch that declares the kind once more. -/
def bred : Schema where
  types := ["object"]
  properties := [("kind", .typed "string"), ("breed", .typed "string")]

/-- A dog is composed of an animal and of what it is besides. -/
def dog : Schema where
  allOf := [.referenceTo "Animal", bred]

def dogs : Run := ofDefinitions [("Animal", animal), ("Dog", dog)]

/-- The kind of a dog. -/
def dogKind : Subtype where
  fieldName := "kind"
  fieldValue := "Dog"
  kclType := "Dog"
  jsonName := "Dog"
  reference := "#/definitions/Dog"
  parentReference := "#/definitions/Animal"

theorem dogs_ends_animal : dogs.definitions.Ends (.referenceTo "Animal") animal :=
  .next rfl (n := "Animal") (by decide) rfl (.here rfl)

theorem dogs_leaves :
    dogs.definitions.Leaves dog dogKind.fieldName 0 (.referenceTo "Animal") animal where
  composes := by
    refine ⟨⟨rfl, rfl, rfl, fun b hb => ?_⟩, fun b hb d hd => ?_⟩
    all_goals obtain rfl | rfl : b = .referenceTo "Animal" ∨ b = bred := by simpa [dog] using hb
    · exact .solitary (Schema.solitary_referenceTo _)
    · exact .object rfl rfl rfl
    · obtain rfl := dogs_ends_animal.unique hd
      exact ⟨rfl, rfl, rfl, fun b hb => absurd hb List.not_mem_nil⟩
    · obtain rfl := hd.of_inline rfl
      exact ⟨rfl, rfl, rfl, fun b hb => absurd hb List.not_mem_nil⟩
  whole := ⟨rfl, fun _ => Or.inl (by decide)⟩
  branch := rfl
  refers := rfl
  ends := dogs_ends_animal
  discriminator := rfl
  record := rfl
  wholeBase := ⟨rfl, fun hlen => absurd hlen (by decide)⟩
  first := fun j _ _ hj => absurd hj (Nat.not_lt_zero j)
  own := List.not_mem_nil
  others := fun j b' hj hb' _ => by
    match j with
    | 0 => exact absurd rfl hj
    | 1 =>
      -- the branch beside the animal is a plain object, and an animal has the kind as well
      obtain rfl : bred = b' := Option.some.inj hb'
      exact ⟨⟨rfl, rfl, rfl⟩, rfl, rfl, List.mem_cons_self⟩
    | j + 2 => exact absurd hb' (by simp [dog])

theorem dogs_pin_kind : dogs.definitions.Canonical ∧
    dogs.definitions.lookup "Dog" = some dog ∧
    dogs.polymorphism.subtypes.lookup (Reference.toDefinition "Dog") = some dogKind ∧
    dogs.definitions.Leaves dog dogKind.fieldName 0 (.referenceTo "Animal") animal ∧
    ∃ file warnings hoisted parent blocks,
      dogs.generateReserving "Dog" [] = .ok (file, warnings, hoisted) ∧
      file.model.allOf[0]? = some parent ∧
      parent.reference = (Schema.referenceTo "Animal").referenceName ∧
      declaration file.model =
        [.line ("schema " ++ file.model.declaredName ++ "(" ++ typeText parent ++ "):"),
          .indented blocks] ∧
      .line (Naming.attributeName dogKind.fieldName ++ ": str = " ++ quote dogKind.fieldValue) ∈
        blocks := by
  have hc : dogs.definitions.Canonical := Definitions.canonical_of_check (by decide)
  have hsub : dogs.polymorphism.subtypes.lookup (Reference.toDefinition "Dog") = some dogKind := by
    decide +kernel
  obtain ⟨⟨file, warnings, hoisted⟩, h, -⟩ := exists_ok_of_any
    (e := dogs.generateReserving "Dog" []) (p := fun _ => true) (by decide +kernel)
  obtain ⟨parent, blocks, hpins⟩ := subtype_pins hc rfl hsub dogs_leaves h
  exact ⟨hc, rfl, hsub, dogs_leaves, file, warnings, hoisted, parent, blocks, h, hpins⟩

/-- Dogs that declare their kind themselves. -/
def kindDogs : Run := ofDefinitions [("Animal", animal),
  ("Dog", { bred with types := [], allOf := [.referenceTo "Animal"] })]

/-- The blocks of a schema, if a declaration is one. -/
def blocksOf : List Block → List Block
  | [_, .indented blocks] => blocks
  | _ => []

/-- A field that a subtype repeats beside its branches is not pinned. -/
theorem kindDogs_unpinned : kindDogs.definitions.Canonical ∧
    kindDogs.polymorphism.subtypes.lookup (Reference.toDefinition "Dog") = some dogKind ∧
    ∃ file warnings hoisted, kindDogs.generateReserving "Dog" [] = .ok (file, warnings, hoisted) ∧
      ¬ ∃ head blocks, declaration file.model = [head, .indented blocks] ∧
        .line (Naming.attributeName dogKind.fieldName ++ ": str = " ++ quote dogKind.fieldValue) ∈
          blocks := by
  refine ⟨Definitions.canonical_of_check (by decide), by decide +kernel, ?_⟩
  obtain ⟨⟨file, warnings, hoisted⟩, h, hnone⟩ := exists_ok_of_any
    (e := kindDogs.generateReserving "Dog" [])
    (p := fun made => (blocksOf (declaration made.1.model)).all fun
      | .line text => text != Naming.attributeName dogKind.fieldName ++ ": str = " ++
          quote dogKind.fieldValue
      | _ => true)
    (by decide +kernel)
  refine ⟨file, warnings, hoisted, h, ?_⟩
  rintro ⟨head, blocks, hdeclaration, hmem⟩
  rw [hdeclaration] at hnone
  simpa using List.all_eq_true.mp hnone _ hmem

end Run

end KclModels
