import KclModels.Proofs.Build.Escaping
import KclModels.Proofs.Build.FileLinks
import KclModels.Proofs.Imports.Rendered
import KclModels.Proofs.Run.Accounted
import KclModels.Text.AsciiTable

/-!
# Tuples in files

Of the models in a file only the definition and the schemas beside it are tuples themselves: below
them a tuple refers to its definition. Building lets no other tuple in, and what comes after it moves
models from one tree to another but only whole ones, or the full model of a base, which refers to the
base. Writing out types changes neither.
-/

namespace KclModels

open Build KclModels.Frame

section Files

variable {tr : Text.Transliteration}
variable {setting : Setting} {s s' : Session} {f f' : Frame} {m m' n p : Model}
variable {name container : String}

/-! ## Files that are put together -/

/-- **A definition that is built has no tuples in it** but by reference. -/
theorem definition_sealed {c : Schema} (h : (definition setting name c container).Gives s f s') :
    f.Sealed :=
  (build_escapes h).sealed (Fresh.sealed ⟨rfl, rfl, rfl⟩)

theorem expanded_escaped {reference : String}
    (h : ∀ p ∈ m.parts, p.Everywhere Model.Escaped) :
    (expanded setting reference name m).Everywhere Model.Escaped := by
  refine Model.everywhere_of_parts (fun _ => ?_) fun p hp => ?_
  · unfold expanded
    split <;> rfl
  · obtain ⟨q, hq, hlike⟩ := expanded_like hp
    exact escaped_of_like hlike (h q hq)

/-- Another choice of properties for a branch. -/
theorem escaped_of_properties {properties : List Model} (h : m.Everywhere Model.Escaped)
    (hp : ∀ p ∈ properties, p.Everywhere Model.Escaped) :
    Model.Everywhere Model.Escaped { m with properties } :=
  Model.everywhere_of_parts h.here (Imports.parts_of_properties (fun _ => h.part) hp)

theorem expandBranches_escaped {branches : List Schema} : ∀ {index : Nat}
    {allOf allOf' : List Model} {names : List String} {s s' : Session},
    (∀ b ∈ allOf, b.Everywhere Model.Escaped) →
    (expandBranches setting container index allOf branches).Gives s (allOf', names) s' →
    ∀ b ∈ allOf', b.Everywhere Model.Escaped := by
  induction branches with
  | nil =>
    intro index allOf allOf' names s s' hall h
    rw [expandBranches, gives_pure, Prod.mk.injEq] at h
    obtain ⟨⟨rfl, -⟩, -⟩ := h
    exact hall
  | cons branch rest ih =>
    intro index allOf allOf' names s s' hall h
    rcases expandBranches_cons_cases h with ⟨-, h⟩ |
      ⟨reference, name, target, built, s₁, own, -, -, -, -, hbuilt, h, -⟩
    · exact ih hall h
    · -- one branch is put in place, and it was built of a definition
      have hput : ∀ b ∈ allOf.set index (expanded setting reference name built.model),
          b.Everywhere Model.Escaped := by
        intro b hb
        rcases List.mem_or_eq_of_mem_set hb with hb | rfl
        · exact hall b hb
        · exact expanded_escaped (definition_sealed hbuilt).parts
      exact ih hput h

theorem dedupBranches_escaped {ofBases seen : List String} {branches : List Model}
    (h : ∀ b ∈ branches, b.Everywhere Model.Escaped) :
    ∀ b ∈ Model.dedupBranches ofBases seen branches, b.Everywhere Model.Escaped := by
  induction branches generalizing seen with
  | nil => exact fun b hb => absurd hb List.not_mem_nil
  | cons branch rest ih =>
    intro b hb
    have hbranch := h branch List.mem_cons_self
    rw [Model.dedupBranches] at hb
    rcases List.mem_cons.mp hb with rfl | hb
    · refine escaped_of_properties hbranch fun p hp => hbranch.part ?_
      exact Model.mem_parts_iff.mpr (Or.inr (Or.inr (Or.inl (Model.mem_keepProperties hp))))
    · exact ih (fun b hb => h b (List.mem_cons_of_mem _ hb)) b hb

/-- Other branches for the model of a frame. -/
theorem Frame.Sealed.compose {allOf : List Model} (hf : f.Sealed)
    (hall : ∀ b ∈ allOf, b.Everywhere Model.Escaped) (hitems : m.items = f.model.items)
    (hextra : m.additionalItems = f.model.additionalItems)
    (hprops : m.properties = f.model.properties) (hallOf : m.allOf = allOf)
    (hvalue : m.additionalProperties = f.model.additionalProperties) :
    Frame.Sealed { f with model := m } := by
  refine ⟨fun p hp => ?_, hf.extras⟩
  rw [Model.mem_parts_iff, hitems, hextra, hprops, hallOf, hvalue] at hp
  rcases hp with hp | hp | hp | hp | hp
  · exact hf.parts p (Model.mem_parts_iff.mpr (Or.inl hp))
  · exact hf.parts p (Model.mem_parts_iff.mpr (Or.inr (Or.inl hp)))
  · exact hf.parts p (Model.mem_parts_iff.mpr (Or.inr (Or.inr (Or.inl hp))))
  · exact hall p hp
  · exact hf.parts p (Model.mem_parts_iff.mpr (Or.inr (Or.inr (Or.inr (Or.inr hp)))))

theorem Frame.Sealed.branches (hf : f.Sealed) :
    ∀ b ∈ f.model.allOf, b.Everywhere Model.Escaped :=
  fun b hb => hf.parts b (Model.mem_parts_iff.mpr (Or.inr (Or.inr (Or.inr (Or.inl hb)))))

/-- Declaring the properties of a branch moves whole models. -/
theorem inlined_sealed {index : Nat} {branch : Model} {built : Frame} (hf : f.Sealed)
    (hbranch : branch.Everywhere Model.Escaped) (hbuilt : built.Sealed) :
    (inlined f index branch built).Sealed := by
  have hproperties : ∀ p ∈ built.model.properties ++ built.model.allOf.flatMap (·.properties),
      p.Everywhere Model.Escaped := by
    intro p hp
    rcases List.mem_append.mp hp with hp | hp
    · exact hbuilt.parts p (Model.mem_parts_iff.mpr (Or.inr (Or.inr (Or.inl hp))))
    · obtain ⟨b, hb, hp⟩ := List.mem_flatMap.mp hp
      exact (hbuilt.branches b hb).part (Model.mem_parts_iff.mpr (Or.inr (Or.inr (Or.inl hp))))
  have hsealed := hf.compose (m := (inlined f index branch built).model) (fun b hb => ?_) rfl rfl
    rfl rfl rfl
  · refine ⟨hsealed.parts, fun x e he => ?_⟩
    rcases Assoc.mem_mergeSorted he with he | he
    · exact hf.extras x e he
    · exact hbuilt.extras x e he
  · rcases List.mem_or_eq_of_mem_set hb with hb | rfl
    · exact hf.branches b hb
    · exact escaped_of_properties hbranch hproperties

theorem inlineBranches_sealed {parent : Option Nat} {branches : List Model} : ∀ {index : Nat}
    {f : Frame} {s : Session}, f.Sealed → (∀ b ∈ branches, b.Everywhere Model.Escaped) →
    (inlineBranches setting parent f index branches).Gives s f' s' → f'.Sealed := by
  induction branches with
  | nil =>
    intro index f s hf _ h
    rw [inlineBranches, gives_pure] at h
    exact h.1 ▸ hf
  | cons branch rest ih =>
    intro index f s hf hall h
    have hrest : ∀ b ∈ rest, b.Everywhere Model.Escaped :=
      fun b hb => hall b (List.mem_cons_of_mem _ hb)
    rcases inlineBranches_cons_cases h with ⟨-, h⟩ | ⟨x, target, built, s₁, -, -, -, hb, h⟩
    · exact ih hf hrest h
    · exact ih (inlined_sealed hf (hall branch List.mem_cons_self) (definition_sealed hb)) hrest h

/-- **The frame that a file is made of has no tuples in it** but by reference. -/
theorem fileFrame_sealed (h : (fileFrame setting name).Gives s f s') : f.Sealed := by
  obtain ⟨c, built, s₁, s₂, m, -, hbuilt, hexpand, h⟩ := fileFrame_cases h
  obtain ⟨m₀, hbase, -, -, hitems, hextra, hprops, hallOf, hvalue⟩ := asBase_facts setting name built
  have hsealed := definition_sealed hbuilt
  have hsealed₀ : Frame.Sealed { built with model := m } ∧
      ∀ b ∈ m.allOf, b.Everywhere Model.Escaped := by
    rw [hbase] at hexpand
    rcases hexpand with ⟨-, rfl, -⟩ | ⟨subtype, -, he⟩
    · exact ⟨hsealed.compose hsealed.branches hitems hextra hprops hallOf hvalue,
        hallOf ▸ hsealed.branches⟩
    · obtain ⟨allOf, names, hex, rfl⟩ := expandSubtype_cases he
      have hall := expandBranches_escaped (hallOf ▸ hsealed.branches) hex
      have hleft : ∀ b ∈ Model.dedupBranches names [] allOf, b.Everywhere Model.Escaped :=
        dedupBranches_escaped hall
      exact ⟨hsealed.compose hleft hitems hextra hprops rfl hvalue, hleft⟩
  rw [hbase] at h
  exact inlineBranches_sealed hsealed₀.1 hsealed₀.2 h

end Files

namespace Model

variable {P : Model → Prop} {m m' n : Model}

/-- What holds of all parts of a model holds at all positions but its own. -/
theorem at?_of_parts (h : ∀ p ∈ m.parts, p.Everywhere P) : ∀ {p : Position}, p ≠ [] →
    m.at? p = some n → P n := by
  have hbelow : ∀ (p : Position) (m : Model), m.Everywhere P → m.at? p = some n → P n := by
    intro p
    induction p with
    | nil =>
      intro m hm hat
      exact Option.some.inj hat ▸ hm.here
    | cons e rest ih =>
      intro m hm hat
      obtain ⟨q, hq, hat⟩ := Option.bind_eq_some_iff.mp hat
      exact ih q (hm.part (mem_parts_of_part? hq)) hat
  intro p hp hat
  cases p with
  | nil => exact absurd rfl hp
  | cons e rest =>
    obtain ⟨q, hq, hat⟩ := Option.bind_eq_some_iff.mp hat
    exact hbelow rest q (h q (mem_parts_of_part? hq)) hat

/-- Tuples have names in a model if they have names in one that is like it but for texts. -/
theorem Alike.escaped (h : m.Alike m') {p : Position}
    (hm : ∀ n, m.at? p = some n → n.Escaped) (hn : m'.at? p = some n) : n.Escaped := by
  have hp := h p
  rw [hn, Option.map_some] at hp
  obtain ⟨k, hk, houtline⟩ := Option.map_eq_some_iff.mp hp
  have htype : k.type.tuple = n.type.tuple := by
    show k.outline.type.tuple = n.outline.type.tuple
    rw [houtline]
  have href : k.reference = n.reference := by
    show k.outline.reference = n.outline.reference
    rw [houtline]
  intro htuple
  rw [← href]
  exact hm k hk (htype.trans htuple)

end Model

namespace Run

variable {r : Run} {name : String} {taken hoisted : List String} {file : ModelFile}
variable {warnings : List Warning} {m n : Model}

section

variable {tr : Text.Transliteration}

/--
**Tuples without a name have become definitions**: a model in a file that is a tuple is that of the
definition, that of a schema beside it, or refers to the definition that was made of the tuple.
-/
theorem tuples_escape (h : r.generateReserving name taken = .ok (file, warnings, hoisted))
    (hm : m ∈ file.model :: file.extras) {p : Model.Position} (hn : m.at? p = some n)
    (htuple : n.type.tuple = true) : p = [] ∨ n.reference.isSome = true := by
  obtain ⟨s', hbuild, -⟩ := generateReserving_ok h
  obtain ⟨f, s₁, hf, -, rfl⟩ := Build.file_cases hbuild
  have hsealed := fileFrame_sealed hf
  obtain ⟨m₀, hparts, halike⟩ : ∃ m₀ : Model,
      (∀ p ∈ m₀.parts, p.Everywhere Model.Escaped) ∧ m₀.Alike m := by
    rcases List.mem_cons.mp hm with rfl | hm
    · rw [(Build.assemble_facts r.setting name s₁.registry f).1]
      exact ⟨Build.declare r.setting name s₁.registry f.model, hsealed.parts,
        Imports.collectRendered_alike _ _ _⟩
    · obtain ⟨x, e, i, hx, rfl⟩ := Build.mem_assemble_extras hm
      exact ⟨e, hsealed.extras x e hx, Imports.collectRendered_alike _ e i⟩
  by_cases hroot : p = []
  · exact Or.inl hroot
  · exact Or.inr (halike.escaped (fun k hk => Model.at?_of_parts hparts hroot hk) hn htuple)

end

/-- A pair of texts, and a way with such a pair as its ends. -/
def ways : Run := ofDefinitions [
  ("Pair", { types := ["array"], items := some (.tuple [.typed "string", .typed "string"]) }),
  ("Way", { types := ["object"], properties := [("ends", .referenceTo "Pair")] })]

example : (ways.generateReserving "Way" []).toOption.map (·.1.model.properties.map (·.reference)) =
    some [some "Pair"] := by decide +kernel

theorem ways_ends_escape : ∃ file warnings hoisted n,
    ways.generateReserving "Way" [] = .ok (file, warnings, hoisted) ∧
      file.model ∈ file.model :: file.extras ∧ file.model.at? [.property 0] = some n ∧
      n.type.tuple = true ∧ ([Model.Edge.property 0] = [] ∨ n.reference.isSome = true) := by
  obtain ⟨⟨file, warnings, hoisted⟩, h, hends⟩ :=
    exists_ok_of_any (e := ways.generateReserving "Way" [])
      (p := fun one => (one.1.model.at? [.property 0]).any (·.type.tuple))
      (by decide +kernel)
  obtain ⟨n, hn, htuple⟩ := (Option.any_eq_true _ _).mp hends
  exact ⟨file, warnings, hoisted, n, h, List.mem_cons_self, hn, htuple,
    tuples_escape h List.mem_cons_self hn htuple⟩

end Run

end KclModels
