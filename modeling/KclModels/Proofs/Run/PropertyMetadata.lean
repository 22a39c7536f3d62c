import KclModels.Proofs.Build.Metadata
import KclModels.Proofs.Model.Ordered
import KclModels.Proofs.Run.Translation
import KclModels.Text.AsciiTable

/-!
# What a file says of the properties of a definition

A property of a file has the texts and the values that its schema says, and stands where that asks it
to stand, unless a definition was made of the schema: then nothing is left of what it says, not even
its place. Collecting the imports of the file changes only types, so it says the same of a property
and leaves the properties in order.
-/

namespace KclModels

open Imports

variable {keepOrder : Bool} {m m' : Model} {target : String}

section

variable {tr : Text.Transliteration}

/-- Writing out the type of a model leaves what the model says. -/
theorem Imports.Written.metadata (h : Written target m m') : m'.metadata = m.metadata := by
  obtain ⟨i, hf⟩ := h.facts
  rw [Model.metadata, hf]
  rfl

theorem Imports.Written.position (h : Written target m m') : m'.position = m.position := by
  obtain ⟨i, hf⟩ := h.facts
  rw [hf]

theorem Imports.Written.place (h : Written target m m') : m'.SamePlace m where
  name := h.name
  position := h.position
  order := congrArg Metadata.order h.metadata

/-- What is in order stays in order when each element is replaced by one that stands in its place. -/
theorem pairwise_of_forall₂ {α β : Type} {R : α → β → Prop} {P : α → α → Prop} {Q : β → β → Prop}
    (hPQ : ∀ a b a' b', R a a' → R b b' → P a b → Q a' b') {l : List α} {l' : List β}
    (h : List.Forall₂ R l l') (hl : l.Pairwise P) : l'.Pairwise Q := by
  induction h with
  | nil => exact .nil
  | @cons a a' rest rest' hR hrest ih =>
    obtain ⟨ha, htail⟩ := List.pairwise_cons.mp hl
    refine List.pairwise_cons.mpr ⟨fun b' hb' => ?_, ih htail⟩
    obtain ⟨i, hi, rfl⟩ := List.getElem_of_mem hb'
    have hlen : i < rest.length := by rw [hrest.length_eq]; exact hi
    exact hPQ _ _ _ _ hR (hrest.get hlen hi) (ha _ (List.getElem_mem hlen))

/-- Properties that are collected in order are in order. -/
theorem collected_pairwise {l l' : List Model}
    (h : List.Forall₂ (Written target) (Model.sortProperties l keepOrder) l') :
    l'.Pairwise (Model.propertyLE keepOrder · · = true) :=
  pairwise_of_forall₂ (fun _ _ _ _ ha hb hle => (Model.propertyLE_congr ha.place hb.place).trans hle) h
    (Model.sortProperties_pairwise l keepOrder)

end

namespace Run

open Build KclModels.Frame

variable {r : Run} {name : String} {taken hoisted : List String} {file : ModelFile}
variable {warnings : List Warning} {c : Schema}

section

variable {tr : Text.Transliteration}

/--
**What a file says of the properties of a definition.** Each property has a model of its own, which
says what the schema says, or nothing if a definition was made of the schema. The models stand in
order of what they say, before the places of a tuple.
-/
theorem properties_described (hget : r.definitions.lookup name = some c) (href : c.reference = none)
    (hall : c.allOf = []) (h : r.generateReserving name taken = .ok (file, warnings, hoisted)) :
    ∃ own sorted places, file.model.properties = sorted ++ places ∧ sorted.Perm own ∧
      sorted.Pairwise (Model.propertyLE r.options.keepOrder · · = true) ∧
      List.Forall₂ (Describes r.definitions r.options.keepOrder) c.properties own ∧
      (c.tupleItems? = none → places = []) := by
  obtain ⟨s', hbuild, -⟩ := generateReserving_ok h
  obtain ⟨f, s₁, hf, -, rfl⟩ := file_cases hbuild
  have hstored : (r.session taken).registry.get? name = some c := hget
  obtain ⟨built, s₂, hbuilt, -, hproperties⟩ := fileFrame_built hstored hf
  have hdefs : Knowing r.definitions (r.session taken) := fun n d hd => hd
  obtain ⟨own, places, heq, hown, hplaces⟩ := hbuilt.describes hdefs rfl href hall rfl
  obtain ⟨hmodel, -, -⟩ := assemble_facts r.setting name s₁.registry f
  have hwritten : List.Forall₂ (Written (r.setting.options.packageOf name))
      (Model.sortProperties own r.options.keepOrder ++ places)
      (assemble r.setting name s₁.registry f).1.model.properties := by
    have hcollected := collectRendered_properties (r.setting.options.packageOf name)
      (declare r.setting name s₁.registry f.model) {}
    rw [hmodel]
    refine List.Forall₂.imp ?_ (heq ▸ hproperties ▸ hcollected)
    rintro p p' ⟨k, rfl, -⟩
    exact collect_written _ p k
  generalize (assemble r.setting name s₁.registry f).1.model.properties = properties at hwritten ⊢
  have hsorted : List.Forall₂ (Written _) (Model.sortProperties own r.options.keepOrder) _ :=
    (List.forall₂_take_append _ _ _ hwritten.flip).flip
  have hrest := List.forall₂_drop_append _ _ _ hwritten.flip
  -- the collected models in the order of the properties, not yet sorted
  obtain ⟨collected, hpairs, hperm⟩ := List.perm_comp_forall₂ (sortBy_perm _ own).symm hsorted
  refine ⟨collected, _, _, (List.take_append_drop _ properties).symm, hperm.symm,
    collected_pairwise hsorted, forall₂_comp hown hpairs fun e p p' _ _ hp hp' => ?_, fun hnone => ?_⟩
  · exact ⟨hp'.name.trans hp.name, fun hc => hp'.metadata.trans (hp.intact hc),
      fun hc => hp'.metadata.trans (hp.detached hc)⟩
  · rw [hplaces hnone] at hrest
    exact List.forall₂_nil_right_iff.mp hrest

end

/-- The guest of a booking. -/
def guest : Schema :=
  { types := ["object"], description := some "Who", hints.order := some (Double.ofDecimal false 1 0)
    properties := [("name", .typed "string")] }

/-- The seats of a booking. -/
def seats : Schema :=
  { types := ["array"], description := some "Where", hints.order := some (Double.ofDecimal false 2 0)
    items := some (.single { types := ["object"], properties := [("row", .typed "integer")] }) }

/-- A booking, with its guest before its seats, and its code at the end. -/
def booking : Schema :=
  { types := ["object"], properties := [("code", .typed "string"), ("guest", guest), ("seats", seats)] }

/-- A run over the definition of a booking. -/
def bookings : Run := ofDefinitions [("Booking", booking)]

theorem booking_described : bookings.definitions.lookup "Booking" = some booking ∧
    booking.reference = none ∧ booking.allOf = [] ∧ bookings.definitions.Intact seats ∧
    bookings.definitions.Detached guest ∧ ∃ file warnings hoisted,
      bookings.generateReserving "Booking" [] = .ok (file, warnings, hoisted) ∧
      file.model.properties.map (fun p => (p.name, p.description)) =
        [("seats", some "Where"), ("code", none), ("guest", none)] ∧
      ∃ own sorted places, file.model.properties = sorted ++ places ∧ sorted.Perm own ∧
        sorted.Pairwise (Model.propertyLE bookings.options.keepOrder · · = true) ∧
        List.Forall₂ (Describes bookings.definitions bookings.options.keepOrder)
          booking.properties own ∧ (booking.tupleItems? = none → places = []) := by
  -- a list is left as it is, though a definition is made of its elements
  have hseats : bookings.definitions.Intact seats :=
    (Definitions.intact_iff_not_detached (.inl (by decide)) (.here rfl)).mpr fun h => by
      cases h with
      | record _ hrec => exact absurd hrec (by decide)
      | tuple _ hplaces => exact absurd hplaces (by decide)
      | extended _ hvalue => exact absurd hvalue (by decide)
  obtain ⟨⟨file, warnings, hoisted⟩, h, hfacts⟩ := exists_ok_of_any
    (e := bookings.generateReserving "Booking" [])
    (p := fun x => x.1.model.properties.map (fun p => (p.name, p.description)) ==
      [("seats", some "Where"), ("code", none), ("guest", none)]) (by decide +kernel)
  exact ⟨rfl, rfl, rfl, hseats, .record rfl (by decide), file, warnings, hoisted, h,
    beq_iff_eq.mp hfacts, properties_described rfl rfl rfl h⟩

/-- The guest says who it is and asks for the first place, and has neither in the file. -/
theorem guest_undescribed : bookings.definitions.Canonical ∧
    bookings.definitions.lookup "Booking" = some booking ∧ ("guest", guest) ∈ booking.properties ∧
    guest.description = some "Who" ∧ guest.hints.order = some (Double.ofDecimal false 1 0) ∧
    ∃ file warnings hoisted p,
      bookings.generateReserving "Booking" [] = .ok (file, warnings, hoisted) ∧
      file.model.properties.map (·.name) = ["seats", "code", "guest"] ∧
      p ∈ file.model.properties ∧ p.name = "guest" ∧ p.description = none ∧ p.order = none := by
  obtain ⟨⟨file, warnings, hoisted⟩, h, hfacts⟩ := exists_ok_of_any
    (e := bookings.generateReserving "Booking" [])
    (p := fun x => x.1.model.properties.map (·.name) == ["seats", "code", "guest"] &&
      x.1.model.properties.any fun p =>
        p.name == "guest" && p.description.isNone && p.order.isNone) (by decide +kernel)
  rw [Bool.and_eq_true, beq_iff_eq] at hfacts
  obtain ⟨p, hp, hlost⟩ := List.any_eq_true.mp hfacts.2
  simp only [Bool.and_eq_true, beq_iff_eq, Option.isNone_iff_eq_none] at hlost
  obtain ⟨⟨hname, hdescription⟩, horder⟩ := hlost
  exact ⟨Definitions.canonical_of_check (by decide +kernel), rfl, by simp [booking], rfl, rfl, file,
    warnings, hoisted, p, h, hfacts.1, hp, hname, hdescription, horder⟩

end Run

end KclModels
