import KclModels.Proofs.Build.Flattening
import KclModels.Proofs.Imports.Rendered
import KclModels.Proofs.Run.Accounted
import KclModels.Text.AsciiTable

/-!
# Compositions lose no properties

What a definition declares, over any depth of composition, is an attribute of its schema or is
declared by the definition that the schema inherits from; as long as each branch that is not
inherited from leads to a shallow object. Of a branch that composes references in turn, what those
declare is lost.
-/

namespace KclModels

/-- A name that is shown is shown as well when the texts of types are written out. -/
theorem Shows.alike {defs : Definitions} {r : Registry} {m m' : Model} {x : String}
    (h : Shows defs r m x) (hm : m.Alike m') : Shows defs r m' x := by
  rcases h with hx | ⟨i, branch, n, d, hi, hbranch, hn, hd, hx⟩
  · refine .inl ?_
    rw [Frame.names, ← Kcl.names_ownAttributes hm]
    exact hx
  · obtain ⟨branch', hbranch', halike⟩ := hm.part (e := .branch i) hbranch
    refine .inr ⟨i, branch', n, d, hm.parentBranch ▸ hi, hbranch', ?_, hd, hx⟩
    have hout := congrArg ModelFacts.reference halike.outline
    exact hout.symm.trans hn

/-- Where a name is shown, a schema is declared and no alias. -/
theorem Shows.not_alias {defs : Definitions} {r : Registry} {m : Model} {x : String}
    (h : Shows defs r m x) (declaredName : String) : Kcl.isAlias m declaredName = false := by
  have hparts : m.properties ≠ [] ∨ m.allOf ≠ [] := by
    rcases h with hx | ⟨i, branch, -, -, -, hbranch, -⟩
    · rcases Kcl.mem_names_ownAttributes.mp hx with hx | ⟨i, branch, hbranch, -⟩
      · exact .inl fun hnil => absurd hx (by simp [hnil])
      · exact .inr fun hnil => absurd hbranch (by simp [hnil])
    · exact .inr fun hnil => absurd hbranch (by simp [hnil])
  rw [Kcl.isAlias]
  rcases hparts with hne | hne <;> simp [hne]

namespace Run

variable {r : Run} {name x : String} {taken : List String} {c : Schema} {file : ModelFile}
variable {s' : Session}

/-- The branches of a definition refer to definitions. -/
theorem branches_known (hc : r.definitions.Canonical) (hget : r.definitions.lookup name = some c) :
    ∀ b ∈ c.allOf, ∀ n, b.referenceName = some n → (r.definitions.lookup n).isSome = true := by
  intro b hb n hn
  obtain ⟨reference, href, hname⟩ := Option.bind_eq_some_iff.mp hn
  obtain ⟨m, hm, hhas⟩ :=
    ((hc name c hget).child (Schema.branch_mem_children hb)).here reference href
  rw [hname] at hm
  exact Option.some.inj hm ▸ hhas

theorem session_holds (taken : List String) (hc : r.definitions.Canonical) :
    (r.session taken).registry.Holds r.definitions where
  keeps _ _ hd := hd
  closed n d hd m hm := by
    obtain ⟨reference, href, hname⟩ := Option.bind_eq_some_iff.mp hm
    obtain ⟨m', hm', hhas⟩ := (hc n d hd).here reference href
    rw [hname] at hm'
    exact Option.some.inj hm' ▸ hhas

section

variable {tr : Text.Transliteration}

/--
**A composition loses no property**, if each branch that the schema does not inherit from leads to an
object whose branches are objects with nothing below them: what is declared is an attribute of the
schema, or is declared by the definition that the schema inherits from.
-/
theorem composition_keeps_properties (hc : r.definitions.Canonical)
    (hget : r.definitions.lookup name = some c) (hcomposes : r.definitions.Composes c)
    (hlift : ∀ b, ¬ Frame.Lifts
      (Build.resolverAt r.setting (Frame.root name c name) (r.session taken)) c b)
    (h : r.buildFile name taken = (.ok file, s'))
    (hflat : ∀ (i : Nat) b, c.allOf[i]? = some b → file.model.parentBranch ≠ some i →
      ∀ d, r.definitions.Ends b d →
        Flat (r.polymorphism.isSubtype (Reference.toDefinition name) = true) d)
    (hx : r.definitions.Declares c x) :
    Kcl.isAlias file.model file.model.declaredName = false ∧
      ((∃ a ∈ Kcl.attributes file.model file.model.parentBranch, a.name = x) ∨
        ∃ (i : Nat) (branch : Model) (n : String) (d : Schema), file.model.parentBranch = some i ∧
          file.model.allOf[i]? = some branch ∧ branch.reference = some n ∧
          s'.registry.get? n = some d ∧ r.definitions.Declares d x) := by
  obtain ⟨f, s₁, hf, hreg, hfile⟩ := Build.file_cases h
  have hmodel : file.model = (Imports.collectRendered (r.setting.options.packageOf name)
      (Build.declare r.setting name s₁.registry f.model) {}).1 := by
    rw [hfile]
    rfl
  have halike := Imports.collectRendered_alike (r.setting.options.packageOf name)
    (Build.declare r.setting name s₁.registry f.model) {}
  rw [← hmodel] at halike
  have hparent : file.model.parentBranch = f.model.parentBranch := halike.parentBranch.symm
  have hknown := branches_known hc hget
  -- it is shown before imports are collected, which adds and removes nothing
  have hshows : Shows r.definitions s'.registry file.model x := by
    rw [hreg]
    refine Shows.alike ?_ halike
    have hframe := fileFrame_shows (session_holds taken hc) hget hcomposes hknown hlift hf
      (fun i b hb hne => hflat i b hb (hparent ▸ hne)) hx
    exact hframe
  refine ⟨hshows.not_alias _, hshows.imp_left fun hx => ?_⟩
  obtain ⟨a, ha, rfl⟩ := List.mem_map.mp hx
  exact ⟨a, List.mem_append_left _ ha, rfl⟩

/-! ### Runs with compositions -/

theorem exists_built_of_any [Text.Transliteration] (r : Run) (name : String) (taken : List String)
    {p : ModelFile → Session → Bool}
    (h : ((r.buildFile name taken).1.toOption.any (p · (r.buildFile name taken).2)) = true) :
    ∃ file s', r.buildFile name taken = (.ok file, s') ∧ p file s' = true := by
  obtain ⟨file, hfile, hp⟩ := exists_ok_of_any h
  exact ⟨file, _, Prod.ext hfile rfl, hp⟩

end

/-- A size is composed in turn. -/
def size : Schema :=
  { types := ["object"], properties := [("width", .typed "integer")]
    allOf := [{ types := ["object"], properties := [("height", .typed "integer")] }] }

/-- A parcel is composed of a label and of a size. -/
def parcel : Schema :=
  { types := ["object"], properties := [("weight", .typed "integer")]
    allOf := [.referenceTo "Label", .referenceTo "Size"] }

def parcels : Run := ofDefinitions [
  ("Label", { types := ["object"], properties := [("text", .typed "string")] }), ("Size", size),
  ("Parcel", parcel)]

theorem parcels_composed {b d : Schema} (hb : b = .referenceTo "Label" ∨ b = .referenceTo "Size")
    (hd : parcels.definitions.Ends b d) :
    d.Shallow ∧ d.discriminator = none := by
  rcases hb with rfl | rfl
  · have hlabel : parcels.definitions.Ends (.referenceTo "Label")
        { types := ["object"], properties := [("text", .typed "string")] } :=
      .next rfl (n := "Label") (by decide) rfl (.here rfl)
    obtain rfl := hlabel.unique hd
    exact ⟨⟨⟨rfl, rfl, rfl, fun b hb => absurd hb List.not_mem_nil⟩,
      fun b hb => absurd hb List.not_mem_nil⟩, rfl⟩
  · have hsize : parcels.definitions.Ends (.referenceTo "Size") size :=
      .next rfl (n := "Size") (by decide) rfl (.here rfl)
    obtain rfl := hsize.unique hd
    refine ⟨⟨⟨rfl, rfl, rfl, fun b hb => ?_⟩, fun b hb => ?_⟩, rfl⟩
    · obtain rfl := List.mem_singleton.mp hb
      exact .object rfl rfl rfl
    · obtain rfl := List.mem_singleton.mp hb
      exact ⟨rfl, rfl, rfl⟩

theorem parcels_height_kept : parcels.definitions.Canonical ∧ ∃ file s',
    parcels.definitions.lookup "Parcel" = some parcel ∧
    parcels.definitions.Composes parcel ∧
    (∀ b, ¬ Frame.Lifts (Build.resolverAt parcels.setting (Frame.root "Parcel" parcel "Parcel")
      (parcels.session [])) parcel b) ∧
    parcels.buildFile "Parcel" [] = (.ok file, s') ∧
    parcels.definitions.Declares parcel "height" ∧
    ((∃ a ∈ Kcl.attributes file.model file.model.parentBranch, a.name = "height") ∨
      ∃ (i : Nat) (branch : Model) (n : String) (d : Schema), file.model.parentBranch = some i ∧
        file.model.allOf[i]? = some branch ∧ branch.reference = some n ∧
        s'.registry.get? n = some d ∧ parcels.definitions.Declares d "height") := by
  have hc : parcels.definitions.Canonical := Definitions.canonical_of_check (by decide)
  obtain ⟨file, s', h, -⟩ := exists_built_of_any parcels "Parcel" [] (p := fun _ _ => true)
    (by decide +kernel)
  have hget : parcels.definitions.lookup "Parcel" = some parcel := rfl
  have hbranches : ∀ b ∈ parcel.allOf, b = .referenceTo "Label" ∨ b = .referenceTo "Size" :=
    fun b hb => by simpa [parcel] using hb
  have hcomposes : parcels.definitions.Composes parcel := by
    refine ⟨⟨rfl, rfl, rfl, fun b hb => .solitary ?_⟩, fun b hb d hd => ?_⟩
    · rcases hbranches b hb with rfl | rfl <;> exact Schema.solitary_referenceTo _
    · exact (parcels_composed (hbranches b hb) hd).1.toComposed
  have hlift : ∀ b, ¬ Frame.Lifts (Build.resolverAt parcels.setting
      (Frame.root "Parcel" parcel "Parcel") (parcels.session [])) parcel b :=
    Frame.not_lifts_of_length (by decide)
  -- a parcel has a size, and that has a height
  have hdeclares : parcels.definitions.Declares parcel "height" :=
    .branch rfl (b := .referenceTo "Size") (by simp [parcel]) (.target rfl (n := "Size")
      (by decide) rfl (.branch rfl List.mem_cons_self (.own rfl List.mem_cons_self)))
  refine ⟨hc, file, s', hget, hcomposes, hlift, h, hdeclares, ?_⟩
  refine (composition_keeps_properties hc hget hcomposes hlift h (fun i b hb _ d hd => ?_)
    hdeclares).2
  obtain ⟨hshallow, hdisc⟩ :=
    parcels_composed (hbranches b (List.mem_of_getElem? hb)) hd
  exact ⟨hshallow, fun _ hsome => absurd hsome (by simp [hdisc])⟩

/-- The label is inherited, and all of the size is declared. -/
example : (parcels.buildFile "Parcel" []).1.toOption.map (fun file =>
    (Kcl.attributes file.model file.model.parentBranch).map (·.name)) =
      some ["weight", "width", "height"] := by decide +kernel

/-- A letter is composed of a label and of a cover that composes a stamp. -/
def letters : Run := ofDefinitions [
  ("Label", { types := ["object"], properties := [("text", .typed "string")] }),
  ("Stamp", { types := ["object"], properties := [("price", .typed "integer")] }),
  ("Cover", { allOf := [.referenceTo "Stamp",
    { types := ["object"], properties := [("color", .typed "string")] }] }),
  ("Letter", { allOf := [.referenceTo "Label", .referenceTo "Cover"] })]

/-- What the stamp of a cover declares is lost in a letter that inherits from its label. -/
theorem letters_price_lost : letters.definitions.Canonical ∧ ∃ letter file s',
    letters.definitions.lookup "Letter" = some letter ∧
    letters.definitions.Declares letter "price" ∧
    (∀ b, ¬ Frame.Lifts (Build.resolverAt letters.setting (Frame.root "Letter" letter "Letter")
      (letters.session [])) letter b) ∧
    letters.buildFile "Letter" [] = (.ok file, s') ∧
    ¬ ((∃ a ∈ Kcl.attributes file.model file.model.parentBranch, a.name = "price") ∨
        ∃ (i : Nat) (branch : Model) (n : String) (d : Schema), file.model.parentBranch = some i ∧
          file.model.allOf[i]? = some branch ∧ branch.reference = some n ∧
          s'.registry.get? n = some d ∧ letters.definitions.Declares d "price") := by
  refine ⟨Definitions.canonical_of_check (by decide), ?_⟩
  obtain ⟨file, s', h, hcheck⟩ := exists_built_of_any letters "Letter" []
    (p := fun file s' =>
      !(Kcl.attributes file.model file.model.parentBranch).any (·.name == "price") &&
        (file.model.parentBranch.bind (file.model.allOf[·]?)).all fun branch =>
          branch.reference.all fun n => (s'.registry.get? n).all fun d =>
            d.reference.isNone && d.allOf.isEmpty && !(Assoc.keys d.properties).contains "price")
    (by decide +kernel)
  refine ⟨_, file, s', rfl, ?_, Frame.not_lifts_of_length (by decide), h, ?_⟩
  · refine .branch rfl (b := .referenceTo "Cover") (by simp) (.target rfl (n := "Cover")
      (by decide) rfl (.branch rfl List.mem_cons_self (.target rfl (n := "Stamp")
        (by decide) rfl (.own rfl List.mem_cons_self))))
  · simp only [Bool.and_eq_true, Bool.not_eq_true', List.any_eq_false, beq_iff_eq,
      Option.all_eq_true, Option.isNone_iff_eq_none, List.isEmpty_iff] at hcheck
    obtain ⟨hattributes, hparent⟩ := hcheck
    rintro (⟨a, ha, hname⟩ | ⟨i, branch, n, d, hi, hbranch, hn, hd, hx⟩)
    · exact hattributes a ha hname
    · obtain ⟨⟨hnone, hnil⟩, hkeys⟩ := hparent branch (by rw [hi]; exact hbranch) n hn d hd
      -- a label declares no price, has no branches and is no reference
      cases hx with
      | own _ hx => simp [hx] at hkeys
      | branch _ hb _ => exact absurd hb (by simp [hnil])
      | target href => exact absurd (hnone.symm.trans href) (by simp)

end Run

end KclModels
