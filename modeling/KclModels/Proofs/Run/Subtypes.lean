import KclModels.Proofs.Build.Inheriting
import KclModels.Proofs.Run.Transparency
import KclModels.Text.AsciiTable

/-!
# What subtypes declare

A subtype is composed of bases and of what it is besides. Each property is left to one branch of the
composition, to that of a base wherever a base declares it; so of the fields of the base that the
schema inherits from none is declared again. Two things can go wrong. A base whose branch has no
model, since the composition gave way to one branch, takes properties from the other branches and has
no place to keep them. And what stands beside the branches, or is declared for a branch later, does
not take part.
-/

namespace KclModels

open Build KclModels.Frame

/-- What ends at a schema without branches declares its properties only. -/
theorem Definitions.Ends.mem_keys {defs : Definitions} {c d : Schema} {x : String}
    (h : defs.Ends c d) (hall : d.allOf = []) (hx : defs.Declares c x) :
    x ∈ Assoc.keys d.properties := by
  obtain ⟨e, he, hx⟩ := hx.exists_end
  obtain rfl := h.unique he
  cases hx with
  | own _ hx => exact hx
  | branch _ hb => exact absurd hb (by simp [hall])
  | target href => exact absurd (h.reference.symm.trans href) (by simp)

namespace Run

variable {setting : Setting} {s s' : Session} {c b base : Schema} {m m' : Model} {i : Nat}
variable {r : Run} {name : String} {taken hoisted : List String} {subtype : Subtype}
variable {file : ModelFile} {warnings : List Warning}

/-! ## One branch for each property -/

section

variable {tr : Text.Transliteration}

/--
**The properties of a subtype are shared out among its branches** once the full models of bases are in
place: no name is lost and none stands twice, what a base declares is left to a base, and all else to
the first branch that declares it.
-/
theorem expandSubtype_shares_out
    (hplace : ∀ (i : Nat) b, c.allOf[i]? = some b → RefersToBase s'.registry b →
      i < m.allOf.length)
    (h : (expandSubtype setting m c subtype).Gives s m' s') :
    ∃ allOf, BasesPlaced setting m.name s'.registry c.allOf m.allOf allOf ∧
      m' = subtypeModel m subtype m'.allOf ∧
      Model.SharedOut (fun i => ∃ b, c.allOf[i]? = some b ∧ RefersToBase s'.registry b) allOf
        m'.allOf := by
  obtain ⟨allOf, ofBases, hex, rfl⟩ := expandSubtype_cases h
  obtain ⟨hplaced, hof⟩ := expandBranches_placed hplace hex
  refine ⟨allOf, hplaced, rfl, Model.dedupBranches_sharedOut ?_ hof⟩
  rintro i k ⟨b, hb, hbase⟩ hk
  obtain ⟨base, hplace, hexpands⟩ := hplaced.bases i b hb hbase
  obtain rfl := Option.some.inj (hk.symm.trans hplace)
  exact hexpands.isBase

/-- A pet has a kind, by which its subtypes are told apart. -/
def pet : Schema where
  types := ["object"]
  discriminator := some "kind"
  properties := [("kind", .typed "string"), ("name", .typed "string")]

/-- Whatever is chipped has a chip, and a name as well. -/
def chipped : Schema where
  types := ["object"]
  discriminator := some "chip"
  properties := [("chip", .typed "string"), ("name", .typed "string")]

/-- What a hound is besides: a branch that declares kind and name once more. -/
def hunting : Schema where
  types := ["object"]
  properties := [("kind", .typed "string"), ("name", .typed "string"), ("pack", .typed "string")]

/-- A hound is composed of an object of its own, of two bases and of something else. -/
def hound : Schema where
  allOf := [hunting, .referenceTo "Pet", .referenceTo "Chipped", .referenceTo "Collared"]

/-- Whatever is collared has a label. -/
def collared : Schema where
  types := ["object"]
  properties := [("label", .typed "string")]

def hounds : Run := ofDefinitions [("Pet", pet), ("Chipped", chipped), ("Collared", collared),
  ("Hound", hound)]

/-- A hound, told apart from others by a field of a base. -/
def houndBy (field base : String) : Subtype where
  fieldName := field
  fieldValue := "Hound"
  kclType := "Hound"
  jsonName := "Hound"
  reference := Reference.toDefinition "Hound"
  parentReference := Reference.toDefinition base

/-- The model of a subtype, its branches with the full models of bases in place, and what it becomes. -/
def expansion [Text.Transliteration] (r : Run) (name : String) (c : Schema) (subtype : Subtype) :
    Build (Model × List Model × Model) := do
  let built ← definition r.setting name c name
  let (allOf, ofBases) ← expandBranches r.setting built.model.name 0 built.model.allOf c.allOf
  return (built.model, allOf,
    subtypeModel built.model subtype (Model.dedupBranches ofBases [] allOf))

/-- An expansion that is found by running it. -/
theorem exists_expansion_of_any [Text.Transliteration] (r : Run) (name : String) (c : Schema)
    (subtype : Subtype) {p : Model × List Model × Model → Bool}
    (h : ((expansion r name c subtype).run (r.session [])).run.1.toOption.any p = true) :
    ∃ built s₁ allOf ofBases m' s',
      (definition r.setting name c name).Gives (r.session []) built s₁ ∧
      (expandBranches r.setting built.model.name 0 built.model.allOf c.allOf).Gives s₁
        (allOf, ofBases) s' ∧
      (expandSubtype r.setting built.model c subtype).Gives s₁ m' s' ∧
      p (built.model, allOf, m') = true := by
  obtain ⟨⟨m, allOf, m'⟩, hrun, hp⟩ := exists_ok_of_any h
  have hgives : (expansion r name c subtype).Gives (r.session []) (m, allOf, m') _ :=
    Prod.ext hrun rfl
  simp only [expansion, gives_bind, gives_pure, Prod.mk.injEq] at hgives
  obtain ⟨built, s₁, hbuilt, ⟨allOf, ofBases⟩, s', hex, ⟨rfl, rfl, rfl⟩, -⟩ := hgives
  refine ⟨built, s₁, allOf, ofBases, _, s', hbuilt, hex, ?_, hp⟩
  simp only [expandSubtype, gives_bind, gives_pure]
  exact ⟨(allOf, ofBases), s', hex, rfl, rfl⟩

end

theorem hounds_share_out : ∃ built s₁ m' s',
    (definition hounds.setting "Hound" hound "Hound").Gives (hounds.session []) built s₁ ∧
    (expandSubtype hounds.setting built.model hound (houndBy "chip" "Chipped")).Gives s₁ m' s' ∧
    (∀ (i : Nat) b, hound.allOf[i]? = some b → RefersToBase s'.registry b →
      i < built.model.allOf.length) ∧
    m'.allOf.map (names ·.properties) = [["pack"], ["kind", "name"], ["chip"], []] ∧
    ∃ allOf, BasesPlaced hounds.setting built.model.name s'.registry hound.allOf
        built.model.allOf allOf ∧
      m' = subtypeModel built.model (houndBy "chip" "Chipped") m'.allOf ∧
      Model.SharedOut (fun i => ∃ b, hound.allOf[i]? = some b ∧ RefersToBase s'.registry b) allOf
        m'.allOf := by
  obtain ⟨built, s₁, _, _, m', s', hbuilt, _, hexpand, hp⟩ := exists_expansion_of_any
    hounds "Hound" hound (houndBy "chip" "Chipped")
    (p := fun ms => decide (ms.1.allOf.length = 4 ∧
      ms.2.2.allOf.map (names ·.properties) = [["pack"], ["kind", "name"], ["chip"], []]))
    (by decide +kernel)
  obtain ⟨hlen, hnames⟩ := of_decide_eq_true hp
  -- there are as many branches as places
  have hplace : ∀ (i : Nat) b, hound.allOf[i]? = some b → RefersToBase s'.registry b →
      i < built.model.allOf.length := by
    intro i b hb _
    rw [hlen]
    exact (List.getElem?_eq_some_iff.mp hb).1
  exact ⟨built, s₁, m', s', hbuilt, hexpand, hplace, hnames,
    expandSubtype_shares_out hplace hexpand⟩

/-- A hound with a branch that says something only in words, and one that both refers and composes. -/
def describedHound : Schema where
  allOf := [{ description := some "Hunts in packs" },
    { Schema.referenceTo "Pet" with allOf := [hunting] }]

def describedHounds : Run := ofDefinitions [("Pet", pet), ("Hound", describedHound)]

/--
The composition gives way to its second branch, so there is no second branch in the model for the full
model of the base. The name that the base declares is still taken from the first: it is lost.
-/
theorem describedHounds_name_lost : describedHounds.definitions.Canonical ∧
    describedHounds.polymorphism.subtypes.lookup (Reference.toDefinition "Hound") =
      some (houndBy "kind" "Pet") ∧
    ∃ built s₁ m' s',
      (definition describedHounds.setting "Hound" describedHound "Hound").Gives
        (describedHounds.session []) built s₁ ∧
      (expandSubtype describedHounds.setting built.model describedHound
        (houndBy "kind" "Pet")).Gives s₁ m' s' ∧
      ∃ allOf ofBases, (expandBranches describedHounds.setting built.model.name 0 built.model.allOf
          describedHound.allOf).Gives s₁ (allOf, ofBases) s' ∧
        "name" ∈ Model.branchNames allOf ∧ "name" ∉ Model.branchNames m'.allOf := by
  obtain ⟨built, s₁, allOf, ofBases, m', s', hbuilt, hex, hexpand, hp⟩ := exists_expansion_of_any
    describedHounds "Hound" describedHound (houndBy "kind" "Pet")
    (p := fun ms => decide ("name" ∈ Model.branchNames ms.2.1 ∧
      "name" ∉ Model.branchNames ms.2.2.allOf)) (by decide +kernel)
  obtain ⟨hbefore, hafter⟩ := of_decide_eq_true hp
  exact ⟨Definitions.canonical_of_check (by decide +kernel), by decide +kernel, built, s₁, m', s',
    hbuilt, hexpand, allOf, ofBases, hex, hbefore, hafter⟩

/-! ## Fields of the base -/

section

variable {tr : Text.Transliteration}

/--
**A subtype declares no field of the base that it inherits from** once more, if it leaves them to the
base: not among its own properties, nor for a branch that is left without properties.
-/
theorem subtype_redeclares_nothing (hc : r.definitions.Canonical)
    (hget : r.definitions.lookup name = some c)
    (hsub : r.polymorphism.subtypes.lookup (Reference.toDefinition name) = some subtype)
    (hl : r.definitions.LeavesFields c i b base)
    (h : r.generateReserving name taken = .ok (file, warnings, hoisted)) :
    file.model.parentBranch = some i ∧
      (∃ parent, file.model.allOf[i]? = some parent ∧ parent.reference = b.referenceName) ∧
      ∀ a ∈ Kcl.attributes file.model file.model.parentBranch,
        a.name ∉ Assoc.keys base.properties := by
  obtain ⟨s', hbuild, -⟩ := generateReserving_ok h
  obtain ⟨f, s₁, hf, -, rfl⟩ := Build.file_cases hbuild
  obtain ⟨hinherits, -⟩ := fileFrame_inherits (session_holds taken hc) hget (branches_known hc hget)
    hsub hl.toInheritsFrom hf
  have hdeclared : (declare r.setting name s₁.registry f.model).Inherits r.definitions c i b base :=
    ⟨hinherits.tuple, hinherits.properties, hinherits.parent, hinherits.branch, hinherits.others⟩
  rw [(Build.assemble_facts r.setting name s₁.registry f).1]
  -- collecting imports keeps the names
  have halike : (declare r.setting name s₁.registry f.model).Alike _ :=
    Imports.collectRendered_alike (r.setting.options.packageOf name) _ {}
  refine ⟨halike.parentBranch ▸ hdeclared.parent, ?_, fun a ha => ?_⟩
  · obtain ⟨k, hk, href⟩ := hdeclared.branch
    obtain ⟨k', hk', hsame⟩ := halike.part (e := .branch i) hk
    exact ⟨k', hk', (congrArg ModelFacts.reference hsame.outline).symm.trans href⟩
  · refine hl.free hdeclared a.name ?_
    rw [← names_attributes_alike halike hdeclared.tuple]
    exact List.mem_map_of_mem ha

end

theorem hounds_end_pet : hounds.definitions.Ends (.referenceTo "Pet") pet :=
  .next rfl (n := "Pet") (by decide) rfl (.here rfl)

theorem hounds_end_chipped : hounds.definitions.Ends (.referenceTo "Chipped") chipped :=
  .next rfl (n := "Chipped") (by decide) rfl (.here rfl)

theorem hounds_end_collared : hounds.definitions.Ends (.referenceTo "Collared") collared :=
  .next rfl (n := "Collared") (by decide) rfl (.here rfl)

/-- Hounds are composed of objects without branches. -/
theorem hounds_composes : hounds.definitions.Composes hound := by
  have hobject : ∀ d ∈ [hunting, pet, chipped, collared],
      d.reference = none ∧ d.saysObject = true ∧ d.items = none ∧ d.allOf = [] := by decide
  have hcomposed : ∀ d ∈ [hunting, pet, chipped, collared], d.Composed := by
    intro d hd
    obtain ⟨href, hsays, hitems, hall⟩ := hobject d hd
    exact ⟨href, hsays, hitems, fun b hb => absurd hb (by simp [hall])⟩
  refine ⟨⟨rfl, rfl, rfl, fun b hb => ?_⟩, fun b hb d hd => ?_⟩
  all_goals
    obtain rfl | rfl | rfl | rfl : b = hunting ∨ b = .referenceTo "Pet" ∨
      b = .referenceTo "Chipped" ∨ b = .referenceTo "Collared" := by simpa [hound] using hb
  · exact .object rfl rfl rfl
  · exact .solitary (Schema.solitary_referenceTo _)
  · exact .solitary (Schema.solitary_referenceTo _)
  · exact .solitary (Schema.solitary_referenceTo _)
  · exact hcomposed d (by simp [hd.of_inline rfl])
  · exact hcomposed d (by simp [hounds_end_pet.unique hd])
  · exact hcomposed d (by simp [hounds_end_chipped.unique hd])
  · exact hcomposed d (by simp [hounds_end_collared.unique hd])

/-- Hounds leave kind and name to the pets. -/
theorem hounds_leaveFields : hounds.definitions.LeavesFields hound 1 (.referenceTo "Pet") pet where
  composes := hounds_composes
  whole := ⟨rfl, fun _ => .inl (by decide)⟩
  branch := rfl
  refers := rfl
  ends := hounds_end_pet
  discriminator := rfl
  record := rfl
  wholeBase := ⟨rfl, fun hlen => absurd hlen (by decide)⟩
  first j b' d hj hb' hd := by
    obtain rfl : j = 0 := Nat.lt_one_iff.mp hj
    obtain rfl : hunting = b' := Option.some.inj hb'
    rw [hd.of_inline rfl]
    rfl
  own _ _ := List.not_mem_nil
  others j b' hj hb' hx := by
    obtain ⟨x, hx, hdeclares⟩ := hx
    match j with
    | 0 =>
      -- the pack is declared by the branch itself
      obtain rfl : hunting = b' := Option.some.inj hb'
      exact .own ⟨rfl, rfl, rfl⟩ rfl
    | 1 => exact absurd rfl hj
    | 2 =>
      obtain rfl : .referenceTo "Chipped" = b' := Option.some.inj hb'
      -- what is chipped has a base of its own, which no branch before it declares
      refine .base (y := "chip") rfl hounds_end_chipped rfl ⟨rfl, fun hlen => absurd hlen (by decide)⟩
        (by decide) fun k b₀ d hk hb₀ hd hdisc hchip => ?_
      match k with
      | 0 =>
        obtain rfl : hunting = b₀ := Option.some.inj hb₀
        obtain rfl := hd.of_inline rfl
        exact absurd hdisc (by decide)
      | 1 =>
        obtain rfl : .referenceTo "Pet" = b₀ := Option.some.inj hb₀
        exact absurd (hounds_end_pet.mem_keys rfl hchip) (by decide)
      | k + 2 => exact absurd hk (by omega)
    | 3 =>
      obtain rfl : .referenceTo "Collared" = b' := Option.some.inj hb'
      -- a collar has no field of a pet
      have hlabel := hounds_end_collared.mem_keys rfl hdeclares
      have hdisjoint : ∀ x ∈ Assoc.keys pet.properties, x ∉ Assoc.keys collared.properties := by
        decide
      exact absurd hlabel (hdisjoint x hx)
    | j + 4 => exact absurd hb' (by simp [hound])

theorem hounds_redeclare_nothing : hounds.definitions.Canonical ∧
    hounds.definitions.lookup "Hound" = some hound ∧
    hounds.polymorphism.subtypes.lookup (Reference.toDefinition "Hound") =
      some (houndBy "chip" "Chipped") ∧
    hounds.definitions.LeavesFields hound 1 (.referenceTo "Pet") pet ∧
    ∃ file warnings hoisted, hounds.generateReserving "Hound" [] = .ok (file, warnings, hoisted) ∧
      names (Kcl.attributes file.model file.model.parentBranch) = ["pack", "chip", "label"] ∧
      file.model.parentBranch = some 1 ∧
      (∃ parent, file.model.allOf[1]? = some parent ∧
        parent.reference = (Schema.referenceTo "Pet").referenceName) ∧
      ∀ a ∈ Kcl.attributes file.model file.model.parentBranch,
        a.name ∉ Assoc.keys pet.properties := by
  have hc : hounds.definitions.Canonical := Definitions.canonical_of_check (by decide +kernel)
  have hsub : hounds.polymorphism.subtypes.lookup (Reference.toDefinition "Hound") =
      some (houndBy "chip" "Chipped") := by decide +kernel
  obtain ⟨⟨file, warnings, hoisted⟩, h, hnames⟩ := exists_ok_of_any
    (e := hounds.generateReserving "Hound" [])
    (p := fun made => names (Kcl.attributes made.1.model made.1.model.parentBranch) ==
      ["pack", "chip", "label"]) (by decide +kernel)
  exact ⟨hc, rfl, hsub, hounds_leaveFields, file, warnings, hoisted, h, beq_iff_eq.mp hnames,
    subtype_redeclares_nothing hc rfl hsub hounds_leaveFields h⟩

/-- Hounds that declare their name beside what they are composed of. -/
def namedHounds : Run := ofDefinitions [("Pet", pet),
  ("Hound", { properties := [("name", .typed "string")], allOf := [.referenceTo "Pet"] })]

/-- A hound inherits from the pets, and a name that it declares itself stands in its schema again. -/
theorem namedHounds_name_redeclared : namedHounds.definitions.Canonical ∧
    namedHounds.polymorphism.subtypes.lookup (Reference.toDefinition "Hound") =
      some (houndBy "kind" "Pet") ∧
    "name" ∈ Assoc.keys pet.properties ∧
    ∃ file warnings hoisted,
      namedHounds.generateReserving "Hound" [] = .ok (file, warnings, hoisted) ∧
      (∃ parent, file.model.allOf[0]? = some parent ∧ parent.reference = some "Pet") ∧
      file.model.parentBranch = some 0 ∧
      "name" ∈ names (Kcl.attributes file.model file.model.parentBranch) := by
  obtain ⟨⟨file, warnings, hoisted⟩, h, hmade⟩ := exists_ok_of_any
    (e := namedHounds.generateReserving "Hound" [])
    (p := fun made => decide (made.1.model.allOf.map (·.reference) = [some "Pet"] ∧
      made.1.model.parentBranch = some 0 ∧
      "name" ∈ names (Kcl.attributes made.1.model made.1.model.parentBranch)))
    (by decide +kernel)
  obtain ⟨hrefs, hparent, hname⟩ := of_decide_eq_true hmade
  obtain ⟨parent, hallOf, href⟩ := List.map_eq_singleton_iff.mp hrefs
  refine ⟨Definitions.canonical_of_check (by decide +kernel), by decide +kernel, by decide, file,
    warnings, hoisted, h, ⟨parent, ?_, href⟩, hparent, hname⟩
  rw [hallOf]
  rfl

end Run

end KclModels
