import KclModels.Proofs.Build.FileStanding
import KclModels.Proofs.Canonical.Settling
import KclModels.Proofs.Registry.Walks
import KclModels.Proofs.Run.Accounted
import KclModels.Proofs.Run.Files
import KclModels.Text.AsciiTable

/-!
# What the generated definitions are

A document made ready knows every definition that it names, so that what the main model of a file is
follows from the definitions: for a reference from the schema at its end, for any other from the
schema that it is built of.
-/

namespace KclModels

variable {tr : Text.Transliteration}

/--
What stands in the place of the definition has no elements of which a definition is made beside a
reference, or beside branches of which one might take its place.
-/
structure Schema.Unmixed (c : Schema) : Prop where
  own : c.ItemsApart
  branches : ∀ b, c.Sole b → b.ItemsApart

/-- What the model of a definition is, by its schema. -/
inductive Definitions.Makes (defs : Definitions) (c : Schema) (m : Standing) : Prop
  | reference {d : Schema} : c.reference.isSome = true → defs.Ends c d → m.Refers d → Makes defs c m
  | built {b d : Schema} : defs.BuiltOf c b d → m.Of b d → Makes defs c m

theorem Definitions.Makes.of_builtOf {defs : Definitions} {b c d : Schema} {m : Standing}
    (h : defs.Makes c m) (hb : defs.BuiltOf c b d) : m.Of b d := by
  cases h with
  | reference href => exact absurd (href.symm.trans hb.not_reference) (by decide)
  | built hb' hof =>
    obtain ⟨rfl, rfl⟩ := hb.unique hb'
    exact hof

theorem Definitions.Makes.refers {defs : Definitions} {c d : Schema} {m : Standing}
    (h : defs.Makes c m) (href : c.reference.isSome = true) (hd : defs.Ends c d) : m.Refers d := by
  cases h with
  | reference _ hd' hrefers => exact hd.unique hd' ▸ hrefers
  | built hb => exact absurd (href.symm.trans hb.not_reference) (by decide)

namespace TypeInfo

variable {t t' : TypeInfo}

/-- The kind of a type does not depend on its text. -/
theorem category_of_outline (h : Model.typeOutline t' = Model.typeOutline t) :
    t'.category = t.category := by
  change (Model.typeOutline t').category = (Model.typeOutline t).category
  rw [h]

theorem complex_of_outline (h : Model.typeOutline t' = Model.typeOutline t) :
    t'.complex = t.complex := by
  change (Model.typeOutline t').complex = (Model.typeOutline t).complex
  rw [h]

theorem tuple_of_outline (h : Model.typeOutline t' = Model.typeOutline t) : t'.tuple = t.tuple := by
  change (Model.typeOutline t').tuple = (Model.typeOutline t).tuple
  rw [h]

end TypeInfo

namespace Run

open Build

variable {document : Swagger} {options : Options} {r : Run} {name : String} {c : Schema}
variable {taken hoisted : List String} {file : ModelFile} {warnings : List Warning}

theorem prepare_holds (h : prepare document options = .ok r) (taken : List String) :
    (r.session taken).registry.Holds r.definitions :=
  ⟨fun _ _ hd => hd, fun _ _ hd m hm => (prepare_known h hd).here.1 m hm⟩

/-- What the main model of a file is, was built of the definition. -/
theorem generateReserving_standing (hget : r.definitions.lookup name = some c)
    (h : r.generateReserving name taken = .ok (file, warnings, hoisted)) :
    ∃ built s₁, (Frame.root name c name).Builds r.setting (r.session taken) built s₁ ∧
      Standing.InFile r.polymorphism name built.model.standing file.model.standing := by
  obtain ⟨s', hbuild, -⟩ := generateReserving_ok h
  obtain ⟨f, s₁, hf, -, rfl⟩ := file_cases hbuild
  obtain ⟨built, s₂, hbuilt, hsame, -⟩ := fileFrame_standing (s := r.session taken) hget hf
  obtain ⟨houtline, hstanding⟩ := assemble_standing r.setting name s₁.registry f
  refine ⟨built, s₂, hbuilt, ?_⟩
  rw [hstanding]
  exact ⟨houtline.trans hsame.type,
    fun hwritten => assemble_written r.setting name s₁.registry (hsame.written hwritten), hsame.isBase,
    hsame.isSubtype, hsame.extended, hsame.branches, hsame.properties⟩

/-- **What the main model of a file is**, the definitions say. -/
theorem generateReserving_makes (hprepare : prepare document options = .ok r)
    (hget : r.definitions.lookup name = some c) (hmix : c.reference = none → c.Unmixed)
    (h : r.generateReserving name taken = .ok (file, warnings, hoisted)) :
    ∃ m, r.definitions.Makes c m ∧ Standing.InFile r.polymorphism name m file.model.standing := by
  obtain ⟨built, s₁, hbuilt, hfile⟩ := generateReserving_standing hget h
  refine ⟨built.model.standing, ?_, hfile⟩
  have hholds := prepare_holds hprepare taken
  have hknown := prepare_known hprepare hget
  cases href : c.reference with
  | some reference =>
    obtain ⟨d, hd, hrefers, -⟩ := hbuilt.standing_of_reference Frame.root_fresh rfl href
    exact .reference (by rw [href]; rfl) (hholds.ends hd href hknown.here.1) hrefers
  | none =>
    have hbranches : ∀ b ∈ c.allOf, ∀ n, b.referenceName = some n →
        (r.definitions.lookup n).isSome = true := fun b hb =>
      (hknown.child (Schema.mem_children_iff.mpr (.inr (.inl hb)))).here.1
    obtain ⟨hown, happart⟩ := hmix href
    obtain ⟨b, d, hb, hof⟩ := hbuilt.standing_of_definition Frame.root_fresh rfl href hholds hbranches
      hown happart
    exact .built hb hof

/-- How a file of the run writes the name of another definition. -/
inductive Writes (r : Run) (package : String) (declared : DeclaredType) (text : String) : Prop
  | own : declared.package = "" ∨ declared.package = package → text = declared.kclType →
      Writes r package declared text
  | foreign {before : String} : declared.package ≠ "" → declared.package ≠ package →
      text = before ++ "." ++ declared.kclType → Writes r package declared text

/-- **What an alias of another definition stands for** is the name of that definition. -/
theorem generateReserving_alias {d : Schema} {reference : String}
    (hprepare : prepare document options = .ok r) (hget : r.definitions.lookup name = some c)
    (href : c.reference = some reference) (hd : r.definitions.Ends c d) (halias : d.isAliasable = true)
    (h : r.generateReserving name taken = .ok (file, warnings, hoisted)) :
    ∃ n c', c.referenceName = some n ∧ r.definitions.lookup n = some c' ∧
      r.Writes (r.options.packageOf name)
        ((Registry.ofDefinitions r.definitions).declared r.options n c') file.model.type.kclType := by
  obtain ⟨s', hbuild, -⟩ := generateReserving_ok h
  obtain ⟨f, s₁, hf, -, rfl⟩ := file_cases hbuild
  obtain ⟨built, s₂, hbuilt, -, htype, hsame⟩ := fileFrame_standing (s := r.session taken) hget hf
  obtain ⟨d', hd', -, hwritten⟩ := hbuilt.standing_of_reference Frame.root_fresh rfl href
  obtain rfl := hd.unique ((prepare_holds hprepare taken).ends hd' href
    (prepare_known hprepare hget).here.1)
  obtain ⟨hitems, hvalue, n, c', hname, hget', hof⟩ := hwritten halias
  refine ⟨n, c', hname, hget', ?_⟩
  obtain ⟨item, value, j, hcollected, hitem, hextra⟩ := Imports.collectRendered_type
    (r.setting.options.packageOf name) (declare r.setting name s₁.registry f.model) {}
  obtain rfl := hitem (hsame.items.trans hitems)
  obtain rfl := hextra (hsame.value.trans hvalue)
  rw [(assemble_facts r.setting name s₁.registry f).1, hcollected]
  show r.Writes _ _ (Imports.qualify _ f.model.type j).1.kclType
  rw [htype]
  -- a type of the package itself is not qualified, any other is
  rcases Imports.qualify_text (r.setting.options.packageOf name) built.model.type j with
    ⟨hown, htext⟩ | ⟨hsome, hother, before, htext⟩
  · rw [hof.package] at hown
    exact .own hown (htext.trans hof.kclType)
  · rw [hof.package] at hsome hother
    exact .foreign hsome hother (htext.trans (congrArg (before ++ "." ++ ·) hof.kclType))

end Run

end KclModels

/-!
## The kinds that a listing reports

A listing looks the type of a definition up once, and generation changes what it looked up: items make
an array of anything, values of which nothing is said make a map, one branch may stand for the whole
composition, and a reference takes the shape of the schema at its end. So the two agree on the kind of
a definition only where none of this happens to matter; they always agree on its name.
-/

namespace KclModels

namespace Schema

variable {c : Schema}

/-- The schema says of itself what it is built as. -/
structure SaysWhatItIs (c : Schema) : Prop where
  /-- Only an array has items. -/
  items : c.items.isSome = true → c.saysArray = true
  /-- Only beside properties or branches, or in an array, are any values allowed. -/
  values : c.allowsAny = true → c.saysArray = true ∨ c.isRecord = true

theorem items_isSome (c : Schema) :
    c.items.isSome = (c.tupleItems?.isSome || c.singleItem?.isSome) := by
  rw [tupleItems?, singleItem?]
  rcases c.items with _ | _ | _ <;> rfl

theorem not_both_items (c : Schema) (h : c.singleItem?.isSome = true) : c.tupleItems? = none := by
  rw [singleItem?] at h
  rw [tupleItems?]
  rcases hitems : c.items with _ | _ | _
  · rfl
  · rfl
  · rw [hitems] at h
    exact absurd h Bool.false_ne_true

/-- **The kind that a definition is built as** is that of its keywords just if it says what it is. -/
theorem category_eq_builtCategory_iff (href : c.reference = none) :
    c.category = c.builtCategory c ↔ c.SaysWhatItIs := by
  have hkind : c.saysArray = true → c.saysMap = false ∧ c.isScalar = false ∧ c.isRecord = false := by
    intro hlist
    have hobject := saysObject_of_saysArray hlist
    exact ⟨by rw [saysMap, hobject]; rfl, isScalar_of_saysArray hlist, isRecord_of_saysArray hlist⟩
  have hmap : c.allowsAny = true → c.saysMap = false := by
    intro hany
    rw [allowsAny, Bool.and_eq_true, ← Option.not_isSome, Bool.not_eq_true'] at hany
    rw [saysMap, hany.2, Bool.and_false]
  have hnone : c.reference.isNone = true := by rw [href]; rfl
  have hsplit : c.SaysWhatItIs ↔ ((c.tupleItems?.isSome || c.singleItem?.isSome) = true →
      c.saysArray = true) ∧ (c.allowsAny = true → c.saysArray = true ∨ c.isRecord = true) := by
    rw [← items_isSome]
    exact ⟨fun h => ⟨h.items, h.values⟩, fun h => ⟨h.1, h.2⟩⟩
  rw [hsplit, category, builtCategory, hnone]
  have hboth := not_both_items c
  -- what says that it is a list goes by its items, anything else by the rest of its keywords
  cases hlist : c.saysArray with
  | true =>
    obtain ⟨-, -, hrecord⟩ := hkind hlist
    cases hplaces : c.tupleItems?.isSome <;> cases hone : c.singleItem?.isSome <;> simp
  | false =>
    cases hplaces : c.tupleItems?.isSome with
    | true =>
      cases c.saysMap <;> cases c.isScalar <;> simp
    | false =>
      cases hone : c.singleItem?.isSome with
      | true => cases c.saysMap <;> cases c.isScalar <;> simp
      | false =>
        cases hany : c.allowsAny with
        | false => simp
        | true => cases c.isRecord <;> cases c.isScalar <;> simp [hmap hany]

end Schema

/-- The listing gives a definition the kind of its model. -/
inductive Definitions.ListedAsMade (defs : Definitions) (c : Schema) : Prop
  /-- The type of a reference is of the kind that its shape has. -/
  | reference {d : Schema} : c.reference.isSome = true → defs.Ends c d →
      Resolver.listedCategory c d = d.aliasCategory → ListedAsMade defs c
  /-- What is built of its own schema says what it is. -/
  | own : defs.BuiltOf c c c → c.SaysWhatItIs → ListedAsMade defs c
  /-- A composition is of the kind of the branch that is put in its place. -/
  | lifted {b d : Schema} : defs.LiftsTo c b → defs.BuiltOf c b d → c.category = b.builtCategory d →
      ListedAsMade defs c

namespace Definitions

variable {defs : Definitions} {b c d : Schema} {m : Standing}

theorem listedAsMade_iff_of_reference (href : c.reference.isSome = true) (hd : defs.Ends c d) :
    defs.ListedAsMade c ↔ Resolver.listedCategory c d = d.aliasCategory := by
  constructor
  · intro h
    cases h with
    | reference _ he heq => exact hd.unique he ▸ heq
    | own hb => exact absurd (href.symm.trans hb.not_reference) (by decide)
    | lifted _ hb => exact absurd (href.symm.trans hb.not_reference) (by decide)
  · exact .reference href hd

theorem listedAsMade_iff_of_built (h : defs.BuiltOf c b d) :
    defs.ListedAsMade c ↔ c.category = b.builtCategory d := by
  have hinline := h.not_reference
  constructor
  · intro hlisted
    cases hlisted with
    | reference href => exact absurd (href.symm.trans hinline) (by decide)
    | own hown hmeans =>
      obtain ⟨rfl, rfl⟩ := h.unique hown
      exact (Schema.category_eq_builtCategory_iff h.reference).mpr hmeans
    | lifted _ hb heq =>
      obtain ⟨rfl, rfl⟩ := h.unique hb
      exact heq
  · intro heq
    cases h with
    | own href hno => exact .own (.own href hno) ((Schema.category_eq_builtCategory_iff href).mp heq)
    | lifted href hl hd => exact .lifted hl (.lifted href hl hd) heq

/-- The kind of the model is that of the listing just if the definitions say so. -/
theorem Makes.listed_iff (h : defs.Makes c m) (hd : defs.Ends c d) :
    Resolver.listedCategory c d = m.type.category ↔ defs.ListedAsMade c := by
  cases h with
  | reference href he hm =>
    obtain rfl := hd.unique he
    rw [hm.category, listedAsMade_iff_of_reference href hd]
  | built hb hm =>
    obtain rfl := hd.of_inline hb.reference
    rw [hm.category, listedAsMade_iff_of_built hb, Resolver.listedCategory, hb.not_reference]
    rfl

end Definitions

namespace Run

open Build

variable {document : Swagger} {options : Options} {r : Run} {name : String} {c : Schema}
variable {taken hoisted : List String} {file : ModelFile} {warnings : List Warning}
variable {listing : List Summary} {said : Summary}

section

variable {tr : Text.Transliteration}

theorem summary_ok (h : r.summary name c = .ok said) :
    ∃ (resolver : Resolver) (t : TypeInfo), resolver.registry = .ofDefinitions r.definitions ∧
      resolver.modelName = name ∧ resolver.resolve c false true = .ok t ∧ said.name = name ∧
      said.kclType = resolver.modelTypeName ∧ said.category = t.category := by
  unfold summary at h
  obtain ⟨t, ht, h⟩ := bind_eq_ok.mp h
  obtain rfl := Except.ok.inj h
  exact ⟨_, t, rfl, rfl, mapError_ok ht, rfl, rfl, rfl⟩

theorem exists_of_mapM {α β ε : Type} {f : α → Except ε β} {l : List α} {l' : List β}
    (h : l.mapM f = .ok l') {a : α} (ha : a ∈ l) : ∃ b ∈ l', f a = .ok b := by
  induction l generalizing l' with
  | nil => exact absurd ha List.not_mem_nil
  | cons head rest ih =>
    rw [List.mapM_cons] at h
    obtain ⟨first, hfirst, h⟩ := bind_eq_ok.mp h
    obtain ⟨others, hothers, h⟩ := bind_eq_ok.mp h
    obtain rfl := Except.ok.inj h
    rcases List.mem_cons.mp ha with rfl | ha
    · exact ⟨first, List.mem_cons_self, hfirst⟩
    · obtain ⟨b, hb, hf⟩ := ih hothers ha
      exact ⟨b, List.mem_cons_of_mem _ hb, hf⟩

/-- A listing says something of each definition. -/
theorem exists_summary (h : r.summaries = .ok listing)
    (hget : r.definitions.lookup name = some c) : ∃ said ∈ listing, r.summary name c = .ok said := by
  have hmem : (name, c) ∈ Polymorphism.byName r.definitions :=
    (sortBy_perm _ _).mem_iff.mpr (Assoc.mem_of_lookup hget)
  exact exists_of_mapM h hmem

/-- The kind that a listing says is that of the type of the definition. -/
theorem summary_category {d : Schema} (h : r.summary name c = .ok said)
    (hd : r.definitions.Ends c d) : said.category = Resolver.listedCategory c d := by
  obtain ⟨resolver, t, hregistry, -, ht, -, -, hcategory⟩ := summary_ok h
  have hkeeps : ∀ n d, r.definitions.lookup n = some d → resolver.registry.get? n = some d := by
    rw [hregistry]
    exact fun _ _ hd => hd
  rw [hcategory, (Resolver.resolve_typedBy hkeeps hd ht).category]

theorem generateDefinition_ok (h : r.generateDefinition name = .ok (file, warnings)) :
    ∃ hoisted, r.generateReserving name [] = .ok (file, warnings, hoisted) := by
  obtain ⟨⟨file, warnings, hoisted⟩, hone, hpair⟩ := map_eq_ok.mp h
  obtain ⟨rfl, rfl⟩ := Prod.mk.inj hpair
  exact ⟨hoisted, hone⟩

/--
**A listing names a definition as it is declared, and gives it the kind of its model just if the
definitions say what they are made as.** This holds of each definition that a listing lists and that
can be generated.
-/
theorem listed_as_made_iff (hprepare : prepare document options = .ok r)
    (hget : r.definitions.lookup name = some c) (hmix : c.reference = none → c.Unmixed)
    (hlist : r.summaries = .ok listing)
    (hgenerate : r.generateDefinition name = .ok (file, warnings)) :
    ∃ said ∈ listing, said.name = name ∧ said.kclType = file.model.declaredName ∧
      (said.category = file.model.type.category ↔ r.definitions.ListedAsMade c) := by
  obtain ⟨hoisted, hgenerate⟩ := generateDefinition_ok hgenerate
  obtain ⟨said, hsaid, hsummary⟩ := exists_summary hlist hget
  obtain ⟨resolver, t, hregistry, hresolver, -, hname, hkcl, -⟩ := summary_ok hsummary
  obtain ⟨c', hget', hdeclared⟩ := (generateReserving_fileOf hgenerate).declared
  obtain rfl := Option.some.inj (hget.symm.trans hget')
  refine ⟨said, hsaid, hname, ?_, ?_⟩
  · rw [hkcl, Resolver.modelTypeName_eq hresolver (by rw [hregistry]; exact hget), hdeclared]
  · obtain ⟨m, hmakes, hfile⟩ := generateReserving_makes hprepare hget hmix hgenerate
    obtain ⟨d, hd⟩ : ∃ d, r.definitions.Ends c d := by
      cases hmakes with
      | reference _ hd => exact ⟨_, hd⟩
      | built hb => exact ⟨_, .here hb.reference⟩
    have hkind : file.model.type.category = m.type.category :=
      TypeInfo.category_of_outline hfile.type
    rw [summary_category hsummary hd, hkind, hmakes.listed_iff hd]

end

/-- Lists of colours under two names, and labels under two names. -/
def catalogue : Swagger where
  definitions := [
    ("Colours", { types := ["array"], items := some (.single (.typed "string")) }),
    ("Palette", .referenceTo "Colours"),
    ("Labels", { types := ["object"], additionalProperties := some (.schema (.typed "string")) }),
    ("Tags", .referenceTo "Labels")]

theorem palette_listed_as_made : ∃ r listing file warnings, prepare catalogue {} = .ok r ∧
    r.summaries = .ok listing ∧ r.generateDefinition "Palette" = .ok (file, warnings) ∧
    ∃ said ∈ listing, said.name = "Palette" ∧ said.kclType = file.model.declaredName ∧
      said.category = file.model.type.category := by
  obtain ⟨r, hprepare, hfacts⟩ := exists_ok_of_any (e := prepare catalogue {})
    (p := fun r => (r.definitions.lookup "Palette").any (·.reference ==
        some (Reference.toDefinition "Colours")) &&
      (r.definitions.lookup "Colours").any (fun c => c.reference == none &&
        Resolver.listedCategory (.referenceTo "Colours") c == c.aliasCategory) &&
      r.summaries.toOption.any (fun _ => true) &&
      (r.generateDefinition "Palette").toOption.any fun _ => true)
    (by decide +kernel)
  simp only [Bool.and_eq_true] at hfacts
  obtain ⟨⟨⟨hpalette, hcolours⟩, hlist⟩, hgenerate⟩ := hfacts
  obtain ⟨palette, hget, href⟩ := (Option.any_eq_true _ _).mp hpalette
  obtain ⟨colours, hcolours, hkind⟩ := (Option.any_eq_true _ _).mp hcolours
  have href := beq_iff_eq.mp href
  obtain ⟨hnone, hkind⟩ := Bool.and_eq_true_iff.mp hkind
  obtain ⟨listing, hlist, -⟩ := exists_ok_of_any hlist
  obtain ⟨⟨file, warnings⟩, hgenerate, -⟩ := exists_ok_of_any hgenerate
  obtain ⟨said, hsaid, hname, hkcl, hiff⟩ := listed_as_made_iff hprepare hget
    (fun hinline => absurd (hinline.symm.trans href) (by simp)) hlist hgenerate
  refine ⟨r, listing, file, warnings, hprepare, hlist, hgenerate, said, hsaid, hname, hkcl, ?_⟩
  refine hiff.mpr (.reference (d := colours) (by rw [href]; rfl) ?_ ?_)
  · exact .next href (n := "Colours") (by decide) hcolours (.here (beq_iff_eq.mp hnone))
  · rw [← beq_iff_eq.mp hkind, Resolver.listedCategory, href]
    rfl

/-- A definition that refers to a map is listed as an object, and its model is a map. -/
theorem tags_listed_as_object : ∃ r listing file warnings, prepare catalogue {} = .ok r ∧
    r.summaries = .ok listing ∧ r.generateDefinition "Tags" = .ok (file, warnings) ∧
    ∃ said ∈ listing, said.name = "Tags" ∧ said.external = false ∧ said.category = .object ∧
      file.model.type.category = .map := by
  obtain ⟨r, hprepare, hfacts⟩ := exists_ok_of_any (e := prepare catalogue {})
    (p := fun r => r.summaries.toOption.any (·.any fun said => said.name == "Tags" &&
        !said.external && said.category == .object) &&
      (r.generateDefinition "Tags").toOption.any (·.1.model.type.category == .map))
    (by decide +kernel)
  obtain ⟨hlist, hgenerate⟩ := Bool.and_eq_true_iff.mp hfacts
  obtain ⟨listing, hlist, hany⟩ := exists_ok_of_any hlist
  obtain ⟨⟨file, warnings⟩, hgenerate, hmap⟩ := exists_ok_of_any hgenerate
  obtain ⟨said, hsaid, hmeans⟩ := List.any_eq_true.mp hany
  simp only [Bool.and_eq_true, beq_iff_eq, Bool.not_eq_true'] at hmeans
  exact ⟨r, listing, file, warnings, hprepare, hlist, hgenerate, said, hsaid, hmeans.1.1, hmeans.1.2,
    hmeans.2, beq_iff_eq.mp hmap⟩

end Run

end KclModels
