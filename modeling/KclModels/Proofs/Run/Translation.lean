import KclModels.Proofs.Build.Flattening
import KclModels.Proofs.Build.Origins
import KclModels.Proofs.Build.Properties
import KclModels.Proofs.Imports.Types
import KclModels.Proofs.Run.Composition
import KclModels.Text.AsciiTable

/-!
# Types are written by the structure of schemas

The type of a property is looked up before and after parts of its schema are made definitions, put
together anew for each array and each map, and written out once more when the imports of the file are
collected. What the file has at last is the type that the schema has by its structure alone, to any
depth of arrays and maps: the types of references are those that the definitions are declared with,
and the types of tuples and of objects that declare something are the names of schemas that the file
declares beside that of the definition.
-/

namespace KclModels

open Imports

/-! ## The type of a schema in a file -/

/-- A type of a package as the file writes it: behind the name of the only import of its path. -/
inductive ModelFile.Writes (file : ModelFile) (package kclType : String) : String → Prop
  | own : package = "" ∨ package = file.package → file.Writes package kclType kclType
  | foreign {stmt : Import} : package ≠ "" → package ≠ file.package → stmt ∈ file.imports →
      stmt.path = importPath package file.package →
      (∀ other ∈ file.imports, other.path = stmt.path → other = stmt) →
      file.Writes package kclType (stmt.asName ++ "." ++ kclType)

/-- The file declares, under the name, a schema that was made a definition on the way. -/
structure ModelFile.Declares (file : ModelFile) (r : Registry) (c : Schema) (n : String) : Prop where
  stored : r.get? n = some c
  model : ∃ e ∈ file.extras, e.name = n ∧ e.declaredName = n

/-- **The type that a schema has by its structure**, in a file of these definitions. -/
inductive ModelFile.TypeOf [Text.Transliteration] (file : ModelFile) (definitions : Definitions)
    (o : Options) (r : Registry) : Schema → String → Prop
  | plain {c : Schema} {text : String} : c.IsPlain text → TypeOf file definitions o r c text
  | array {c item : Schema} {text : String} : c.IsArray (some item) →
      TypeOf file definitions o r item text → TypeOf file definitions o r c ("[" ++ text ++ "]")
  | map {c value : Schema} {text : String} : c.IsMap value →
      TypeOf file definitions o r value text →
      TypeOf file definitions o r c ("\x7bstr:" ++ text ++ "\x7d")
  | reference {c d : Schema} {n text : String} : c.IsReference → c.referenceName = some n →
      definitions.lookup n = some d →
      file.Writes ((Registry.ofDefinitions definitions).declared o n d).package
        ((Registry.ofDefinitions definitions).declared o n d).kclType text →
      TypeOf file definitions o r c text
  | tuple {c : Schema} {places : List Schema} {extra : Option (Extra Schema)} {n : String} :
      c.IsTuple places → file.Declares r (Frame.tupleRecord places extra) n →
      TypeOf file definitions o r c n
  | record {c : Schema} {n : String} : c.IsRecord → file.Declares r c n →
      TypeOf file definitions o r c n

/-- The property has its name, and its type is the one that its schema has by its structure. -/
structure ModelFile.TypesProperty [Text.Transliteration] (file : ModelFile)
    (definitions : Definitions) (o : Options) (r : Registry) (e : String × Schema) (p : Model) :
    Prop where
  name : p.name = e.1
  type : e.2.Structural → file.TypeOf definitions o r e.2 p.type.kclType

/-! ## Collected models -/

variable {file : ModelFile} {definitions : Definitions} {o : Options} {r r' : Registry}
variable {names : List String} {c d : Schema} {m m' p : Model} {n : String} {i j : Imports}

theorem writes_of_writtenOut (h : WrittenOut file.package file.imports m m')
    (hitems : m.items = none) (hvalue : m.additionalProperties = none) :
    file.Writes m.type.package m.type.kclType m'.type.kclType := by
  by_cases hown : m.type.package = "" ∨ m.type.package = file.package
  · rw [h.plain hown (fun _ _ => hitems) fun _ _ => hvalue]
    exact .own hown
  · rw [not_or] at hown
    obtain ⟨stmt, hstmt, hpath, honly, htype⟩ := h.qualified hown.1 hown.2
    rw [htype]
    exact .foreign hown.1 hown.2 hstmt hpath honly

theorem ModelFile.Writes.eq_of_own {package kclType text : String}
    (h : file.Writes package kclType text) (hp : package = "") : text = kclType := by
  cases h with
  | own => rfl
  | foreign hne => exact absurd hp hne

/-- What a file says of the names that its models refer to, with the imports `j`. -/
structure ModelFile.Accommodates [Text.Transliteration] (file : ModelFile)
    (definitions : Definitions) (o : Options) (r : Registry) (names : List String) (j : Imports) :
    Prop where
  keyed : j.Keyed
  imports : file.imports = j.statements
  definition : ∀ n d, definitions.lookup n = some d → r.get? n = some d ∧
    r.declared o n d = (Registry.ofDefinitions definitions).declared o n d
  extra : ∀ n ∈ names, n ∈ r.hoisted → Naming.schemaName n = n ∧
    ∃ e ∈ file.extras, e.name = n ∧ e.declaredName = n

section

variable {tr : Text.Transliteration}

/-- A model that stands for a definition that was made has the name of that for its type. -/
theorem Model.StandsFor.writes_made (hm : m.StandsFor o r n)
    (hw : WrittenOut file.package file.imports m m') (hget : r.get? n = some c)
    (hmade : n ∈ r.hoisted) (hkcl : c.hints.kclName = none) (hexisting : c.hints.existing = none)
    (hplain : Naming.schemaName n = n) : m'.type.kclType = n := by
  obtain ⟨d, hd, htype, hpackage⟩ := hm.declared
  obtain rfl := Option.some.inj (hget.symm.trans hd)
  have hown : m.type.package = "" :=
    hpackage.trans (Resolver.declared_package_of_hoisted hmade hexisting)
  rw [(writes_of_writtenOut hw hm.items hm.value).eq_of_own hown, htype]
  refine (Resolver.declared_kclType _ n c).trans ?_
  rw [Schema.declaredName, hexisting]
  simpa [Schema.nameOr, hkcl] using hplain

/--
**Collecting a model that follows the structure of a schema** gives it the type that the schema has by
its structure.
-/
theorem Model.Translates.collected (hf : file.Accommodates definitions o r names j)
    (h : m.Translates o r c) : ∀ i,
    c.Known (fun n => (definitions.lookup n).isSome = true) unasked →
    m.Everywhere (Model.Linked names unasked r) → Later (collect file.package m i).2 j →
    file.TypeOf definitions o r c (collect file.package m i).1.type.kclType := by
  have hwritten : ∀ {m : Model} {i}, Later (collect file.package m i).2 j →
      WrittenOut file.package file.imports m (collect file.package m i).1 := by
    intro m i hlater
    rw [hf.imports]
    exact collect_writtenOut hlater hf.keyed
  induction h with
  | @plain c text m hc hm =>
    intro i _ _ hlater
    have hw := writes_of_writtenOut (hwritten hlater) hm.items hm.value
    rw [hw.eq_of_own hm.package, hm.kclType]
    exact .plain hc
  | @array c item p m hc hm hp ih =>
    intro i hknown hlinked hlater
    obtain ⟨q, hq, htype⟩ := (hwritten hlater).array hm.package hm.array (by rw [hm.items]; rfl)
    -- the elements are collected in between, and what follows keeps their imports
    obtain ⟨k, hpart, hbefore⟩ := collect_part file.package (e := .items) hm.items i
    obtain rfl : _ = q := Option.some.inj (hpart.symm.trans hq)
    rw [htype]
    refine .array hc (ih k (hknown.child (Schema.item_mem_children hc.items)) ?_
      (hbefore.trans hlater))
    exact hlinked.part (Model.mem_parts_iff.mpr (Or.inl hm.items))
  | @map c value p m hc hm hp ih =>
    intro i hknown hlinked hlater
    obtain ⟨q, hq, htype⟩ := (hwritten hlater).map hm.package (fun _ => hm.items) hm.kclType
      (by rw [hm.value]; rfl)
    -- so are the values of a map
    obtain ⟨k, hpart, hbefore⟩ := collect_part file.package (e := .values) hm.value i
    obtain rfl : _ = q := Option.some.inj (hpart.symm.trans hq)
    rw [htype]
    refine .map hc (ih k (hknown.child (Schema.value_mem_children hc.values)) ?_
      (hbefore.trans hlater))
    exact hlinked.part (Model.mem_parts_iff.mpr (Or.inr (Or.inr (Or.inr (Or.inr hm.value)))))
  | @reference c n m hc hn hm =>
    intro i hknown _ hlater
    obtain ⟨d, hd⟩ := Option.isSome_iff_exists.mp (hknown.here.1 n hn)
    obtain ⟨hget, hdeclared⟩ := hf.definition n d hd
    obtain ⟨d', hd', htype, hpackage⟩ := hm.declared
    obtain rfl := Option.some.inj (hget.symm.trans hd')
    have hw := writes_of_writtenOut (hwritten hlater) hm.items hm.value
    rw [htype, hpackage, hdeclared] at hw
    exact .reference hc hn hd hw
  | @tuple c places extra n m hc hget hmade hm =>
    intro i _ hlinked hlater
    obtain ⟨hplain, hextra⟩ := hf.extra n (hlinked.here n hm.reference).1 hmade
    rw [hm.writes_made (hwritten hlater) hget hmade rfl rfl hplain]
    exact .tuple hc ⟨hget, hextra⟩
  | @record c n m hc hget hmade hm =>
    intro i _ hlinked hlater
    obtain ⟨hplain, hextra⟩ := hf.extra n (hlinked.here n hm.reference).1 hmade
    rw [hm.writes_made (hwritten hlater) hget hmade hc.kclName hc.existing hplain]
    exact .record hc ⟨hget, hextra⟩

/-- Models in a row are collected one after the other. -/
theorem collectList_collected [Text.Transliteration] (target : String) (l : List Model) : ∀ i,
    List.Forall₂ (fun m m' => ∃ k, m' = (collect target m k).1 ∧
      Later (collect target m k).2 (collectList target l i).2) l (collectList target l i).1 := by
  induction l with
  | nil => exact fun _ => .nil
  | cons m rest ih =>
    intro i
    rw [collectList]
    exact .cons ⟨i, rfl, collectList_later target rest _⟩ (ih _)

/-- The properties of a rendered model are collected one after the other. -/
theorem collectRendered_properties [Text.Transliteration] (target : String) (m : Model)
    (i : Imports) :
    List.Forall₂ (fun p p' => ∃ k, p' = (collect target p k).1 ∧
      Later (collect target p k).2 (collectRendered target m i).2) m.properties
      (collectRendered target m i).1.properties := by
  obtain ⟨facts, items, extraItems, properties, allOf, value⟩ := m
  have hbranches := collectBranches_later target
    (Model.parentBranch ⟨facts, items, extraItems, properties, allOf, value⟩) allOf
    (properties.map (·.name)) 0
    (collect target ⟨facts, items, extraItems, properties, [], value⟩ i).2
  rw [collectRendered_eq]
  have hcollected := collectList_collected target properties
    (collectOption target extraItems (collectOption target items i).2).2
  have hlater : Later (collectList target properties
      (collectOption target extraItems (collectOption target items i).2).2).2
      (collect target ⟨facts, items, extraItems, properties, [], value⟩ i).2 := by
    rw [collect]
    exact (collectOption_later target value _).trans (qualify_later target _ _)
  refine List.Forall₂.imp ?_ hcollected
  rintro p p' ⟨k, hp', hk⟩
  exact ⟨k, hp', (hk.trans hlater).trans hbranches⟩

namespace Build

variable {setting : Setting} {s s' : Session} {f : Frame} {name : String}

/-- The properties of a file are those that are built of its definition. -/
theorem fileFrame_built (hc : s.registry.get? name = some c) (h : (fileFrame setting name).Gives s f s') :
    ∃ built s₁, (Frame.root name c name).Builds setting s built s₁ ∧
      s₁.registry.Grows s'.registry ∧ f.model.properties = built.model.properties := by
  obtain ⟨d, built, s₁, s₂, m, hd, hbuilt, hexpand, hinline⟩ := fileFrame_cases h
  obtain rfl := Option.some.inj (hc.symm.trans hd)
  obtain ⟨m₀, hbase, -, -, -, -, hproperties, -⟩ := asBase_facts setting name built
  rw [hbase] at hexpand hinline
  have hm : m.properties = built.model.properties ∧ s₁.registry.Grows s₂.registry := by
    rcases hexpand with ⟨-, rfl, rfl⟩ | ⟨subtype, -, he⟩
    · exact ⟨hproperties, .refl _⟩
    · obtain ⟨allOf, ofBases, hex, rfl⟩ := expandSubtype_cases he
      exact ⟨hproperties, Frame.expandBranches_grows hex⟩
  obtain ⟨hgrows, hsame, -⟩ := inlined_facts hinline
  exact ⟨built, s₁, Frame.builds_of_definition hbuilt, hm.2.trans hgrows, hsame.trans hm.1⟩

/-- **The frame that a file is made of has the properties of the definition**, if that has no branches. -/
theorem fileFrame_properties (hc : s.registry.get? name = some c) (href : c.reference = none)
    (hall : c.allOf = []) (h : (fileFrame setting name).Gives s f s') :
    f.model.HasProperties setting.options s'.registry c := by
  obtain ⟨built, s₁, ⟨depth, hbuild⟩, hgrows, hsame⟩ := fileFrame_built hc h
  obtain ⟨own, places, hperm, hown, hplaces⟩ :=
    (Frame.buildIn_properties setting depth rfl href hall rfl hbuild).mono hgrows
  exact ⟨own, places, hsame ▸ hperm, hown, hplaces⟩

end Build

/-- What was taken out for a file is declared there, under the name that it was made with. -/
theorem FileLinked.declares {setting : Setting} {known : String → Prop} {expands : Nat → Prop}
    {noted : Prop} {bare : String → Option Bool} {name : String} {f : Frame}
    (h : FileLinked known expands noted bare name r f) (hn : n ∈ Assoc.keys f.extras) :
    ∃ e ∈ (Build.assemble setting name r f).1.extras, e.name = n ∧ e.declaredName = n := by
  have hnames : n ∈ (Build.assemble setting name r f).1.extras.map (·.name) := by
    rw [Build.assemble_extras_names, h.extras_names]
    exact hn
  obtain ⟨e, he, hname⟩ := List.mem_map.mp hnames
  refine ⟨e, he, hname, ?_⟩
  obtain ⟨x, e₁, j, hx, rfl⟩ := Build.mem_assemble_extras he
  have hrendered := collectRendered_rendered (setting.options.packageOf name) e₁ j
  have htaken := h.extras x e₁ hx
  rw [hrendered.declaredName, htaken.declaredName, ← hname, hrendered.name, htaken.name]

end

theorem forall₂_comp {α β γ : Type} {R : α → β → Prop} {S : β → γ → Prop} {T : α → γ → Prop}
    {l : List α} {l' : List β} {l'' : List γ} (h : List.Forall₂ R l l') (h' : List.Forall₂ S l' l'')
    (hT : ∀ a b c, a ∈ l → b ∈ l' → R a b → S b c → T a c) : List.Forall₂ T l l'' := by
  induction h generalizing l'' with
  | nil =>
    cases h'
    exact .nil
  | cons hab _ ih =>
    cases h' with
    | cons hbc hrest =>
      refine .cons (hT _ _ _ List.mem_cons_self List.mem_cons_self hab hbc) (ih hrest ?_)
      exact fun a b c ha hb => hT a b c (List.mem_cons_of_mem _ ha) (List.mem_cons_of_mem _ hb)

namespace Run

open Build

variable {r : Run} {name : String} {taken hoisted : List String} {file : ModelFile}
variable {warnings : List Warning} {s' : Session} {f : Frame} {c : Schema}

section

variable {tr : Text.Transliteration}

/-- A file accommodates what the frame that it is made of depends on. -/
theorem assemble_accommodates {expands : Nat → Prop} {noted : Prop} {bare : String → Option Bool}
    (hgrows : (r.session taken).registry.Grows s'.registry)
    (h : FileLinked (fun n => (r.definitions.lookup n).isSome = true) expands noted bare name
      s'.registry f) :
    ∃ j, Later (collectRendered (assemble r.setting name s'.registry f).1.package
        (declare r.setting name s'.registry f.model) {}).2 j ∧
      (assemble r.setting name s'.registry f).1.Accommodates r.definitions r.options s'.registry
        f.dependencies j := by
  obtain ⟨j, hcollect, himports, hpackage⟩ := assemble_collected r.setting name s'.registry f
  have hrest : (collectAllRendered (r.setting.options.packageOf name) (f.extras.map Prod.snd)
      (collectRendered (r.setting.options.packageOf name)
        (declare r.setting name s'.registry f.model) {}).2).2 = j := congrArg Prod.snd hcollect
  have hkeyed : j.Keyed := by
    have hlater := collectAllRendered_later (r.setting.options.packageOf name)
      (declare r.setting name s'.registry f.model :: f.extras.map Prod.snd) {}
    rw [hcollect] at hlater
    exact hlater.keyed keyed_empty
  refine ⟨j, ?_, hkeyed, himports, fun n d hd => ⟨hgrows.keeps n d hd, ?_⟩, fun n hn hmade => ?_⟩
  · rw [hpackage, ← hrest]
    exact collectAllRendered_later _ _ _
  · exact hgrows.declared hd r.options d
  -- what was made is no definition of the document, so that it was taken out
  rcases h.dependencies n hn with hknown | hkey
  · exact absurd hmade (not_hoisted_of_known hgrows rfl hknown)
  · obtain ⟨⟨n', e⟩, he, rfl⟩ := List.mem_map.mp hkey
    exact ⟨(h.extras n' e he).plain, h.declares hkey⟩

/--
**The types of a definition's properties are those that their schemas have by their structure**, in
the file with all its imports. This holds of each property of a definition that is an object without
branches, whatever else the file declares.
-/
theorem property_types_structural (hc : r.definitions.Canonical)
    (hget : r.definitions.lookup name = some c) (href : c.reference = none) (hall : c.allOf = [])
    (h : r.buildFile name taken = (.ok file, s')) :
    ∃ own places, file.model.properties.Perm (own ++ places) ∧
      List.Forall₂ (file.TypesProperty r.definitions r.options s'.registry) c.properties own ∧
      (c.tupleItems? = none → places = []) := by
  obtain ⟨f, s₁, hf, hreg, rfl⟩ := file_cases h
  have hstored : (r.session taken).registry.get? name = some c := hget
  have hknown : c.Known (fun n => (r.definitions.lookup n).isSome = true) unasked :=
    hc.known Definitions.bare_unasked hget
  obtain ⟨hgrows, hlinked, -⟩ :=
    fileFrame_linked hstored hknown (fun _ hn => hc.stored Definitions.bare_unasked hn) hf
  obtain ⟨j, hlater, haccommodates⟩ := assemble_accommodates hgrows hlinked
  obtain ⟨own, places, hperm, hown, hplaces⟩ := fileFrame_properties hstored href hall hf
  obtain ⟨hmodel, -, -⟩ := assemble_facts r.setting name s₁.registry f
  -- the properties are collected in their order, each on its own
  have hcollected := collectRendered_properties (assemble r.setting name s₁.registry f).1.package
    (declare r.setting name s₁.registry f.model) {}
  obtain ⟨collected, hpairs, hperm'⟩ := List.perm_comp_forall₂ hperm.symm hcollected
  have hsplit := List.forall₂_take own.length hpairs
  rw [List.take_left' rfl] at hsplit
  refine ⟨collected.take own.length, collected.drop own.length, ?_, ?_, fun hnone => ?_⟩
  · rw [List.take_append_drop, hmodel]
    exact hperm'.symm
  · rw [hreg]
    refine forall₂_comp hown hsplit fun e p p' he hp hproperty hp' => ?_
    obtain ⟨k, rfl, hk⟩ := hp'
    refine ⟨(collect_written _ p k).name.trans hproperty.name, fun hstructural => ?_⟩
    have hmem : p ∈ f.model.properties := hperm.mem_iff.mpr (List.mem_append_left _ hp)
    refine (hproperty.structural hstructural).collected haccommodates k
      (hknown.child (Schema.property_mem_children he)) (hlinked.own p ?_) (hk.trans hlater)
    exact Model.mem_parts_iff.mpr (Or.inr (Or.inr (Or.inl hmem)))
  · have hlen := hpairs.length_eq
    rw [hplaces hnone, List.append_nil] at hlen
    rw [hlen, List.drop_length]

end

/-- An allotment with properties of all kinds, and a bed that belongs to another package. -/
def allotment : Schema :=
  { types := ["object"]
    properties := [
      ("area", .typed "number"),
      ("anything", .typed "object"),
      ("beds", { types := ["array"], items := some (.single
        { types := ["object"], additionalProperties := some (.schema
          { types := ["array"], items := some (.single (.referenceTo "ext.Bed")) }) }) }),
      ("owners", { types := ["array"], items := some (.single
        { types := ["object"], properties := [("name", .typed "string")] }) }),
      ("corner", { types := ["array"], items := some (.tuple [.typed "integer", .typed "integer"]) }),
      ("notes", .typed "array")] }

def allotments : Run := ofDefinitions [
  ("ext.Bed", { types := ["object"], properties := [("crop", .typed "string")] }),
  ("Allotment", allotment)]

/-- The types of an allotment's properties, as its file writes them. -/
def allotmentTypes : List (String × String) := [
  ("area", "float"), ("anything", "any"), ("beds", "[\x7bstr:[ext.Bed]\x7d]"),
  ("owners", "[AllotmentOwnersItems0]"), ("corner", "AllotmentCornerTuple0"), ("notes", "[any]")]

theorem allotment_structural : ∀ e ∈ allotment.properties, e.2.Structural := by
  have hobject : ∀ {c : Schema}, c.reference = none → c.types = ["object"] → c.format = none →
      c.hints.intOrString = false → c.HasKind "object" := fun href htypes hformat hint =>
    ⟨href, .inl htypes, by rw [Resolver.byFormat?, hformat]; rfl, hint⟩
  have harray : ∀ {c : Schema}, c.reference = none → c.types = ["array"] → c.format = none →
      c.hints.intOrString = false → c.HasKind "array" := fun href htypes hformat hint =>
    ⟨href, .inl htypes, by rw [Resolver.byFormat?, hformat]; rfl, hint⟩
  simp only [allotment, List.forall_mem_cons]
  refine ⟨?_, ?_, ?_, ?_, ?_, ?_, fun _ h => absurd h List.not_mem_nil⟩
  · exact .scalar ⟨⟨rfl, rfl, rfl⟩, rfl, rfl, "number", rfl, rfl⟩
  · exact .empty ⟨⟨rfl, rfl, rfl⟩, hobject rfl rfl rfl rfl, rfl⟩
  · refine .array ⟨harray rfl rfl rfl rfl, rfl, rfl, rfl⟩ ?_
    refine .map ⟨hobject rfl rfl rfl rfl, rfl, rfl, rfl, rfl⟩ ?_
    refine .array ⟨harray rfl rfl rfl rfl, rfl, rfl, rfl⟩ ?_
    exact .reference (Schema.isReference_referenceTo "ext.Bed")
  · refine .array ⟨harray rfl rfl rfl rfl, rfl, rfl, rfl⟩ ?_
    exact .record ⟨hobject rfl rfl rfl rfl, .inl (by simp), rfl, rfl⟩
  · exact .tuple ⟨harray rfl rfl rfl rfl, rfl, rfl, rfl⟩
  · exact .list ⟨harray rfl rfl rfl rfl, rfl, rfl, rfl⟩

theorem allotment_types_structural : allotments.definitions.Canonical ∧
    allotments.definitions.lookup "Allotment" = some allotment ∧
    allotment.reference = none ∧ allotment.allOf = [] ∧
    (∀ e ∈ allotment.properties, e.2.Structural) ∧ ∃ file s',
    allotments.buildFile "Allotment" [] = (.ok file, s') ∧
    file.model.properties.map (fun p => (p.name, p.type.kclType)) = allotmentTypes ∧
    ∃ own places, file.model.properties.Perm (own ++ places) ∧
      List.Forall₂ (file.TypesProperty allotments.definitions allotments.options s'.registry)
        allotment.properties own ∧ (allotment.tupleItems? = none → places = []) := by
  have hc : allotments.definitions.Canonical := Definitions.canonical_of_check (by decide +kernel)
  obtain ⟨file, s', h, hfacts⟩ := exists_built_of_any allotments "Allotment" []
    (p := fun file _ => decide
      (file.model.properties.map (fun p => (p.name, p.type.kclType)) = allotmentTypes))
    (by decide +kernel)
  exact ⟨hc, rfl, rfl, rfl, allotment_structural, file, s', h, of_decide_eq_true hfacts,
    property_types_structural hc rfl rfl rfl h⟩

end Run

end KclModels
