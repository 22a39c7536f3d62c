import KclModels.Proofs.Build.Referring
import KclModels.Proofs.Run.Translation
import KclModels.Text.AsciiTable

/-!
# Definitions that are only references are rendered as their targets

A definition that is only a reference is rendered as an alias of the type of its target or as a
schema that inherits from it. Which of the two it is goes by the schema at the end of the references.
A target that is neither of a kind that has aliases nor an object that declares something is lost:
what is rendered then is a schema that has nothing of the target. The same holds of an alias that
would be declared under the name that it stands for.
-/

namespace KclModels

open Imports

/-- A model with its own properties is the model. -/
theorem Model.with_properties {m : Model} {l : List Model} (h : m.properties = l) :
    { m with properties := l } = m := by
  cases m
  cases h
  rfl

/-- The one branch of a composition is its parent if it is an object that declares something. -/
theorem Model.parentBranch_single {m branch : Model} (h : m.allOf = [branch]) (href : branch.reference.isSome = true) :
    m.parentBranch = if branch.type.complex then some 0 else none := by
  have hreferenced : branch.isReferenced = branch.type.complex := by
    rw [Model.isReferenced, href, Bool.true_and]
  rw [Model.parentBranch, h]
  cases hc : branch.type.complex <;> cases hb : branch.isBase <;> simp [hreferenced, hc, hb]

section

variable {tr : Text.Transliteration}

namespace Build

variable {setting : Setting} {s s' : Session} {f : Frame} {name reference : String}

/-- The branch of a composition of one reference is the parent, or has no properties to declare. -/
theorem needsInlining_single {m branch : Model} (h : m.OnlyComposes branch) :
    needsInlining m.parentBranch 0 branch = false := by
  rw [needsInlining, Model.parentBranch_single h.allOf h.reference]
  cases branch.type.complex <;> simp

/-- Marking a definition as a base changes nothing of what becomes of a reference. -/
theorem refersOnly_asBase {o : Options} {r : Registry} {n : String} {c d : Schema}
    (h : f.model.RefersOnly o r n c d) : (asBase setting name f).model.RefersOnly o r n c d := by
  unfold asBase
  split
  · exact h.dressed rfl rfl rfl
  · exact h

/-- A reference has no branches that bases could be put in place of. -/
theorem refersOnly_subtypeModel {o : Options} {r : Registry} {n : String} {c d : Schema}
    {m : Model} (subtype : Subtype) (h : m.RefersOnly o r n c d) :
    (subtypeModel m subtype (Model.dedupBranches [] [] m.allOf)).RefersOnly o r n c d := by
  have hsame : Model.dedupBranches [] [] m.allOf = m.allOf := by
    cases h with
    | aliased _ hparts => rw [hparts.allOf, Model.dedupBranches]
    | composed _ hbranch =>
      rw [hbranch.allOf, Model.dedupBranches, hbranch.declares]
      exact congrArg (· :: []) (Model.with_properties hbranch.declares)
  exact h.dressed rfl rfl hsame

/-- A file with a definition that is only a reference has the model that becomes of it, and no other. -/
theorem fileFrame_reference (hget : s.registry.get? name = some { reference := some reference })
    (h : (fileFrame setting name).Gives s f s') :
    s'.registry = s.registry ∧ f.extras = [] ∧ ∃ n c d, Reference.name? reference = some n ∧
      s.registry.get? n = some c ∧ s.registry.Leads reference d ∧
      f.model.RefersOnly setting.options s.registry n c d := by
  obtain ⟨_, built, s₁, s₂, m, hc, hbuilt, hexpand, hinline⟩ := fileFrame_cases h
  obtain rfl := Option.some.inj (hget.symm.trans hc)
  obtain ⟨hreg, hextras, n, c, d, hname, hn, hd, hrefers⟩ :=
    (Frame.builds_of_definition hbuilt).of_reference Frame.root_fresh rfl rfl
  have hbase : (asBase setting name built).model.RefersOnly setting.options s.registry n c d :=
    refersOnly_asBase hrefers
  have hm : m.RefersOnly setting.options s.registry n c d ∧ s₂ = s₁ := by
    rcases hexpand with ⟨-, rfl, rfl⟩ | ⟨subtype, -, he⟩
    · exact ⟨hbase, rfl⟩
    · obtain ⟨allOf, names, hex, rfl⟩ := expandSubtype_cases he
      -- a reference has no branches, so nothing is expanded
      rw [expandBranches, gives_pure, Prod.mk.injEq] at hex
      obtain ⟨⟨rfl, rfl⟩, rfl⟩ := hex
      exact ⟨refersOnly_subtypeModel subtype hbase, rfl⟩
  obtain ⟨hm, rfl⟩ := hm
  have hframe : f = { asBase setting name built with model := m } ∧ s' = s₂ := by
    cases hm with
    | aliased halias hparts htuple htype =>
      rw [hparts.allOf, inlineBranches, gives_pure] at hinline
      exact ⟨hinline.1.symm, hinline.2.symm⟩
    | @composed branch hcomposes hbranch hcomplex htype =>
      -- the only branch is the parent, which is not put in
      have hno := needsInlining_single hbranch
      rw [hbranch.allOf] at hinline
      rcases inlineBranches_cons_cases hinline with ⟨-, hrest⟩ | ⟨_, _, _, _, hneeds, -⟩
      · rw [inlineBranches, gives_pure] at hrest
        exact ⟨hrest.1.symm, hrest.2.symm⟩
      · exact absurd (hneeds.symm.trans hno) (by decide)
  obtain ⟨rfl, rfl⟩ := hframe
  refine ⟨hreg, ?_, n, c, d, hname, hn, hd, hm⟩
  obtain ⟨m₀, hm₀, -⟩ := asBase_facts setting name built
  show (asBase setting name built).extras = []
  rw [hm₀]
  exact hextras

end Build

/-! ## Collected models -/

variable {file : ModelFile} {target : String} {m branch : Model} {i j : Imports} {t : TypeInfo}

/-- A model that has no parts is collected by writing its type out. -/
theorem collectRendered_partless [Text.Transliteration] (target : String) (i : Imports)
    (hitems : m.items = none) (hextra : m.additionalItems = none) (hproperties : m.properties = [])
    (hvalue : m.additionalProperties = none) :
    collectRendered target m i =
      ({ m with
          type := (qualify target m.type i).1
          allOf := (collectBranches target m.parentBranch [] 0 m.allOf (qualify target m.type i).2).1 },
        (collectBranches target m.parentBranch [] 0 m.allOf (qualify target m.type i).2).2) := by
  obtain ⟨facts, items, extraItems, properties, allOf, value⟩ := m
  obtain rfl : items = none := hitems
  obtain rfl : extraItems = none := hextra
  obtain rfl : properties = [] := hproperties
  obtain rfl : value = none := hvalue
  have hown : collect target ⟨facts, none, none, [], [], none⟩ i =
      (⟨{ facts with type := (qualify target facts.type i).1 }, none, none, [], [], none⟩,
        (qualify target facts.type i).2) := by
    simp only [collect, collectOption, collectList, rebracket]
  rw [collectRendered_eq, hown]
  rfl

theorem collectBranches_parent_single (target : String) (branch : Model) (i : Imports) :
    collectBranches target (if true = true then some 0 else none) [] 0 [branch] i =
      ([{ branch with type := (qualify target branch.type i).1 }], (qualify target branch.type i).2) :=
  rfl

theorem collectBranches_other_single (h : branch.properties = []) (target : String) (i : Imports) :
    collectBranches target (if false = true then some 0 else none) [] 0 [branch] i =
      ([branch], i) := by
  obtain ⟨facts, items, extraItems, properties, allOf, value⟩ := branch
  obtain rfl : properties = [] := h
  rfl

/-- The type that a file was made to import is written as the file writes it. -/
theorem writes_of_qualify (h : file.imports = (qualify file.package t {}).2.statements) :
    file.Writes t.package t.kclType (qualify file.package t {}).1.kclType := by
  by_cases hown : t.package = "" ∨ t.package = file.package
  · rw [qualify_own hown]
    exact .own hown
  · rw [not_or] at hown
    obtain ⟨stmt, hmem, hpath, honly, htype⟩ := qualify_qualified (.refl _)
      ((qualify_later file.package t {}).keyed keyed_empty) hown.1 hown.2
    rw [htype]
    exact .foreign hown.1 hown.2 (h ▸ hmem) hpath (h ▸ honly)

/-! ## Declarations -/

/-- The file declares an alias of a type, and nothing else. -/
def ModelFile.IsAlias (file : ModelFile) (name type : String) : Prop :=
  Kcl.body file = [.line ("type " ++ name ++ " = " ++ type)]

/-- The file declares a schema that inherits from another, and nothing else. -/
def ModelFile.Inherits (file : ModelFile) (name parent : String) : Prop :=
  ∃ inner, Kcl.body file = [.line ("schema " ++ name ++ "(" ++ parent ++ "):"), .indented inner]

/-- The file declares a schema that inherits from none, and nothing else. -/
def ModelFile.IsAlone (file : ModelFile) (name : String) : Prop :=
  ∃ inner, Kcl.body file = [.line ("schema " ++ name ++ ":"), .indented inner]

/-- A schema that inherits from none is no alias and does not inherit. -/
theorem ModelFile.IsAlone.nothing_else {file : ModelFile} {name : String} (h : file.IsAlone name) :
    (∀ type, ¬ file.IsAlias name type) ∧ ∀ parent, ¬ file.Inherits name parent := by
  obtain ⟨inner, hbody⟩ := h
  refine ⟨fun type halias => ?_, fun parent hinherits => ?_⟩
  · have hlength := congrArg List.length (hbody.symm.trans halias)
    exact absurd hlength (by simp)
  · obtain ⟨inner', hbody'⟩ := hinherits
    have hline := Kcl.Block.line.inj (List.cons.inj (hbody.symm.trans hbody')).1
    have htext := congrArg String.toList hline
    simp only [String.toList_append, List.append_assoc] at htext
    have hend := List.append_cancel_left (List.append_cancel_left htext)
    exact absurd hend (by simp)

theorem body_of_no_extras (h : file.extras = []) : Kcl.body file = Kcl.declaration file.model := by
  rw [Kcl.body, h]
  exact List.append_nil _

/-- A model without parts is an alias of its type, unless that has no name or that of the model. -/
theorem declaration_partless (h : m.Partless {}) (htuple : m.type.tuple = false) :
    (m.type.kclType ≠ "" ∧ m.type.kclType ≠ m.declaredName → Kcl.declaration m =
      [.line ("type " ++ m.declaredName ++ " = " ++ m.type.kclType)]) ∧
    (m.type.kclType = "" ∨ m.type.kclType = m.declaredName → ∃ inner, Kcl.declaration m =
      [.line ("schema " ++ m.declaredName ++ ":"), .indented inner]) := by
  have halias : Kcl.isAlias m m.declaredName =
      (!m.type.kclType.isEmpty && m.type.kclType != m.declaredName) := by
    simp [Kcl.isAlias, h.properties, h.allOf, h.extended, htuple]
  refine ⟨fun hnamed => ?_, fun hnameless => ?_⟩
  · -- nothing is said of the model but its type
    have hsummary : Kcl.summary m = [] := by rw [Kcl.summary, h.description, h.title]; rfl
    have hchoice : m.constraints.enumValues = [] := h.choice
    have hreadOnly : m.readOnly = false := h.readOnly
    have htext : Kcl.aliasTarget m = m.type.kclType := by
      simp [Kcl.aliasTarget, Kcl.attributeType, Kcl.pinned?, Kcl.typeText, hchoice, hreadOnly,
        h.itemsChoice, hnamed.1]
    rw [Kcl.declaration, halias, if_pos (by simpa using hnamed), Kcl.aliasBlocks, hsummary, htext]
    rfl
  · have hno : ¬ (!m.type.kclType.isEmpty && m.type.kclType != m.declaredName) = true := by
      rcases hnameless with hnil | hsame
      · simp [hnil]
      · simp [hsame]
    have hparent : m.parentBranch = none := by rw [Model.parentBranch, h.allOf]; rfl
    rw [Kcl.declaration, halias, if_neg hno, Kcl.schemaBlocks, hparent]
    exact ⟨_, rfl⟩

/-- A composition of one branch is a schema that inherits from the branch, if that is an object. -/
theorem declaration_single (h : m.allOf = [branch]) (href : branch.reference.isSome = true) :
    ∃ inner, Kcl.declaration m = [.line ("schema " ++ m.declaredName ++
      if branch.type.complex then "(" ++ Kcl.typeText branch ++ "):" else ":"), .indented inner] := by
  have halias : Kcl.isAlias m m.declaredName = false := by simp [Kcl.isAlias, h]
  rw [Kcl.declaration, halias, if_neg (by decide), Kcl.schemaBlocks, Model.parentBranch_single h href]
  cases hc : branch.type.complex
  · exact ⟨_, rfl⟩
  · refine ⟨_, congrArg₂ (fun line inner => [Kcl.Block.line line, .indented inner]) ?_ rfl⟩
    simp [Kcl.header, h, String.append_assoc]

/-- The file is made of a model, with nothing taken out for it. -/
structure ModelFile.MadeOf [Text.Transliteration] (file : ModelFile) (m : Model) : Prop where
  extras : file.extras = []
  model : file.model = (collectRendered file.package m {}).1
  imports : file.imports = (collectRendered file.package m {}).2.statements

/-- A file of a model without parts declares an alias, unless there is nothing to write it with. -/
theorem alias_rendered (hfile : file.MadeOf m) (h : m.Partless {}) (htuple : m.type.tuple = false) :
    ∃ text, file.Writes m.type.package m.type.kclType text ∧
      (text ≠ "" ∧ text ≠ m.declaredName → file.IsAlias m.declaredName text) ∧
      (text = "" ∨ text = m.declaredName → file.IsAlone m.declaredName) := by
  have hcollect :=
    collectRendered_partless file.package {} h.items h.extraItems h.properties h.value
  rw [h.allOf] at hcollect
  have hmodel := hfile.model.trans (congrArg Prod.fst hcollect)
  have hparts : file.model.Partless {} := by
    rw [hmodel]
    exact h.dressed rfl rfl
  have htuple' : file.model.type.tuple = false := by
    rw [hmodel]
    exact (congrArg TypeInfo.tuple (qualify_outline file.package m.type {})).trans htuple
  obtain ⟨halias, halone⟩ := declaration_partless hparts htuple'
  have hname : file.model.declaredName = m.declaredName := by rw [hmodel]
  have htype : file.model.type.kclType = (qualify file.package m.type {}).1.kclType := by rw [hmodel]
  rw [hname, htype, ← body_of_no_extras hfile.extras] at halias halone
  exact ⟨_, writes_of_qualify (hfile.imports.trans (congrArg (·.2.statements) hcollect)), halias, halone⟩

/-- A file of a composition of one reference declares a schema, with a parent if that is a record. -/
theorem composition_rendered (hfile : file.MadeOf m) (h : m.OnlyComposes branch) :
    (branch.type.complex = true → ∃ text, file.Writes branch.type.package branch.type.kclType text ∧
      file.Inherits m.declaredName (if text = "" then Format.anyType else text)) ∧
    (branch.type.complex = false → file.IsAlone m.declaredName) := by
  have hcollect :=
    collectRendered_partless file.package {} h.items h.extraItems h.properties h.value
  rw [qualify_own (.inl h.package), h.allOf, Model.parentBranch_single h.allOf h.reference] at hcollect
  have hmodel := hfile.model.trans (congrArg Prod.fst hcollect)
  have hname : file.model.declaredName = m.declaredName := by rw [hmodel]
  refine ⟨fun hcomplex => ?_, fun hplain => ?_⟩
  · -- of a parent only the type is written out
    rw [hcomplex, collectBranches_parent_single] at hcollect hmodel
    have hall : file.model.allOf =
        [{ branch with type := (qualify file.package branch.type {}).1 }] := by rw [hmodel]
    obtain ⟨inner, hdeclaration⟩ := declaration_single hall h.reference
    have hcomplex' : (qualify file.package branch.type {}).1.complex = true :=
      (congrArg TypeInfo.complex (qualify_outline file.package branch.type {})).trans hcomplex
    refine ⟨(qualify file.package branch.type {}).1.kclType,
      writes_of_qualify (hfile.imports.trans (congrArg (·.2.statements) hcollect)), inner, ?_⟩
    rw [body_of_no_extras hfile.extras, hdeclaration, hname, hcomplex', if_pos rfl, Kcl.typeText]
    simp only [String.isEmpty_iff, String.append_assoc]
  · rw [hplain, collectBranches_other_single h.declares] at hmodel
    have hall : file.model.allOf = [branch] := by rw [hmodel]
    obtain ⟨inner, hdeclaration⟩ := declaration_single hall h.reference
    rw [hplain] at hdeclaration
    exact ⟨inner, by rw [body_of_no_extras hfile.extras, hdeclaration, hname]; rfl⟩

end

namespace Run

open Build

variable {r : Run} {name reference : String} {taken hoisted : List String} {file : ModelFile}
variable {warnings : List Warning}

section

variable {tr : Text.Transliteration}

/-- A file that nothing was taken out for is made of its one model. -/
theorem assemble_madeOf [Text.Transliteration] (setting : Setting) (name : String) (r : Registry)
    {f : Frame} (h : f.extras = []) :
    (assemble setting name r f).1.MadeOf (declare setting name r f.model) := by
  constructor <;> simp [assemble, h, collectAllRendered]

/-- A definition that is only a reference is declared under its own name. -/
theorem declare_of_reference [Text.Transliteration] {r : Registry} (m : Model) (setting : Setting)
    (h : r.get? name = some { reference := some reference }) :
    (declare setting name r m).declaredName = Naming.schemaName name := by
  show Resolver.modelTypeName _ = _
  rw [Resolver.modelTypeName]
  simp only [h, Resolver.declared_kclType]
  rfl

/--
**A definition that is only a reference is rendered as its target**: as an alias of the type of its
target if the schema at the end of the references is an array, a map, a known type or a base, and
else as a schema that inherits from its target if that schema is an object that declares something.
In all other cases a schema without a parent is rendered, and so it is if the type of the target has
no name to be written, or has the name that the definition is declared under itself.
-/
theorem reference_rendered_as_target
    (hget : r.definitions.lookup name = some { reference := some reference })
    (h : r.generateReserving name taken = .ok (file, warnings, hoisted)) :
    ∃ n c d, Reference.name? reference = some n ∧ r.definitions.lookup n = some c ∧
      r.definitions.Ends c d ∧
      (d.isAliasable = true → ∃ text,
        file.Writes ((Registry.ofDefinitions r.definitions).declared r.options n c).package
          ((Registry.ofDefinitions r.definitions).declared r.options n c).kclType text ∧
        (text ≠ "" ∧ text ≠ Naming.schemaName name →
          file.IsAlias (Naming.schemaName name) text) ∧
        (text = "" ∨ text = Naming.schemaName name → file.IsAlone (Naming.schemaName name))) ∧
      (d.isAliasable = false → d.isRecord = true → ∃ text,
        file.Writes ((Registry.ofDefinitions r.definitions).declared r.options n c).package
          ((Registry.ofDefinitions r.definitions).declared r.options n c).kclType text ∧
        file.Inherits (Naming.schemaName name) (if text = "" then Format.anyType else text)) ∧
      (d.isAliasable = false → d.isRecord = false → file.IsAlone (Naming.schemaName name)) := by
  obtain ⟨s', hbuild, -⟩ := generateReserving_ok h
  obtain ⟨f, s₁, hf, -, rfl⟩ := file_cases hbuild
  have hstored : (r.session taken).registry.get? name = some { reference := some reference } := hget
  obtain ⟨hreg, hextras, n, c, d, hname, hn, hd, hm⟩ := fileFrame_reference hstored hf
  -- what this reference ends at, the definition that it names ends at
  have hends : r.definitions.Ends c d := by
    have hall : r.definitions.Ends { reference := some reference } d :=
      Definitions.ends_of_leads (r := (r.session taken).registry) (fun _ _ hc => hc) hd rfl
    cases hall with
    | here hnone => exact absurd hnone (by simp)
    | next href hname' hc htail =>
      obtain rfl := Option.some.inj href
      obtain rfl := Option.some.inj (hname.symm.trans hname')
      exact Option.some.inj (hc.symm.trans hn) ▸ htail
  have hdeclared := declare_of_reference f.model r.setting (hreg ▸ hstored)
  have hfile := assemble_madeOf r.setting name s₁.registry hextras
  have hdressed : (declare r.setting name s₁.registry f.model).RefersOnly r.options
      (r.session taken).registry n c d := hm.dressed rfl rfl rfl
  refine ⟨n, c, d, hname, hn, hends, ?_⟩
  rw [← hdeclared]
  generalize declare r.setting name s₁.registry f.model = m at hfile hdressed
  cases hdressed with
  | aliased halias hparts htuple htype =>
    obtain ⟨text, hwrites, hrendered⟩ := alias_rendered hfile hparts htuple
    rw [htype.package, htype.kclType] at hwrites
    exact ⟨fun _ => ⟨text, hwrites, hrendered⟩, fun hno => absurd halias (by simp [hno]),
      fun hno => absurd halias (by simp [hno])⟩
  | @composed branch hcomposes hbranch hcomplex htype =>
    obtain ⟨hparent, halone⟩ := composition_rendered hfile hbranch
    rw [hcomplex, htype.package, htype.kclType] at hparent
    rw [hcomplex] at halone
    exact ⟨fun halias => absurd halias (by simp [hcomposes]), fun _ => hparent, fun _ => halone⟩

end

/-- A place has a name. -/
def place : Schema := { types := ["object"], properties := [("name", .typed "string")] }

/-- A site is a town, and a town is a place. -/
def sites : Run := ofDefinitions [("Place", place),
  ("Town", .referenceTo "Place"), ("Site", .referenceTo "Town")]

theorem site_inherits_from_town :
    sites.definitions.lookup "Site" = some { reference := some (Reference.toDefinition "Town") } ∧
    ∃ file warnings hoisted, sites.generateReserving "Site" [] = .ok (file, warnings, hoisted) ∧
      file.Inherits "Site" "Town" := by
  obtain ⟨⟨file, warnings, hoisted⟩, h, hpackage⟩ := exists_ok_of_any
    (e := sites.generateReserving "Site" []) (p := fun x => x.1.package == "models")
    (by decide +kernel)
  refine ⟨rfl, file, warnings, hoisted, h, ?_⟩
  obtain ⟨n, c, d, hn, hc, hd, -, hinherits, -⟩ := reference_rendered_as_target rfl h
  have htown : Reference.name? (Reference.toDefinition "Town") = some "Town" := by decide
  obtain rfl := Option.some.inj (htown.symm.trans hn)
  obtain rfl : Schema.referenceTo "Place" = c := Option.some.inj hc
  have hplace : sites.definitions.Ends (.referenceTo "Place") place :=
    .next rfl (n := "Place") (by decide) rfl (.here rfl)
  obtain rfl := hplace.unique hd
  obtain ⟨text, hwrites, hfile⟩ := hinherits (by decide) (by decide)
  cases hwrites with
  | own => exact hfile
  | foreign _ hother => exact absurd (beq_iff_eq.mp hpackage).symm hother

/-- A position is a point, and a point is a pair. -/
def positions : Run := ofDefinitions [
  ("Point", { types := ["array"], items := some (.tuple [.typed "number", .typed "number"]) }),
  ("Position", .referenceTo "Point")]

/-- What is rendered of a reference to a pair has nothing of the pair. -/
theorem position_parentless :
    positions.definitions.lookup "Position" =
      some { reference := some (Reference.toDefinition "Point") } ∧
    ∃ file warnings hoisted,
      positions.generateReserving "Position" [] = .ok (file, warnings, hoisted) ∧
      file.IsAlone "Position" ∧ (∀ type, ¬ file.IsAlias "Position" type) ∧
      ∀ parent, ¬ file.Inherits "Position" parent := by
  obtain ⟨⟨file, warnings, hoisted⟩, h, hfacts⟩ := exists_ok_of_any
    (e := positions.generateReserving "Position" [])
    (p := fun x => x.1.extras.isEmpty && !Kcl.isAlias x.1.model x.1.model.declaredName &&
      x.1.model.parentBranch.isNone && x.1.model.declaredName == "Position") (by decide +kernel)
  simp only [Bool.and_eq_true, Bool.not_eq_true', List.isEmpty_iff, Option.isNone_iff_eq_none,
    beq_iff_eq] at hfacts
  obtain ⟨⟨⟨hextras, halias⟩, hparent⟩, hname⟩ := hfacts
  have halone : file.IsAlone "Position" := by
    rw [ModelFile.IsAlone, body_of_no_extras hextras, Kcl.declaration, halias,
      if_neg (by decide), hname, Kcl.schemaBlocks, hparent]
    exact ⟨_, rfl⟩
  exact ⟨rfl, file, warnings, hoisted, h, halone, halone.nothing_else⟩

end Run

end KclModels
