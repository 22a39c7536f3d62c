import KclModels.Proofs.Kcl.Layout
import KclModels.Proofs.Model.Strictness

/-!
# Writing with another choice for closed objects

The choice for objects that deny additional properties is read in one place: where a schema says
what else may be in its objects. So files with one choice and with the other have the same text, but
for that line of the schemas for objects that deny additional properties. Where nothing else stands
after the documentation of such a schema, the empty line before the line goes with it, as no
declaration ends in an empty line.
-/

namespace KclModels.Kcl

open Model

variable {tr : Text.Transliteration}
variable {strict : Bool}

/-! ## Texts of single models -/

@[simp]
theorem typeText_withStrict (m : Model) : typeText (m.withStrict strict) = typeText m := by
  simp only [typeText, withStrict_toModelFacts]

@[simp]
theorem attributeType_withStrict (m : Model) :
    attributeType (m.withStrict strict) = attributeType m := by
  simp only [attributeType, pinned?, typeText, withStrict_toModelFacts, withStrict_items,
    Option.any_map]

@[simp]
theorem summary_withStrict (m : Model) : summary (m.withStrict strict) = summary m := by
  simp only [summary, withStrict_toModelFacts]

theorem attributeDoc_withStrict (m : Model) :
    attributeDoc (m.withStrict strict) = attributeDoc m := by
  simp only [attributeDoc, attributeSummary, summary_withStrict, attributeType_withStrict,
    withStrict_toModelFacts]

theorem attributeLine_withStrict (m : Model) :
    attributeLine (m.withStrict strict) = attributeLine m := by
  simp only [attributeLine, attributeType_withStrict, withStrict_toModelFacts]

theorem partCheck_withStrict (subject binder name : String) (part : Option Model) :
    partCheck subject binder name (part.map (withStrict strict)) =
      partCheck subject binder name part := by
  cases part <;> simp only [partCheck, Option.map_some, Option.map_none, withStrict_toModelFacts]

theorem attributeChecks_withStrict (m : Model) :
    attributeChecks (m.withStrict strict) = attributeChecks m := by
  simp only [attributeChecks, isNameable, withStrict_toModelFacts, withStrict_items,
    withStrict_additionalProperties, partCheck_withStrict]
  rfl

theorem attributeUsesRegex_withStrict (m : Model) :
    attributeUsesRegex (m.withStrict strict) = attributeUsesRegex m := by
  simp only [attributeUsesRegex, isNameable, withStrict_toModelFacts, withStrict_items,
    withStrict_additionalProperties, Option.any_map]

theorem isAlias_withStrict (m : Model) (name : String) :
    isAlias (m.withStrict strict) name = isAlias m name := by
  simp only [isAlias, withStrict_toModelFacts, withStrict_properties, withStrict_allOf,
    List.isEmpty_map]

theorem aliasBlocks_withStrict (m : Model) (name : String) :
    aliasBlocks (m.withStrict strict) name = aliasBlocks m name := by
  simp only [aliasBlocks, aliasTarget, summary_withStrict, attributeType_withStrict,
    withStrict_toModelFacts]

theorem header_withStrict (m : Model) (name : String) (parent : Option Nat) :
    header (m.withStrict strict) name parent = header m name parent := by
  cases parent with
  | none => rfl
  | some index =>
    simp only [header, Option.bind_some, withStrict_allOf, List.getElem?_map]
    cases m.allOf[index]? with
    | none => rfl
    | some branch => simp only [Option.map_some, typeText_withStrict]

/-! ## Attributes -/

theorem firstOfEachName_withStrict (l : List Model) : ∀ seen,
    firstOfEachName seen (l.map (withStrict strict)) =
      (firstOfEachName seen l).map (withStrict strict) := by
  induction l with
  | nil => exact fun _ => rfl
  | cons m rest ih =>
    intro seen
    simp only [List.map_cons, firstOfEachName, withStrict_toModelFacts, ih]
    split <;> rfl

theorem otherBranches_withStrict (m : Model) (parent : Option Nat) :
    otherBranches (m.withStrict strict) parent =
      (otherBranches m parent).map (withStrict strict) := by
  simp only [otherBranches, withStrict_allOf, List.zipIdx_map, List.filter_map, List.map_map,
    Function.comp_def, Prod.map_fst, Prod.map_snd, id_eq]

theorem ownAttributes_withStrict (m : Model) (parent : Option Nat) :
    ownAttributes (m.withStrict strict) parent =
      (ownAttributes m parent).map (withStrict strict) := by
  simp only [ownAttributes, otherBranches_withStrict, withStrict_properties, List.flatMap_map,
    ← firstOfEachName_withStrict, List.map_append, List.map_flatMap]

/-- The attribute for the items past the places of a tuple is made up here, with no choice. -/
theorem restAttribute?_withStrict (m : Model) (strict' : Bool) :
    (restAttribute? (m.withStrict strict)).map (withStrict strict') =
      (restAttribute? m).map (withStrict strict') := by
  have hitems : ((m.additionalItems.map (withStrict strict)).getD {}).withStrict strict' =
      (m.additionalItems.getD {}).withStrict strict' := by
    cases m.additionalItems with
    | none => rfl
    | some items => exact withStrict_withStrict strict strict' items
  have htext : typeText ((m.additionalItems.map (withStrict strict)).getD {}) =
      typeText (m.additionalItems.getD {}) := by
    cases m.additionalItems with
    | none => rfl
    | some items => exact typeText_withStrict items
  simp only [restAttribute?, withStrict_toModelFacts, withStrict_additionalItems,
    withStrict_properties, List.length_map, htext]
  split
  · simp only [Option.map_some, withStrict, withStrictOption, hitems]
  · rfl

/-- What is written of attributes one by one is the same of the attributes of a schema. -/
theorem map_attributes_withStrict {β : Type} {g : Model → β}
    (hg : ∀ (b : Bool) (m : Model), g (m.withStrict b) = g m) (m : Model) (parent : Option Nat) :
    (attributes (m.withStrict strict) parent).map g = (attributes m parent).map g := by
  have hcomp : ∀ b, g ∘ withStrict b = g := fun b => funext (hg b)
  have hrest : (restAttribute? (m.withStrict strict)).map (withStrict false) =
      (restAttribute? m).map (withStrict false) := restAttribute?_withStrict m false
  have hrest := congrArg (Option.map g) hrest
  rw [Option.map_map, Option.map_map, hcomp] at hrest
  rw [attributes, attributes, List.map_append, List.map_append, ownAttributes_withStrict,
    List.map_map, hcomp, ← Option.toList_map, ← Option.toList_map, hrest]

theorem any_attributes_withStrict {p : Model → Bool}
    (hp : ∀ (b : Bool) (m : Model), p (m.withStrict b) = p m) (m : Model) (parent : Option Nat) :
    (attributes (m.withStrict strict) parent).any p = (attributes m parent).any p := by
  have hmap : (attributes (m.withStrict strict) parent).map p = (attributes m parent).map p :=
    map_attributes_withStrict hp m parent
  have hany : List.any _ id = List.any _ id := congrArg (List.any · id) hmap
  rwa [List.any_map, List.any_map] at hany

theorem isEmpty_attributes_withStrict (m : Model) (parent : Option Nat) :
    (attributes (m.withStrict strict) parent).isEmpty = (attributes m parent).isEmpty := by
  have hmap : (attributes (m.withStrict strict) parent).map (fun _ => ()) =
      (attributes m parent).map fun _ => () := map_attributes_withStrict (fun _ _ => rfl) m parent
  rw [← List.isEmpty_map, hmap, List.isEmpty_map]

/-! ## Schemas -/

theorem schemaDoc_withStrict (m : Model) (name : String) (parent : Option Nat) :
    schemaDoc (m.withStrict strict) name (attributes (m.withStrict strict) parent) =
      schemaDoc m name (attributes m parent) := by
  simp only [schemaDoc, docBody, summary_withStrict, isEmpty_attributes_withStrict,
    List.flatMap_def, map_attributes_withStrict fun _ => attributeDoc_withStrict]

theorem checkBlock_withStrict (m : Model) (parent : Option Nat) :
    checkBlock (attributes (m.withStrict strict) parent) = checkBlock (attributes m parent) := by
  have hlines : checkLines (attributes (m.withStrict strict) parent) =
      checkLines (attributes m parent) := by
    rw [checkLines, checkLines, List.flatMap_def, List.flatMap_def,
      map_attributes_withStrict fun _ => attributeChecks_withStrict]
  rw [checkBlock, checkBlock, hlines]

theorem discriminatorLine?_withStrict (m : Model) (parent : Option Nat) :
    discriminatorLine? (m.withStrict strict) (attributes (m.withStrict strict) parent) =
      discriminatorLine? m (attributes m parent) := by
  have hdeclared : ∀ field, (attributes (m.withStrict strict) parent).any (·.name == field) =
      (attributes m parent).any (·.name == field) :=
    fun field => any_attributes_withStrict (fun b m => by rw [withStrict_toModelFacts]) m parent
  simp only [discriminatorLine?, withStrict_toModelFacts, hdeclared]

theorem declarationUsesRegex_withStrict (m : Model) :
    declarationUsesRegex (m.withStrict strict) = declarationUsesRegex m := by
  rw [declarationUsesRegex, declarationUsesRegex, isAlias_withStrict, parentBranch_withStrict,
    checksUseRegex, checksUseRegex,
    any_attributes_withStrict fun _ => attributeUsesRegex_withStrict, withStrict_toModelFacts]

/-- A schema that says of what type the attributes beyond those it declares are. -/
def schemaWith (m : Model) (name : String) (signature : Option String) : List Block :=
  let attributes := attributes m m.parentBranch
  [.line (header m name m.parentBranch),
    .indented (schemaDoc m name attributes ++ [.line ""] ++
      ((discriminatorLine? m attributes).toList.map .line) ++
      (signature.toList.map fun type => .line ("[...str]: " ++ type)) ++
      (attributes.map fun a => .line (attributeLine a)) ++ checkBlock attributes)]

theorem schemaBlocks_eq (m : Model) (name : String) :
    schemaBlocks m name = schemaWith m name (indexSignature? m) := rfl

theorem schemaWith_withStrict (m : Model) (name : String) (signature : Option String) :
    schemaWith (m.withStrict strict) name signature = schemaWith m name signature := by
  have hlines : ∀ parent, (attributes (m.withStrict strict) parent).map
      (fun a => Block.line (attributeLine a)) =
        (attributes m parent).map fun a => Block.line (attributeLine a) :=
    map_attributes_withStrict (fun b a => by rw [attributeLine_withStrict]) m
  rw [schemaWith, schemaWith, parentBranch_withStrict, header_withStrict, schemaDoc_withStrict,
    discriminatorLine?_withStrict, hlines, checkBlock_withStrict]

/-- Whether a model is declared as a schema for objects that deny additional properties. -/
def closes (m : Model) : Bool :=
  !isAlias m m.declaredName && m.additionalPropertiesDenied && !m.isAdditionalProperties

theorem indexSignature?_withStrict_of_closes {m : Model} (h : closes m = true) :
    indexSignature? (m.withStrict strict) = if strict then none else some Format.anyType := by
  simp only [closes, Bool.and_eq_true, Bool.not_eq_true'] at h
  simp only [indexSignature?, withStrict_toModelFacts, h.1.2, h.2, if_true,
    Bool.false_eq_true, if_false]

theorem indexSignature?_withStrict {m : Model}
    (h : m.additionalPropertiesDenied = true → m.isAdditionalProperties = true) :
    indexSignature? (m.withStrict strict) = indexSignature? m := by
  unfold indexSignature?
  simp only [withStrict_toModelFacts, withStrict_additionalProperties, withStrict_properties,
    withStrict_allOf, List.isEmpty_map]
  cases hextra : m.isAdditionalProperties with
  | true =>
    cases m.additionalProperties with
    | none => rfl
    | some value =>
      simp only [Option.map_some, typeText_withStrict]
      rfl
  | false =>
    have hdenied : m.additionalPropertiesDenied = false :=
      Bool.eq_false_iff.mpr fun hdenied => Bool.eq_false_iff.mp hextra (h hdenied)
    simp only [hdenied]
    rfl

/-- The choice is read of schemas for objects that deny additional properties only. -/
theorem declaration_withStrict {m : Model} (h : closes m = false) :
    declaration (m.withStrict strict) = declaration m := by
  have hname : (m.withStrict strict).declaredName = m.declaredName := by
    rw [withStrict_toModelFacts]
  rw [declaration, declaration, hname, isAlias_withStrict, aliasBlocks_withStrict]
  split
  · rfl
  · rename_i halias
    have hindex : indexSignature? (m.withStrict strict) = indexSignature? m := by
      refine indexSignature?_withStrict fun hdenied => ?_
      simpa [closes, halias, hdenied] using h
    rw [schemaBlocks_eq, schemaBlocks_eq, schemaWith_withStrict, hindex]

theorem declaration_withStrict_of_closes {m : Model} (h : closes m = true) :
    declaration (m.withStrict strict) =
      schemaWith m m.declaredName (if strict then none else some Format.anyType) := by
  have hname : (m.withStrict strict).declaredName = m.declaredName := by
    rw [withStrict_toModelFacts]
  have halias : ¬isAlias m m.declaredName = true := fun halias => by simp [closes, halias] at h
  rw [declaration, hname, isAlias_withStrict, if_neg halias, schemaBlocks_eq,
    schemaWith_withStrict, indexSignature?_withStrict_of_closes h]

/-! ## Texts -/

/-- The line that says that anything may be in the objects of a schema. -/
def openLine : String := "    [...str]: any\n"

/-- The first line of a schema, and its documentation. -/
def heading (m : Model) : String :=
  addBlocks 0 "" [.line (header m m.declaredName m.parentBranch),
    .indented (schemaDoc m m.declaredName (attributes m m.parentBranch))]

/-- The line that pins the discriminator of a schema, if it has one. -/
def pinText (m : Model) : String :=
  addBlocks 1 "" ((discriminatorLine? m (attributes m m.parentBranch)).toList.map .line)

/-- The attributes and conditions of a schema. -/
def memberText (m : Model) : String :=
  let attributes := attributes m m.parentBranch
  addBlocks 1 "" ((attributes.map fun a => .line (attributeLine a)) ++ checkBlock attributes)

/-- Whether nothing has to be said of a schema but what else may be in its objects. -/
def isBare (m : Model) : Bool :=
  (attributes m m.parentBranch).isEmpty &&
    (discriminatorLine? m (attributes m m.parentBranch)).isNone

theorem addBlocks_schemaWith (m : Model) (signature : Option String) :
    addBlocks 0 "" (schemaWith m m.declaredName signature) =
      heading m ++ "\n" ++ pinText m ++
        addBlocks 1 "" (signature.toList.map fun type => .line ("[...str]: " ++ type)) ++
        memberText m := by
  have hmembers : arePlain (((attributes m m.parentBranch).map fun a => .line (attributeLine a)) ++
      checkBlock (attributes m m.parentBranch)) = true := by
    rw [arePlain_append, arePlain_linesOf, arePlain_checkBlock]
    rfl
  have hsignature : arePlain (signature.toList.map fun type => .line ("[...str]: " ++ type)) = true :=
    arePlain_linesOf _ _
  have hempty : arePlain [.line ""] = true := rfl
  have hindented : ∀ (first : String) (body : List Block),
      addBlocks 0 "" [.line first, .indented body] = addBlocks 1 ("" ++ lineAt 0 first) body :=
    fun _ _ => rfl
  rw [schemaWith, hindented, List.append_assoc _ _ (checkBlock _), addBlocks_append_plain hmembers,
    addBlocks_append_plain hsignature, addBlocks_append_plain (arePlain_lines _),
    addBlocks_append_plain hempty]
  rfl

/-- The documentation of a schema ends in a line of quotes. -/
theorem heading_endsLine (m : Model) : EndsLine (heading m) := by
  have hquotes : EndsLine (lineAt 1 "\"\"\"") := ⟨"    \"\"", '"', by decide, by decide⟩
  rw [heading, addBlocks, Block.addTo, addBlocks, Block.addTo, addBlocks, schemaDoc,
    addBlocks_append]
  exact hquotes.append

theorem endsLine_lineAt_quote (text value : String) :
    EndsLine (lineAt 1 (text ++ quote value)) := by
  have hquote : EndsLine (quote value ++ "\n") :=
    ⟨String.ofList ('"' :: value.toList.flatMap literalChar), '"', by decide, by
      rw [quote, String.ofList_append, String.append_assoc]
      rfl⟩
  have hsolid : Solid (quote value) := ⟨'"', by simp [quote], by decide⟩
  rw [lineAt, if_neg hsolid.append.not_isEmpty, String.append_assoc, String.append_assoc]
  exact hquote.append.append

theorem pinText_endsLine {m : Model}
    (h : (discriminatorLine? m (attributes m m.parentBranch)).isSome = true) :
    EndsLine (pinText m) := by
  obtain ⟨line, hline⟩ := Option.isSome_iff_exists.mp h
  obtain ⟨text, value, rfl⟩ : ∃ text value, line = text ++ quote value := by
    unfold discriminatorLine? at hline
    split at hline
    · split at hline
      · exact ⟨_, _, (Option.some.inj hline).symm⟩
      · exact nomatch hline
    · exact nomatch hline
  rw [pinText, hline]
  exact (endsLine_lineAt_quote text value).append

theorem memberText_solid {m : Model} (h : (attributes m m.parentBranch).isEmpty = false) :
    Solid (memberText m) := by
  unfold memberText
  cases hattributes : attributes m m.parentBranch with
  | nil => simp [hattributes] at h
  | cons a rest =>
    have hcolon : Solid ": " := ⟨':', by decide, by decide⟩
    have hline : Solid (attributeLine a) := (hcolon.append.append_left).append_left
    have hplain : arePlain ((rest.map fun a => .line (attributeLine a)) ++ checkBlock (a :: rest)) =
        true := by
      rw [arePlain_append, arePlain_linesOf, arePlain_checkBlock]
      rfl
    dsimp only
    rw [List.map_cons, List.cons_append, addBlocks, addBlocks_eq_append 1 _ _ hplain]
    exact (hline.lineAt.append).append_left

theorem memberText_eq_empty {m : Model} (h : (attributes m m.parentBranch).isEmpty = true) :
    memberText m = "" := by
  rw [memberText, List.isEmpty_iff.mp h]
  rfl

/--
`Opens models t t'`: the texts `t` and `t'` of the declarations of `models` are the same, but for the
line that says that anything may be in the objects of a schema. Where it is the only line after the
documentation, the empty line between them is left out with it.
-/
inductive Opens : List Model → String → String → Prop
  | nil : Opens [] "" ""
  | same {m : Model} {rest : List Model} {text t t' : String} : closes m = false →
    Opens rest t t' → Opens (m :: rest) (text ++ t) (text ++ t')
  | bare {m : Model} {rest : List Model} {after t t' : String} : closes m = true →
    isBare m = true → Opens rest t t' →
    Opens (m :: rest) (heading m ++ "\n" ++ openLine ++ after ++ t) (heading m ++ after ++ t')
  | line {m : Model} {rest : List Model} {after t t' : String} : closes m = true →
    isBare m = false → Opens rest t t' →
    Opens (m :: rest) (heading m ++ "\n" ++ pinText m ++ openLine ++ after ++ t)
      (heading m ++ "\n" ++ pinText m ++ after ++ t')

theorem declarationText_withStrict {m : Model} (h : closes m = true) :
    declarationText (m.withStrict strict) =
      heading m ++ "\n" ++ pinText m ++ (if strict then "" else openLine) ++ memberText m := by
  rw [declarationText, declaration_withStrict_of_closes h, addBlocks_schemaWith]
  cases strict <;> rfl

variable {e : String → String} {last : String} {models : List Model} {t t' : String}

theorem Opens.cons (he : Ending e last) (m : Model) (h : Opens models t t') :
    Opens (m :: models) (e (declarationText (m.withStrict false)) ++ t)
      (e (declarationText (m.withStrict true)) ++ t') := by
  have hopen : EndsLine openLine := ⟨"    [...str]: an", 'y', by decide, by decide⟩
  cases hcloses : closes m with
  | false =>
    rw [declarationText, declarationText, declaration_withStrict hcloses,
      declaration_withStrict hcloses]
    exact .same hcloses h
  | true =>
    rw [declarationText_withStrict hcloses, declarationText_withStrict hcloses, if_pos rfl,
      if_neg Bool.false_ne_true, String.append_empty]
    -- With attributes both texts end alike. Without, one ends in the line and the other before it.
    cases hattributes : (attributes m m.parentBranch).isEmpty with
    | false =>
      have hbare : isBare m = false := by rw [isBare, hattributes, Bool.false_and]
      have hmembers := memberText_solid hattributes
      rw [he.append hmembers, he.append hmembers]
      exact .line hcloses hbare h
    | true =>
      rw [memberText_eq_empty hattributes, String.append_empty, String.append_empty,
        he.of_endsLine hopen.append]
      cases hpin : discriminatorLine? m (attributes m m.parentBranch) with
      | none =>
        have hbare : isBare m = true := by rw [isBare, hattributes, hpin]; rfl
        have hempty : pinText m = "" := by rw [pinText, hpin]; rfl
        rw [hempty, String.append_empty, he.of_blank (heading_endsLine m)]
        exact .bare hcloses hbare h
      | some line =>
        have hbare : isBare m = false := by rw [isBare, hattributes, hpin]; rfl
        have hend : EndsLine (pinText m) := pinText_endsLine (by rw [hpin]; rfl)
        rw [he.of_endsLine hend.append]
        exact .line hcloses hbare h

theorem bodyText_opens (models : List Model) : Opens models
    (bodyText (models.map (withStrict false))) (bodyText (models.map (withStrict true))) := by
  induction models with
  | nil => exact .nil
  | cons m rest ih =>
    cases rest with
    | nil =>
      have hlast := Opens.cons trimEnd_ending m .nil
      rwa [String.append_empty, String.append_empty] at hlast
    | cons m' rest => exact Opens.cons separated_ending m ih

theorem preamble_withStrict (f : ModelFile) : preamble (f.withStrict strict) = preamble f := by
  have hregex : ((f.withStrict strict).model :: (f.withStrict strict).extras).any
      declarationUsesRegex = (f.model :: f.extras).any declarationUsesRegex := by
    have hmap : (f.withStrict strict).model :: (f.withStrict strict).extras =
        (f.model :: f.extras).map (withStrict strict) := rfl
    rw [hmap, List.any_map]
    exact congrArg ((f.model :: f.extras).any ·) (funext declarationUsesRegex_withStrict)
  rw [preamble, preamble, hregex]
  rfl

theorem outputPath_withStrict (f : ModelFile) : outputPath (f.withStrict strict) = outputPath f := by
  have hname : (f.model.withStrict strict).documentName = f.model.documentName := by
    rw [withStrict_toModelFacts]
  rw [outputPath, outputPath, ← hname]
  rfl

/--
The files `file` and `file'` of the models of `f` go to one path, and differ in the lines that say
that anything may be in the objects of a schema.
-/
structure OpensFile (f : ModelFile) (file file' : SourceFile) : Prop where
  path : file'.path = file.path
  content : ∃ t t', Opens (f.model :: f.extras) t t' ∧
    file.content = layout (preamble f) ++ "\n" ++ t ∧
    file'.content = layout (preamble f) ++ "\n" ++ t'

/-- A schema that is bare loses an empty line too. -/
theorem OpensFile.length_of_bare {f : ModelFile} {file file' : SourceFile}
    (h : OpensFile f file file') (hcloses : closes f.model = true) (hbare : isBare f.model = true)
    (hextras : f.extras = []) :
    file.content.length = file'.content.length + openLine.length + 1 := by
  obtain ⟨t, t', hopens, htext, htext'⟩ := h.content
  rw [hextras] at hopens
  cases hopens with
  | same hopen => exact absurd (hcloses.symm.trans hopen) (by decide)
  | line _ hline => exact absurd (hbare.symm.trans hline) (by decide)
  | bare _ _ hrest =>
    cases hrest
    have hbreak : "\n".length = 1 := by decide
    rw [htext, htext']
    simp only [String.length_append]
    omega

/-- **What is written goes by the choice** in lines for objects that deny additional properties. -/
theorem render_opens [Text.Transliteration] (f : ModelFile) :
    OpensFile f (render (f.withStrict false)) (render (f.withStrict true)) where
  path := (outputPath_withStrict f).trans (outputPath_withStrict f).symm
  content := by
    have htext : ∀ strict, fileText (f.withStrict strict) =
        layout (preamble f) ++ "\n" ++ bodyText ((f.model :: f.extras).map (withStrict strict)) := by
      intro strict
      rw [fileText, preamble_withStrict, layout_body]
      rfl
    exact ⟨_, _, bodyText_opens (f.model :: f.extras), htext false, htext true⟩

end KclModels.Kcl
