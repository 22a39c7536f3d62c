import KclModels.Proofs.Imports.Aliases
import KclModels.Proofs.Imports.Rendered
import KclModels.Proofs.Run.Accounted
import KclModels.Proofs.Run.Paths
import KclModels.Text.AsciiTable

/-!
# Spelled types are qualified

The models of a file are collected one after the other, and the imports of the file are those that
were met then. So every type that the file spells is written with the name of an import of the file
or needs none. The exception is what stands below a parent that is no reference to a schema: of a
parent only the name is looked at.
-/

namespace KclModels.Run

open Imports

variable {r : Run} {name : String} {taken hoisted : List String} {file : ModelFile}
variable {warnings : List Warning}

section

variable {tr : Text.Transliteration}

/-- The models of a file are collected one after the other, and with them its imports. -/
theorem generateReserving_collected
    (h : r.generateReserving name taken = .ok (file, warnings, hoisted)) :
    ∃ f s' i, (Build.fileFrame r.setting name).Gives (r.session taken) f s' ∧
      collectAllRendered file.package
        (Build.declare r.setting name s'.registry f.model :: f.extras.map Prod.snd) {} =
        (file.model :: file.extras, i) ∧ file.imports = i.statements := by
  obtain ⟨s', hbuild, -⟩ := generateReserving_ok h
  obtain ⟨f, s₁, hf, -, rfl⟩ := Build.file_cases hbuild
  obtain ⟨i, hcollect, himports, hpackage⟩ :=
    Build.assemble_collected r.setting name s₁.registry f
  exact ⟨f, s₁, i, hf, by rw [hpackage]; exact hcollect, himports⟩

/-- What models spell is written out once all of them are collected. -/
theorem collected_spelledOut {target : String} {i : Imports} {l l' : List Model}
    (h : collectAllRendered target l {} = (l', i)) :
    List.Forall₂ (SpelledOut target i.statements) l l' := by
  have hlater := collectAllRendered_later target l {}
  have hwritten := collectAllRendered_spelledOut (hlater.keyed keyed_empty) l {} (Later.refl _)
  rwa [h] at hwritten

/-- **The types that a file spells are written out for the package of the file**, each once. -/
theorem spelled_types_written_out
    (h : r.generateReserving name taken = .ok (file, warnings, hoisted)) :
    ∃ f s' i, (Build.fileFrame r.setting name).Gives (r.session taken) f s' ∧
      collectAllRendered file.package
        (Build.declare r.setting name s'.registry f.model :: f.extras.map Prod.snd) {} =
        (file.model :: file.extras, i) ∧ file.imports = i.statements ∧
      List.Forall₂ (SpelledOut file.package file.imports)
        (Build.declare r.setting name s'.registry f.model :: f.extras.map Prod.snd)
        (file.model :: file.extras) := by
  obtain ⟨f, s', i, hf, hcollect, himports⟩ := generateReserving_collected h
  have hwritten := collected_spelledOut hcollect
  rw [← himports] at hwritten
  exact ⟨f, s', i, hf, hcollect, himports, hwritten⟩

end

/-- Gardens in a package of their own; a plot stands for a type that exists already. -/
def estates : Run := ofDefinitions [
  ("ext.Garden", { types := ["object"], properties := [("area", .typed "string")] }),
  ("Plot", { types := ["object"], properties := [("number", .typed "string")]
             hints := { existing := some { name := "Plot" } } }),
  ("Estate", { types := ["object"], properties := [("gardens",
    { types := ["array"], items := some (.single (.referenceTo "ext.Garden")) })] }),
  ("Park", { allOf := [
    { Schema.referenceTo "Plot" with items := some (.single (.referenceTo "ext.Garden")) },
    { types := ["object"], properties := [("hours", .typed "string")] }] })]

theorem estate_written_out : ∃ file warnings hoisted,
    estates.generateReserving "Estate" [] = .ok (file, warnings, hoisted) ∧
    file.imports.map (·.asName) = ["ext"] ∧
    (file.model.at? [.property 0]).map (·.type.kclType) = some "[ext.Garden]" ∧
    ∃ f s' i, (Build.fileFrame estates.setting "Estate").Gives (estates.session []) f s' ∧
      collectAllRendered file.package
        (Build.declare estates.setting "Estate" s'.registry f.model :: f.extras.map Prod.snd) {} =
        (file.model :: file.extras, i) ∧ file.imports = i.statements ∧
      List.Forall₂ (SpelledOut file.package file.imports)
        (Build.declare estates.setting "Estate" s'.registry f.model :: f.extras.map Prod.snd)
        (file.model :: file.extras) := by
  obtain ⟨⟨file, warnings, hoisted⟩, h, hfacts⟩ :=
    exists_ok_of_any (e := estates.generateReserving "Estate" [])
      (p := fun one => decide (one.1.imports.map (·.asName) = ["ext"]) &&
        decide ((one.1.model.at? [.property 0]).map (·.type.kclType) = some "[ext.Garden]"))
      (by decide +kernel)
  simp only [Bool.and_eq_true, decide_eq_true_eq] at hfacts
  exact ⟨file, warnings, hoisted, h, hfacts.1, hfacts.2, spelled_types_written_out h⟩

/--
Below a parent that is an array a type of another package does stay unqualified: the file of `Park`
has the first line `schema Park([Garden]):` and imports nothing.
-/
theorem park_garden_not_qualified : ∃ file warnings hoisted q a,
    estates.generateReserving "Park" [] = .ok (file, warnings, hoisted) ∧
    Kcl.Spells file.model q ∧ file.model.at? q = some a ∧
    a.type.package ≠ "" ∧ a.type.package ≠ file.package ∧
    (∀ t : TypeInfo, t.package = a.type.package → ¬ Qualified file.package file.imports t a.type) ∧
    Kcl.header file.model "Park" file.model.parentBranch = "schema Park([Garden]):" := by
  obtain ⟨⟨file, warnings, hoisted⟩, h, hfacts⟩ :=
    exists_ok_of_any (e := estates.generateReserving "Park" [])
      (p := fun one => one.1.imports.isEmpty && one.1.model.parentBranch == some 0 &&
        (one.1.model.at? [.branch 0, .items]).any (fun a =>
          a.type.package != "" && a.type.package != one.1.package) &&
        Kcl.header one.1.model "Park" one.1.model.parentBranch == "schema Park([Garden]):")
      (by decide +kernel)
  simp only [Bool.and_eq_true, List.isEmpty_iff, beq_iff_eq, Option.any_eq_true, bne_iff_ne,
    ne_eq] at hfacts
  obtain ⟨⟨⟨himports, hparent⟩, a, ha, hsome, hother⟩, hheader⟩ := hfacts
  refine ⟨file, warnings, hoisted, [.branch 0, .items], a, h, ?_, ha, hsome, hother, ?_, hheader⟩
  · exact .part (p := [.branch 0]) (.parent hparent) rfl (Option.isSome_iff_exists.mpr ⟨a, ha⟩)
  · intro t ht hqualified
    -- to be qualified it would need an import
    obtain ⟨stmt, hstmt, -⟩ := hqualified (by rw [ht]; exact hsome) (by rw [ht]; exact hother)
    rw [himports] at hstmt
    exact List.not_mem_nil hstmt

end KclModels.Run

/-!
## Where imports lead

A file imports a package by its path, and the files of the package go to its directories. The path
has the segments of the package as they are; a directory is named by an identifier that is made of a
segment, and a segment that nothing can be made of has none. So an import leads to the files of the
package just if all segments of the package are identifiers.
-/

namespace KclModels

namespace Imports

variable {target package : String}

/-- The root that the path of a package leaves out, if it does. -/
def rootLeftOut (package target : String) : List String :=
  if importPath package target = package then []
  else (Text.cutFirst? '.' package).toList.map Prod.fst

/-- **Nothing of a package is lost** in its path but a root. -/
theorem segments_restored (package target : String) :
    rootLeftOut package target ++ Text.split '.' (importPath package target) =
      Text.split '.' package := by
  unfold rootLeftOut
  split
  · rename_i hsame
    rw [hsame, List.nil_append]
  · rename_i hother
    obtain hsame | ⟨root, rest, htarget, hpackage⟩ := importPath_cases package target
    · exact absurd hsame hother
    · have hroot := (Text.eq_of_cutFirst? htarget).2
      have hcut : Text.cutFirst? '.' package = some (root, importPath package target) := by
        conv_lhs => rw [hpackage]
        exact Text.cutFirst?_append hroot
      have hsplit : Text.split '.' package =
          Text.split '.' root ++ Text.split '.' (importPath package target) := by
        conv_lhs => rw [hpackage]
        exact Text.split_append root _
      rw [hcut, hsplit, Text.split_of_notMem hroot]
      rfl

end Imports

section

variable {tr : Text.Transliteration}

/-- **The directories of a package are its segments** just if these are identifiers. -/
theorem Kcl.directories_eq_split_iff (package : String) :
    Kcl.directories package = Text.split '.' package ↔
      ∀ segment ∈ Text.split '.' package, Naming.isIdentifier segment = true := by
  unfold Kcl.directories
  generalize Text.split '.' package = segments
  constructor
  · intro h
    -- no segment is left out, or there would be fewer directories
    have hlen : ((segments.map Naming.sanitize).filter (!·.isEmpty)).length =
        (segments.map Naming.sanitize).length := by rw [h, List.length_map]
    have hall := List.filter_sublist.eq_of_length hlen
    rw [hall] at h
    intro segment hmem
    have hsame : Naming.sanitize segment = segment :=
      List.map_inj_left.mp (h.trans (List.map_id segments).symm) segment hmem
    have hkept := List.filter_eq_self.mp hall _ (List.mem_map.mpr ⟨segment, hmem, rfl⟩)
    have hne : segment ≠ "" := by
      rintro rfl
      rw [hsame] at hkept
      exact absurd hkept (by decide)
    exact (Naming.sanitize_eq_self_iff hne).mp hsame
  · intro h
    have hne : ∀ segment ∈ segments, segment ≠ "" := by
      rintro _ hmem rfl
      exact absurd (h "" hmem) (by decide)
    have hmap : segments.map Naming.sanitize = segments := by
      refine (List.map_congr_left fun segment hmem => ?_).trans (List.map_id segments)
      exact (Naming.sanitize_eq_self_iff (hne segment hmem)).mpr (h segment hmem)
    rw [hmap, List.filter_eq_self]
    intro segment hmem
    simpa using hne segment hmem

end

theorem Options.packageOf_ne_empty {o : Options} (h : o.modelPackage ≠ "") (name : String) :
    o.packageOf name ≠ "" := by
  unfold Options.packageOf
  dsimp only
  rw [if_neg (by simpa using h)]
  split
  · exact h
  · intro hempty
    have hlist := congrArg String.toList hempty
    simp at hlist

namespace Run

open Imports

variable {r : Run} {files : List ModelFile} {stats : Statistics} {importer imported : ModelFile}

/-- The file is written with a type of the package: one that it spells, or that of a parent. -/
def UsesPackage (file : ModelFile) (package : String) : Prop :=
  ∃ m ∈ file.model :: file.extras, ∃ q a, m.at? q = some a ∧ a.type.package = package ∧
    (Kcl.Spells m q ∧ ¬ Kcl.InParent m q ∨
      ∃ index, m.parentBranch = some index ∧ q = [.branch index])

section

variable {tr : Text.Transliteration}

/-- A package that a file is written with is imported by its path. -/
theorem imported_of_usesPackage {name : String} {taken hoisted : List String}
    {warnings : List Warning} {package : String}
    (h : r.generateReserving name taken = .ok (importer, warnings, hoisted))
    (huses : UsesPackage importer package) (hsome : package ≠ "")
    (hother : package ≠ importer.package) : ∃ stmt ∈ importer.imports,
      stmt.path = importPath package importer.package ∧
      ∀ other ∈ importer.imports, other.path = stmt.path → other = stmt := by
  obtain ⟨f, s', i, -, hcollect, himports⟩ := generateReserving_collected h
  have hall := collected_spelledOut hcollect
  rw [← himports] at hall
  obtain ⟨m, hm, q, a, ha, rfl, hq⟩ := huses
  obtain ⟨k, rfl⟩ := List.mem_iff_get.mp hm
  have hspelled := hall.get (hall.length_eq.symm ▸ k.2) k.2
  -- the type was qualified when it was visited
  have hqualified : ∃ t, t.package = a.type.package ∧
      Qualified importer.package importer.imports t a.type := by
    rcases hq with ⟨hspells, hout⟩ | ⟨index, hparent, rfl⟩
    · obtain ⟨-, b, b', -, hb', hwritten⟩ := hspelled.spelled q hspells hout
      obtain rfl : b' = a := Option.some.inj (hb'.symm.trans ha)
      exact ⟨b.type, hwritten.package.symm, hwritten.qualified⟩
    · obtain ⟨-, b, b', -, hb', hwritten⟩ := hspelled.parent index hparent
      have hat := Model.at?_single (importer.model :: importer.extras)[k] (.branch index)
      obtain rfl : b' = a := Option.some.inj (hb'.symm.trans (hat.symm.trans ha))
      exact ⟨b.type, hwritten.package.symm, hwritten.qualified⟩
  obtain ⟨t, ht, hqualified⟩ := hqualified
  obtain ⟨stmt, hstmt, hpath, honly, -⟩ :=
    hqualified (by rw [ht]; exact hsome) (by rw [ht]; exact hother)
  exact ⟨stmt, hstmt, ht ▸ hpath, honly⟩

/--
**An import leads to the directories of the package** just if these are named as the package is.
Where a file of a run is written with a type of the package of another, it has one import for the
path of the package; split at the points, and with the root put back that the path leaves out, the
path names the directories of the other file exactly if all segments of the package are identifiers.
-/
theorem import_leads_iff (h : r.generate = .ok (files, stats))
    (hroot : r.options.modelPackage ≠ "") (himporter : importer ∈ files)
    (himported : imported ∈ files) (hother : imported.package ≠ importer.package)
    (huses : UsesPackage importer imported.package) : ∃ stmt ∈ importer.imports,
      stmt.path = importPath imported.package importer.package ∧
      (∀ other ∈ importer.imports, other.path = stmt.path → other = stmt) ∧
      (rootLeftOut imported.package importer.package ++ Text.split '.' stmt.path =
          (Kcl.outputPath imported).dropLast ↔
        ∀ segment ∈ Text.split '.' imported.package, Naming.isIdentifier segment = true) := by
  obtain ⟨names, -, hall⟩ := generate_generates h
  obtain ⟨name, -, taken, warnings, hoisted, hone⟩ := hall.exists_of_mem himporter
  obtain ⟨name', -, taken', warnings', hoisted', hone'⟩ := hall.exists_of_mem himported
  have hsome : imported.package ≠ "" := by
    rw [(generateReserving_fileOf hone').package]
    exact Options.packageOf_ne_empty hroot name'
  obtain ⟨stmt, hstmt, hpath, honly⟩ := imported_of_usesPackage hone huses hsome hother
  refine ⟨stmt, hstmt, hpath, honly, ?_⟩
  rw [hpath, segments_restored, Kcl.outputPath, List.dropLast_concat,
    ← Kcl.directories_eq_split_iff]
  exact eq_comm

end

/-- A property of the main model is spelled. -/
theorem usesPackage_of_property {file : ModelFile} {index : Nat} {a : Model}
    (h : ([.property index], a) ∈ Kcl.attributePlaces file.model) :
    UsesPackage file a.type.package := by
  refine ⟨file.model, List.mem_cons_self, [.property index], a, Kcl.attributePlaces_at h, rfl,
    Or.inl ⟨.declared h, ?_⟩⟩
  rintro ⟨branch, rest, -, heq⟩
  exact absurd (Model.Edge.child.inj (List.cons.inj heq).1).1 (by decide)

/-- A deployment that refers to definitions of two other packages, one with a hyphen. -/
def deployments : Run := ofDefinitions [
  ("core.v1.Pod", { types := ["object"], properties := [("image", .typed "string")] }),
  ("my-api.v1.Label", { types := ["object"], properties := [("text", .typed "string")] }),
  ("apps.Deployment", { types := ["object"], properties :=
    [("pod", .referenceTo "core.v1.Pod"), ("label", .referenceTo "my-api.v1.Label")] })]

/-- The file has a property, at this place, of this package. -/
def hasPropertyOf (file : ModelFile) (index : Nat) (package : String) : Bool :=
  (Kcl.attributePlaces file.model).any fun place =>
    place.1 == [.property index] && place.2.type.package == package

theorem usesPackage_of_hasPropertyOf {file : ModelFile} {index : Nat} {package : String}
    (h : hasPropertyOf file index package = true) : UsesPackage file package := by
  obtain ⟨⟨p, a⟩, hmem, hplace⟩ := List.any_eq_true.mp h
  rw [Bool.and_eq_true, beq_iff_eq, beq_iff_eq] at hplace
  obtain ⟨rfl, rfl⟩ := hplace
  exact usesPackage_of_property hmem

theorem deployment_leads_to_pod : ∃ files stats importer imported,
    deployments.generate = .ok (files, stats) ∧ deployments.options.modelPackage ≠ "" ∧
    importer ∈ files ∧ imported ∈ files ∧ imported.package ≠ importer.package ∧
    UsesPackage importer imported.package ∧ imported.package = "models.core.v1" ∧
    ∃ stmt ∈ importer.imports, stmt.path = importPath imported.package importer.package ∧
      (∀ other ∈ importer.imports, other.path = stmt.path → other = stmt) ∧
      (rootLeftOut imported.package importer.package ++ Text.split '.' stmt.path =
          (Kcl.outputPath imported).dropLast ↔
        ∀ segment ∈ Text.split '.' imported.package, Naming.isIdentifier segment = true) := by
  obtain ⟨⟨files, stats⟩, h, hfacts⟩ := exists_ok_of_any (e := deployments.generate)
    (p := fun generated =>
      generated.1[0]?.any (fun file => file.package == "models.apps" &&
        hasPropertyOf file 0 "models.core.v1") &&
      generated.1[1]?.any (fun file => file.package == "models.core.v1"))
    (by decide +kernel)
  simp only [Bool.and_eq_true, Option.any_eq_true, beq_iff_eq] at hfacts
  obtain ⟨⟨importer, himporter, hfrom, huses⟩, imported, himported, hto⟩ := hfacts
  have huses := usesPackage_of_hasPropertyOf huses
  rw [← hto] at huses
  have hother : imported.package ≠ importer.package := by
    rw [hfrom, hto]
    decide
  exact ⟨files, stats, importer, imported, h, by decide, List.mem_of_getElem? himporter,
    List.mem_of_getElem? himported, hother, huses, hto,
    import_leads_iff h (by decide) (List.mem_of_getElem? himporter)
      (List.mem_of_getElem? himported) hother huses⟩

/-- The import of a package with a hyphen leads to no directory of a file. -/
theorem deployment_misses_label : ∃ files stats importer imported stmt,
    deployments.generate = .ok (files, stats) ∧ deployments.options.modelPackage ≠ "" ∧
    importer ∈ files ∧ imported ∈ files ∧ imported.package ≠ importer.package ∧
    UsesPackage importer imported.package ∧ stmt ∈ importer.imports ∧
    stmt.path = importPath imported.package importer.package ∧
    rootLeftOut imported.package importer.package ++ Text.split '.' stmt.path =
      ["models", "my-api", "v1"] ∧
    Kcl.outputPath imported = ["models", "my_api", "v1", "label.k"] := by
  obtain ⟨⟨files, stats⟩, h, hfacts⟩ := exists_ok_of_any (e := deployments.generate)
    (p := fun generated =>
      generated.1[0]?.any (fun file => file.package == "models.apps" &&
        hasPropertyOf file 1 "models.my-api.v1" &&
        file.imports[1]?.any (fun stmt => stmt.path == "my-api.v1")) &&
      generated.1[2]?.any (fun file => file.package == "models.my-api.v1" &&
        Kcl.outputPath file == ["models", "my_api", "v1", "label.k"]))
    (by decide +kernel)
  simp only [Bool.and_eq_true, Option.any_eq_true, beq_iff_eq] at hfacts
  obtain ⟨⟨importer, himporter, ⟨hfrom, huses⟩, stmt, hstmt, hpath⟩, imported, himported, hto,
    houtput⟩ := hfacts
  refine ⟨files, stats, importer, imported, stmt, h, by decide, List.mem_of_getElem? himporter,
    List.mem_of_getElem? himported, ?_, ?_, List.mem_of_getElem? hstmt, ?_, ?_, houtput⟩
  · rw [hfrom, hto]
    decide
  · rw [hto]
    exact usesPackage_of_hasPropertyOf huses
  · -- the path keeps the hyphen that the directory has no longer
    rw [hpath, hfrom, hto]
    decide +kernel
  · rw [hpath, hfrom, hto]
    decide +kernel

end Run

end KclModels
