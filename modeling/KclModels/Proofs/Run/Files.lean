import KclModels.Proofs.Build.Extracts
import KclModels.Proofs.Build.Persisting
import KclModels.Proofs.Run.TypeNames

/-!
# The files of a run, one after the other

A run generates its definitions in order, and each may not use the names that were given out before:
the files are related to the definitions by `Generates`. `FileOf` says what is known of one file by
itself, whatever the document says. What a whole run keeps follows from these two by induction over
the files.
-/

namespace KclModels

/-! ## Names that were given out -/

namespace Registry

/-- All names that were given out are words put together, perhaps with a number. -/
def Capitals (r : Registry) : Prop := ∀ n ∈ r.hoisted, Naming.Capital n

theorem capital_hoistBase [Text.Transliteration] (f : Frame) (base : String) :
    Naming.Capital (Build.hoistBase f base) := by
  unfold Build.hoistBase
  dsimp only
  split <;> exact Naming.pascalize_capital _

/-- **The names given out to definitions made in frames are capital.** -/
theorem capitals_kept [Text.Transliteration] : KeptByHoists Capitals := by
  intro r f base c hr n hn
  rw [hoisted_hoist] at hn
  rcases List.mem_append.mp hn with hn | hn
  · exact hr n hn
  · obtain rfl := List.mem_singleton.mp hn
    exact Naming.freshFrom_capital (capital_hoistBase f base) _ _

theorem contains_reserve {r : Registry} {names : List String} {n : String} :
    (r.reserve names).contains n = true ↔ r.contains n = true ∨ n ∈ names := by
  rw [contains_iff, contains_iff, reserve, Assoc.mem_insertNames, or_assoc]
  rfl

end Registry

namespace Run

variable {tr : Text.Transliteration}
variable {r : Run} {name : String} {taken names hoisted : List String} {file : ModelFile}
variable {files : List ModelFile} {warnings : List Warning} {stats stats' : Statistics}

/-! ## One file -/

/-- What is known of the file of a definition that was generated without the names in `taken`. -/
structure FileOf (r : Run) (name : String) (taken : List String) (file : ModelFile)
    (hoisted : List String) : Prop where
  package : file.package = r.options.packageOf name
  title : file.model.name = name
  documentName : file.model.documentName = name
  declared : ∃ c, r.definitions.lookup name = some c ∧
    file.model.declaredName = c.declaredName name
  /-- Each model beside that of the definition is declared under a name that was given out. -/
  extras : ∀ e ∈ file.extras, e.name ∈ hoisted ∧ e.declaredName = e.name
  nodup : (file.extras.map (·.name)).Nodup
  /-- A name that was given out is none of the document or of those kept. -/
  fresh : ∀ n ∈ hoisted, n ∉ taken ∧ r.definitions.lookup n = none ∧ Naming.Capital n

theorem collectRendered_documentName (target : String) (m : Model) (i : Imports) :
    (Imports.collectRendered target m i).1.documentName = m.documentName := by
  obtain ⟨facts, items, extraItems, properties, allOf, value⟩ := m
  simp only [Imports.collectRendered, Imports.collect]

/-- **What a file is made of**, whatever the document says. -/
theorem generateReserving_fileOf
    (h : r.generateReserving name taken = .ok (file, warnings, hoisted)) :
    r.FileOf name taken file hoisted := by
  obtain ⟨s', hbuild, rfl⟩ := generateReserving_ok h
  obtain ⟨f, s₁, hf, hreg, hfile⟩ := Build.file_cases hbuild
  obtain ⟨c, -, -, -, -, hget, -⟩ := Build.fileFrame_cases hf
  obtain ⟨hgrows, hextracts, hcapitals, hname⟩ :=
    fileFrame_extracts Registry.capitals_kept (fun n hn => absurd hn List.not_mem_nil) hf
  have hmain := Build.assemble_rendered r.setting name s₁.registry f
  -- an extra schema is kept under its own name
  have hkeys : f.extras.map (·.2.name) = Assoc.keys f.extras :=
    List.map_congr_left fun e he => (hextracts.made e.1 e.2 he).2.1
  subst hfile
  refine ⟨rfl, hmain.name.trans hname, ?_, ⟨c, hget, hmain.declaredName.trans ?_⟩, fun e he => ?_,
    ?_, fun n hn => ?_⟩
  · rw [(Build.assemble_facts r.setting name s₁.registry f).1, collectRendered_documentName]
    exact fileFrame_entitled hf
  · exact Resolver.modelTypeName_eq rfl (hgrows.keeps name c hget)
  · obtain ⟨x, e₁, j, hx, rfl⟩ := Build.mem_assemble_extras he
    have hrendered := Imports.collectRendered_rendered (r.setting.options.packageOf name) e₁ j
    obtain ⟨hhoisted, hxname, hxdeclared⟩ := hextracts.made x e₁ hx
    rw [hrendered.name, hrendered.declaredName, hxname, hxdeclared, hreg]
    exact ⟨hhoisted, rfl⟩
  · rw [Build.assemble_extras_names, hkeys]
    exact hextracts.sorted.nodup
  · rw [hreg] at hn
    rcases hgrows.made n hn with hn' | ⟨hfree, -⟩
    · exact absurd hn' List.not_mem_nil
    · refine ⟨fun hmem => ?_, Registry.get?_eq_none_of_free hfree, hcapitals n hn⟩
      -- a name that is taken is reserved from the start, and what is made is free
      have hused : (r.session taken).registry.contains n = true :=
        Registry.contains_reserve.mpr (Or.inr hmem)
      rw [hfree] at hused
      exact absurd hused (by decide)

/-! ## All files -/

/-- The files that are written are those that were generated. -/
theorem render_ok {sources : List Kcl.SourceFile} (h : r.render = .ok (sources, stats)) :
    ∃ files, r.generate = .ok (files, stats) ∧ sources = files.map Kcl.render := by
  obtain ⟨⟨files, stats⟩, hgenerate, hpair⟩ := map_eq_ok.mp h
  obtain ⟨rfl, rfl⟩ := Prod.mk.inj hpair
  exact ⟨files, hgenerate, rfl⟩

theorem render_of_generate (h : r.generate = .ok (files, stats)) :
    r.render = .ok (files.map Kcl.render, stats) := by
  rw [render, h, Except.map]

/-- The files are those of the definitions, in order. -/
theorem Generates.forall₂ (h : r.Generates taken names files) :
    List.Forall₂ (fun name file => ∃ taken hoisted, r.FileOf name taken file hoisted) names
      files := by
  induction h with
  | nil => exact .nil
  | cons hone _ ih => exact .cons ⟨_, _, generateReserving_fileOf hone⟩ ih

/-- The files have the names of the definitions. -/
theorem Generates.map_name (h : r.Generates taken names files) :
    files.map (·.model.name) = names := by
  induction h with
  | nil => rfl
  | cons hone _ ih => rw [List.map_cons, ih, (generateReserving_fileOf hone).title]

end Run

end KclModels
