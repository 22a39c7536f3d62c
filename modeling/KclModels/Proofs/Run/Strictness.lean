import KclModels.Proofs.Build.Strictness
import KclModels.Proofs.Kcl.Strictness
import KclModels.Proofs.Run.Accounted
import KclModels.Text.AsciiTable

/-!
# Runs with another choice for closed objects

The option that closes the schemas for objects that deny additional properties does nothing else: a
definition fails alike without it and with it, or comes to the same warnings, to models that differ
in the choice only, and to files that differ in the lines that say that anything may be in the
objects of such a schema. Where that line is all that stands after the documentation, the file loses
the empty line before it as well.
-/

namespace KclModels

namespace Run

variable (strict : Bool)

/-- The run with a choice for objects that deny additional properties. -/
def withStrict (r : Run) : Run := { r with options := r.options.withStrict strict }

section

variable {tr : Text.Transliteration}

/-- Documents are made ready whatever the choice. -/
theorem prepare_withStrict (document : Swagger) (options : Options) :
    prepare document (options.withStrict strict) =
      (prepare document options).map (withStrict strict) := by
  unfold prepare
  cases (canonicalize document.definitions).mapError RunError.notCanonical <;> rfl

theorem buildFile_withStrict (r : Run) (name : String) (taken : List String) :
    (r.withStrict strict).buildFile name taken =
      ((r.buildFile name taken).1.map (ModelFile.withStrict strict),
        (r.buildFile name taken).2) := by
  have hfile : Build.file (r.setting.withStrict strict) name =
      ModelFile.withStrict strict <$> Build.file r.setting name := Build.along_file name
  have hsetting : (r.withStrict strict).setting = r.setting.withStrict strict := rfl
  have hsession : (r.withStrict strict).session taken = r.session taken := rfl
  rw [buildFile, buildFile, hsetting, hsession, hfile, ExceptT.run_map]
  rfl

/-- Definitions are generated alike. -/
theorem generateReserving_withStrict (r : Run) (name : String) (taken : List String) :
    (r.withStrict strict).generateReserving name taken =
      (r.generateReserving name taken).map fun (f, warnings, hoisted) =>
        (f.withStrict strict, warnings, hoisted) := by
  have hwarning : ∀ f : ModelFile, nameWarning name (f.withStrict strict) = nameWarning name f := by
    intro f
    have hname : (f.model.withStrict strict).declaredName = f.model.declaredName := by
      rw [Model.withStrict_toModelFacts]
    rw [nameWarning, nameWarning, ← hname]
    rfl
  rw [generateReserving, generateReserving, buildFile_withStrict]
  cases r.buildFile name taken with
  | mk result session =>
    cases result with
    | error e => rfl
    | ok f =>
      dsimp only [Except.map]
      rw [hwarning]

theorem generateDefinition_withStrict (r : Run) (name : String) :
    (r.withStrict strict).generateDefinition name =
      (r.generateDefinition name).map fun (f, warnings) => (f.withStrict strict, warnings) := by
  rw [generateDefinition, generateDefinition, generateReserving_withStrict]
  cases r.generateReserving name [] <;> rfl

/--
**Main statement.** With one choice and with the other, a document is refused for the same reason or
made ready, and then a definition is refused for the same reason or comes to the same warnings, to
models that differ in the choice only, and to the files of those models: these go to the same path
and differ in the lines that say that anything may be in the objects of a schema.
-/
theorem strictness_only_closes (document : Swagger) (options : Options) (name : String) :
    (∃ e, prepare document (options.withStrict false) = .error e ∧
      prepare document (options.withStrict true) = .error e) ∨
    ∃ r r', prepare document (options.withStrict false) = .ok r ∧
      prepare document (options.withStrict true) = .ok r' ∧
      ((∃ e, r.generateDefinition name = .error e ∧ r'.generateDefinition name = .error e) ∨
        ∃ f warnings,
          r.generateDefinition name = .ok (f.withStrict false, warnings) ∧
          r'.generateDefinition name = .ok (f.withStrict true, warnings) ∧
          Kcl.OpensFile f (Kcl.render (f.withStrict false)) (Kcl.render (f.withStrict true))) := by
  rw [prepare_withStrict, prepare_withStrict]
  cases prepare document options with
  | error e => exact Or.inl ⟨e, rfl, rfl⟩
  | ok r =>
    refine Or.inr ⟨_, _, rfl, rfl, ?_⟩
    rw [generateDefinition_withStrict, generateDefinition_withStrict]
    cases r.generateDefinition name with
    | error e => exact Or.inl ⟨e, rfl, rfl⟩
    | ok generated => exact Or.inr ⟨generated.1, generated.2, rfl, rfl, Kcl.render_opens _⟩

end

/-- A lock, of which nothing is said but that it denies additional properties. -/
def lock : Swagger where
  definitions := [("Lock", { types := ["object"], additionalProperties := some (.flag false) })]

/-- The file of a lock loses more than the line that says that anything may be in a lock. -/
theorem lock_loses_empty_line : ∃ (r r' : Run) (f : ModelFile),
    prepare lock (({} : Options).withStrict false) = .ok r ∧
    prepare lock (({} : Options).withStrict true) = .ok r' ∧
    r.generateDefinition "Lock" = .ok (f.withStrict false, []) ∧
    r'.generateDefinition "Lock" = .ok (f.withStrict true, []) ∧
    f.extras = [] ∧ Kcl.closes f.model = true ∧
    ¬∃ before after,
      (Kcl.render (f.withStrict false)).content = before ++ Kcl.openLine ++ after ∧
      (Kcl.render (f.withStrict true)).content = before ++ after := by
  obtain ⟨r, hr, hgenerated⟩ := exists_ok_of_any (e := prepare lock {})
    (p := fun r => (r.generateDefinition "Lock").toOption.any fun generated =>
      generated.2.isEmpty && generated.1.extras.isEmpty && Kcl.closes generated.1.model &&
        Kcl.isBare generated.1.model) (by decide +kernel)
  obtain ⟨⟨f, warnings⟩, hf, hbare⟩ := exists_ok_of_any hgenerated
  simp only [Bool.and_eq_true, List.isEmpty_iff] at hbare
  obtain ⟨⟨⟨rfl, hextras⟩, hcloses⟩, hbare⟩ := hbare
  have hlength := (Kcl.render_opens f).length_of_bare hcloses hbare hextras
  have hprepare : ∀ strict, prepare lock (({} : Options).withStrict strict) =
      .ok (r.withStrict strict) := by
    intro strict
    rw [prepare_withStrict, hr]
    rfl
  have hgenerate : ∀ strict, (r.withStrict strict).generateDefinition "Lock" =
      .ok (f.withStrict strict, []) := by
    intro strict
    rw [generateDefinition_withStrict, hf]
    rfl
  refine ⟨_, _, f, hprepare false, hprepare true, hgenerate false, hgenerate true, hextras,
    hcloses, ?_⟩
  rintro ⟨before, after, htext, htext'⟩
  -- taking out one line would account for the length, and it does not
  rw [htext, htext', String.length_append, String.length_append, String.length_append] at hlength
  omega

end Run

end KclModels
