import KclModels.Proofs.Build.FileMirroring
import KclModels.Proofs.Canonical.Settling
import KclModels.Proofs.Run.Paths
import KclModels.Text.AsciiTable

/-!
# Definitions that fail on their own

Definitions are generated one after the other, and names that one of them gave to schemas are not
given out again. The others then use other names, but they do not fail for it, nor are they spared:
a definition that cannot be generated in a run cannot be generated by itself, and the other way
round. The errors are the same as well, with one exception. A definition that was made on the way
may be built once more for its properties, as if it were one of the document. The path of an error
in it starts at its name, and that name depends on what the rest of the run has used up.
-/

namespace KclModels.Run

variable {document : Swagger} {options : Options} {r : Run} {name : String} {names : List String}
variable {docs : List String}

section

variable {tr : Text.Transliteration}

/-- A run that is made ready mirrors itself, whatever names are used up. -/
theorem session_mirrors (h : prepare document options = .ok r) (taken taken' : List String) :
    (r.session taken).registry.Mirrors (Assoc.keys r.definitions) id
      (r.session taken').registry := by
  obtain ⟨hcanonical, -⟩ := prepare_ok h
  obtain ⟨-, -, -, -, -, hcheck⟩ := Canonical.canonicalize_ok hcanonical
  refine ⟨?_, fun _ _ _ _ h => h, fun n hn => ⟨hn, rfl⟩, fun _ _ h => h,
    fun _ he => Canonical.canonicalize_known hcanonical he, Definitions.loopFree_of_checkLoops hcheck⟩
  simp only [Schema.rename_id]
  exact (List.map_id _).symm

/-- By itself and with names used up a definition is generated, or fails alike. -/
theorem generateReserving_coincide (h : prepare document options = .ok r) (name : String)
    (taken : List String) :
    Coincide (GenerationError.Displaced (Assoc.keys r.definitions)) (fun _ _ => True)
      (r.generateDefinition name) (r.generateReserving name taken) := by
  -- both runs know the same definitions, and differ in the names that are reserved
  let W : World (Assoc.keys r.definitions) :=
    ⟨r.session [], r.session taken, id, session_mirrors h [] taken⟩
  have hget : Option.Rel (Schema.Matches W) (W.left.registry.get? name)
      (W.right.registry.get? name) := by
    show Option.Rel (Schema.Matches W) (r.definitions.lookup name) (r.definitions.lookup name)
    cases hc : r.definitions.lookup name with
    | none => exact .none
    | some c => exact .some ⟨c.rename_id.symm, W.mirrors.known_of_get? hc⟩
  unfold generateDefinition generateReserving buildFile
  have hfile : Build.Mirrored W (Build.file r.setting name) (Build.file r.setting name) _ _ :=
    Build.mirrored_file hget
  cases hfile with
  | ok hm hm' _ =>
    rw [hm, hm']
    exact .ok trivial
  | error hm hm' he =>
    obtain ⟨t, ht⟩ := hm
    obtain ⟨t', ht'⟩ := hm'
    rw [ht, ht']
    exact .error he

/-- A run ends well if all definitions can be generated, else with the first that cannot. -/
theorem generateAll_ends
    (h : ∀ name taken, Coincide (GenerationError.Displaced docs) (fun _ _ => True)
      (r.generateDefinition name) (r.generateReserving name taken)) (names : List String) :
    ∀ taken stats,
      ((∃ result, r.generateAll taken stats names = .ok result) ∧
        ∀ name ∈ names, ∃ result, r.generateDefinition name = .ok result) ∨
      ∃ before name after e e', names = before ++ name :: after ∧
        (∀ other ∈ before, ∃ result, r.generateDefinition other = .ok result) ∧
        r.generateDefinition name = .error e ∧ e.Displaced docs e' ∧
        r.generateAll taken stats names = .error (.notGenerated name e') := by
  induction names with
  | nil => exact fun _ _ => Or.inl ⟨⟨_, rfl⟩, fun _ h => absurd h List.not_mem_nil⟩
  | cons name rest ih =>
    intro taken stats
    have hname := h name taken
    unfold generateAll
    generalize hd : r.generateDefinition name = x, r.generateReserving name taken = y at hname
    cases hname with
    | error he => exact Or.inr ⟨[], name, rest, _, _, rfl,
        fun _ hother => absurd hother List.not_mem_nil, hd, he, rfl⟩
    | @ok a b _ =>
      obtain ⟨f, warnings, hoisted⟩ := b
      have hrest := ih (taken ++ hoisted) ((stats.addFile f).addWarnings warnings)
      simp only [Except.mapError, bind, Except.bind]
      rcases hrest with ⟨⟨result, hresult⟩, hall⟩ |
        ⟨before, other, after, e, e', rfl, hbefore, hother, he, hresult⟩
      · rw [hresult]
        -- this one ends well, and what it made is taken for the rest
        exact Or.inl ⟨⟨_, rfl⟩, List.forall_mem_cons.mpr ⟨⟨a, hd⟩, hall⟩⟩
      · rw [hresult]
        exact Or.inr ⟨name :: before, other, after, e, e', rfl,
          List.forall_mem_cons.mpr ⟨⟨a, hd⟩, hbefore⟩, hother, he, rfl⟩

/--
**A definition fails for itself.** Whatever names are used up, it is generated just if it is by
itself, and else the errors differ at most in a name that the document does not have, at the start
of a path. So a run ends well just if each of its definitions can be generated by itself, and
otherwise with the error of the least that cannot.
-/
theorem failure_isolated (h : prepare document options = .ok r) :
    (∀ name taken, Coincide (GenerationError.Displaced (Assoc.keys r.definitions)) (fun _ _ => True)
      (r.generateDefinition name) (r.generateReserving name taken)) ∧
    ∀ names, r.definitionNames = .ok names →
      ((∃ result, r.generate = .ok result) ↔
        ∀ name ∈ names, ∃ result, r.generateDefinition name = .ok result) ∧
      ∀ error, r.generate = .error error → ∃ name ∈ names, ∃ e e',
        r.generateDefinition name = .error e ∧
        (∀ other ∈ names, other < name → ∃ result, r.generateDefinition other = .ok result) ∧
        e.Displaced (Assoc.keys r.definitions) e' ∧ error = .notGenerated name e' := by
  have hall := generateReserving_coincide h
  refine ⟨hall, fun names hnames => ?_⟩
  have hsorted := definitionNames_sorted hnames
  have hgenerate : r.generate =
      r.generateAll [] (r.dependencies.cycles.foldl Statistics.addCycle {}) names := by
    rw [generate, hnames]
    rfl
  rw [hgenerate]
  rcases generateAll_ends hall names [] (r.dependencies.cycles.foldl Statistics.addCycle {}) with
    ⟨hok, hgenerated⟩ | ⟨before, name, after, e, e', rfl, hbefore, hname, he, hresult⟩
  · refine ⟨iff_of_true hok hgenerated, fun error herror => ?_⟩
    obtain ⟨result, hresult⟩ := hok
    rw [hresult] at herror
    exact absurd herror (by simp)
  · have hmem : name ∈ before ++ name :: after :=
      List.mem_append_right _ List.mem_cons_self
    rw [hresult]
    refine ⟨iff_of_false (by simp) fun hgenerated => ?_, fun error herror => ?_⟩
    · obtain ⟨result, hok⟩ := hgenerated name hmem
      rw [hname] at hok
      exact absurd hok (by simp)
    · refine ⟨name, hmem, e, e', hname, fun other hother hlt => ?_, he,
        (Except.error.inj herror).symm⟩
      rcases List.mem_append.mp hother with hother | hother
      · exact hbefore other hother
      · -- what comes after the name is greater
        have hle : name ≤ other := by
          rcases List.mem_cons.mp hother with rfl | hafter
          · exact le_refl _
          · have htail := (List.pairwise_append.mp hsorted).2.1
            exact le_of_lt (List.rel_of_pairwise_cons htail hafter)
        exact absurd hlt (not_lt.mpr hle)

end

/-- A pet with a tag that is a date for its type and an object for its properties. -/
def tagged : Swagger where
  definitions := [
    ("Animal", { types := ["object"], properties := [("name", .typed "string")] }),
    ("Pet", { types := ["object"], properties := [("aO1P1",
      { types := ["object"], properties := [("text", .typed "string")] })] }),
    ("pet", { allOf := [.referenceTo "Animal", { Schema.referenceTo "tag" with
      additionalProperties := some (.schema (.typed "string")) }] }),
    ("tag", { types := ["object"], format := some "date"
              properties := [("size", { types := ["string", "boolean"] })] })]

/-- The size has no type, at a path that starts at the name `n`. -/
def sizeless (n : String) : GenerationError :=
  .type (.unsupported (rootOf n) ["string", "boolean"] none)

/-- No names that are used up let the pet be generated. -/
theorem tagged_fails : ∃ r, prepare tagged {} = .ok r ∧
    r.generateDefinition "pet" = .error (sizeless "PetAO1P1") ∧
    ∀ taken, ∃ e, r.generateReserving "pet" taken = .error e := by
  obtain ⟨r, h, hfails⟩ := exists_ok_of_any (e := prepare tagged {})
    (p := fun r => errorOf? (r.generateDefinition "pet") == some (sizeless "PetAO1P1"))
    (by decide +kernel)
  have hname := eq_error_of_errorOf? (beq_iff_eq.mp hfails)
  refine ⟨r, h, hname, fun taken => ?_⟩
  have hsame := (failure_isolated h).1 "pet" taken
  rw [hname] at hsame
  generalize r.generateReserving "pet" taken = result at hsame
  cases hsame with
  | error _ => exact ⟨_, rfl⟩

/--
The definition that is made of a branch of the pet takes the name `PetAO1P1`, unless a property of
another definition took it before: the run fails with another error than the pet by itself.
-/
theorem tagged_moves : ∃ r, prepare tagged {} = .ok r ∧
    r.generateDefinition "pet" = .error (sizeless "PetAO1P1") ∧
    r.generateReserving "pet" ["PetAO1P1"] = .error (sizeless "PetAO1P11") ∧
    errorOf? r.generate = some (.notGenerated "pet" (sizeless "PetAO1P11")) ∧
    sizeless "PetAO1P11" ≠ sizeless "PetAO1P1" := by
  obtain ⟨r, h, hfails⟩ := exists_ok_of_any (e := prepare tagged {})
    (p := fun r => errorOf? (r.generateDefinition "pet") == some (sizeless "PetAO1P1") &&
      errorOf? (r.generateReserving "pet" ["PetAO1P1"]) == some (sizeless "PetAO1P11") &&
      errorOf? r.generate == some (.notGenerated "pet" (sizeless "PetAO1P11")))
    (by decide +kernel)
  simp only [Bool.and_eq_true, beq_iff_eq] at hfails
  obtain ⟨⟨halone, hreserving⟩, hgenerate⟩ := hfails
  exact ⟨r, h, eq_error_of_errorOf? halone, eq_error_of_errorOf? hreserving, hgenerate,
    by decide⟩

end KclModels.Run
