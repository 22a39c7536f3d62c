import KclModels.Proofs.Build.Cases
import KclModels.Proofs.Imports.Collecting

/-!
# What each step to a file does

The steps after a definition is built: the full models of bases are put in place of branches, then
the properties of branches that are references are declared with the definition itself. As for the
steps of building there is one lemma for each.
-/

namespace KclModels

variable {tr : Text.Transliteration}

namespace Build

variable {setting : Setting} {s s' : Session} {f f' : Frame} {container : String}

/-! ## Bases in place of branches -/

theorem baseOfBranch_cases {branch : Schema} {base : Option (String × String × Schema)}
    (h : (baseOfBranch branch).Gives s base s') :
    s' = s ∧ (base = none → ∀ reference, branch.reference = some reference →
        ∃ target, s.registry.resolve reference = .ok target ∧
          (target.discriminator.isSome = true → Reference.name? reference = none)) ∧
      ∀ reference name target, base = some (reference, name, target) →
        branch.reference = some reference ∧ Reference.name? reference = some name ∧
          s.registry.resolve reference = .ok target ∧ target.discriminator.isSome = true := by
  unfold baseOfBranch at h
  split at h
  · rename_i hnone
    rw [gives_pure] at h
    obtain ⟨rfl, rfl⟩ := h
    exact ⟨rfl, fun _ _ href => absurd (hnone.symm.trans href) (by simp),
      fun _ _ _ hb => by simp at hb⟩
  · rename_i reference href
    simp only [gives_bind, gives_registry, gives_ofReference] at h
    obtain ⟨_, _, ⟨rfl, rfl⟩, target, _, ⟨ht, rfl⟩, h⟩ := h
    split at h
    · -- what it leads to is no base
      rename_i hd
      rw [gives_pure] at h
      obtain ⟨rfl, rfl⟩ := h
      rw [Option.isNone_iff_eq_none] at hd
      refine ⟨rfl, fun _ reference' href' => ?_, fun _ _ _ hb => by simp at hb⟩
      obtain rfl := Option.some.inj (href.symm.trans href')
      exact ⟨target, ht, fun hsome => absurd hsome (by simp [hd])⟩
    · rename_i hd
      rw [gives_pure] at h
      obtain ⟨rfl, rfl⟩ := h
      refine ⟨rfl, fun hnone reference' href' => ?_, fun reference' name' target' hb => ?_⟩
      · obtain rfl := Option.some.inj (href.symm.trans href')
        exact ⟨target, ht, fun _ => Option.map_eq_none_iff.mp hnone⟩
      · obtain ⟨n, hn, heq⟩ := Option.map_eq_some_iff.mp hb
        obtain ⟨rfl, rfl, rfl⟩ := by simpa using heq
        exact ⟨href, hn, ht, Option.isSome_iff_ne_none.mpr (by simpa using hd)⟩

/-- The model of a base, marked, that stands for a branch. -/
def expanded (setting : Setting) (reference name : String) (built : Model) : Model :=
  (match setting.polymorphism.bases.lookup reference with
    | some base => built.markBase name base
    | none => built).asBaseBranch name

theorem expandBranches_cons_cases {index : Nat} {allOf : List Model} {branch : Schema}
    {rest : List Schema} {result : List Model × List String}
    (h : (expandBranches setting container index allOf (branch :: rest)).Gives s result s') :
    ((∀ reference, branch.reference = some reference →
        ∃ target, s.registry.resolve reference = .ok target ∧
          (target.discriminator.isSome = true → Reference.name? reference = none)) ∧
      (expandBranches setting container (index + 1) allOf rest).Gives s result s') ∨
    ∃ reference name target built s₁ names,
      branch.reference = some reference ∧ Reference.name? reference = some name ∧
      s.registry.resolve reference = .ok target ∧ target.discriminator.isSome = true ∧
      (definition setting name target container).Gives s built s₁ ∧
      (expandBranches setting container (index + 1)
        (allOf.set index (expanded setting reference name built.model)) rest).Gives s₁
        (result.1, names) s' ∧
      result.2 = (expanded setting reference name built.model).properties.map (·.name) ++ names := by
  unfold expandBranches at h
  rw [gives_bind] at h
  obtain ⟨base, t, hbase, h⟩ := h
  obtain ⟨rfl, hnone, hbase⟩ := baseOfBranch_cases hbase
  cases base with
  | none => exact Or.inl ⟨hnone rfl, h⟩
  | some base =>
    obtain ⟨reference, name, target⟩ := base
    obtain ⟨href, hname, htarget, hdisc⟩ := hbase reference name target rfl
    simp only [gives_bind, gives_pure] at h
    obtain ⟨built, s₁, hb, ⟨branches, names⟩, _, hrest, rfl, rfl⟩ := h
    exact Or.inr ⟨reference, name, target, built, s₁, names, href, hname, htarget, hdisc, hb,
      hrest, rfl⟩

/-- The model of a subtype, with the branches of its composition given. -/
def subtypeModel (m : Model) (subtype : Subtype) (allOf : List Model) : Model :=
  { m with
    discriminatorField := some subtype.fieldName
    discriminatorValue := some subtype.fieldValue
    isSubtype := true
    allOf }

theorem expandSubtype_cases {m m' : Model} {c : Schema} {subtype : Subtype}
    (h : (expandSubtype setting m c subtype).Gives s m' s') :
    ∃ allOf names, (expandBranches setting m.name 0 m.allOf c.allOf).Gives s (allOf, names) s' ∧
      m' = subtypeModel m subtype (Model.dedupBranches names [] allOf) := by
  simp only [expandSubtype, gives_bind, gives_pure] at h
  obtain ⟨⟨allOf, names⟩, _, he, rfl, rfl⟩ := h
  exact ⟨allOf, names, he, rfl⟩

/-! ## Properties of other branches -/

/-- A frame that declares the properties of what its branch number `index` refers to. -/
def inlined (f : Frame) (index : Nat) (branch : Model) (built : Frame) : Frame where
  toPlace := f.toPlace
  schema := f.schema
  dependencies := f.dependencies ++ built.dependencies
  extras := Assoc.mergeSorted f.extras built.extras
  model := { f.model with allOf := f.model.allOf.set index { branch with
    properties := built.model.properties ++ built.model.allOf.flatMap (·.properties) } }

theorem inlineBranches_cons_cases {parent : Option Nat} {index : Nat} {branch : Model}
    {rest : List Model}
    (h : (inlineBranches setting parent f index (branch :: rest)).Gives s f' s') :
    ((needsInlining parent index branch = false ∨ branch.reference = none) ∧
      (inlineBranches setting parent f (index + 1) rest).Gives s f' s') ∨
    ∃ name target built s₁, needsInlining parent index branch = true ∧
      branch.reference = some name ∧
      s.registry.resolve (Reference.toDefinition name) = .ok target ∧
      (definition setting name target f.model.name).Gives s built s₁ ∧
      (inlineBranches setting parent (inlined f index branch built) (index + 1) rest).Gives
        s₁ f' s' := by
  unfold inlineBranches at h
  split at h
  · rename_i hnone
    refine Or.inl ⟨?_, h⟩
    -- nothing is built for a branch that refers to nothing or needs nothing
    split at hnone
    · exact Or.inr hnone
    · rename_i hneeds
      exact Or.inl (by simpa using hneeds)
  · rename_i name hname
    split at hname
    · rename_i hneeds
      simp only [gives_bind, gives_registry, gives_ofReference] at h
      obtain ⟨_, _, ⟨rfl, rfl⟩, target, _, ⟨ht, rfl⟩, built, s₁, hb, h⟩ := h
      exact Or.inr ⟨name, target, built, s₁, hneeds, hname, ht, hb, h⟩
    · simp at hname

/-! ## Files -/

/-- The frame of a definition that may be a base, marked as one if it is. -/
def asBase (setting : Setting) (name : String) (f : Frame) : Frame :=
  match setting.polymorphism.bases.lookup (Reference.toDefinition name) with
  | some base => f.mapModel (·.markBase name base)
  | none => f

/--
A file is built of its definition, then bases are put in place of branches if it is a subtype, then
the properties of branches are declared.
-/
theorem fileFrame_steps {name : String} (h : (fileFrame setting name).Gives s f' s') :
    ∃ c built s₁ s₂ m, s.registry.get? name = some c ∧
      (definition setting name c name).Gives s built s₁ ∧
      ((setting.polymorphism.subtypes.lookup (Reference.toDefinition name) = none ∧
          m = (asBase setting name built).model ∧ s₂ = s₁) ∨
        ∃ subtype, setting.polymorphism.subtypes.lookup (Reference.toDefinition name) = some subtype ∧
          (expandSubtype setting (asBase setting name built).model c subtype).Gives s₁ m s₂) ∧
      (inlineBranches setting m.parentBranch { asBase setting name built with model := m } 0
        m.allOf).Gives s₂ f' s' := by
  simp only [fileFrame, gives_bind, gives_registry] at h
  obtain ⟨_, _, ⟨rfl, rfl⟩, h⟩ := h
  split at h
  · rw [gives_throw] at h
    exact h.elim
  · rename_i c hc
    rw [gives_bind] at h
    obtain ⟨built, s₁, hb, h⟩ := h
    split at h
    · rename_i subtype hsub
      simp only [gives_bind, gives_pure] at h
      obtain ⟨m, s₂, hm, _, _, ⟨rfl, rfl⟩, h⟩ := h
      exact ⟨c, built, s₁, s₂, m, hc, hb, .inr ⟨subtype, hsub, hm⟩, h⟩
    · rename_i hsub
      simp only [gives_bind, gives_pure] at h
      obtain ⟨_, _, ⟨rfl, rfl⟩, h⟩ := h
      exact ⟨c, built, s₁, s₁, (asBase setting name built).model, hc, hb, .inl ⟨hsub, rfl, rfl⟩, h⟩

theorem fileFrame_cases {name : String} (h : (fileFrame setting name).Gives s f' s') :
    ∃ c built s₁ s₂ m, s.registry.get? name = some c ∧
      (definition setting name c name).Gives s built s₁ ∧
      ((setting.polymorphism.isSubtype (Reference.toDefinition name) = false ∧
          m = (asBase setting name built).model ∧ s₂ = s₁) ∨
        ∃ subtype, setting.polymorphism.isSubtype (Reference.toDefinition name) = true ∧
          (expandSubtype setting (asBase setting name built).model c subtype).Gives s₁ m s₂) ∧
      (inlineBranches setting m.parentBranch { asBase setting name built with model := m } 0
        m.allOf).Gives s₂ f' s' := by
  obtain ⟨c, built, s₁, s₂, m, hc, hb, hm, h⟩ := fileFrame_steps h
  refine ⟨c, built, s₁, s₂, m, hc, hb, ?_, h⟩
  rw [Polymorphism.isSubtype, Assoc.has]
  rcases hm with ⟨hsub, hm⟩ | ⟨subtype, hsub, hm⟩
  · rw [hsub]
    exact .inl ⟨rfl, hm⟩
  · rw [hsub]
    exact .inr ⟨subtype, rfl, hm⟩

/-- **The file of a subtype** has the full models of its bases in place of branches. -/
theorem fileFrame_subtype {name : String} {subtype : Subtype}
    (hsub : setting.polymorphism.subtypes.lookup (Reference.toDefinition name) = some subtype)
    (h : (fileFrame setting name).Gives s f' s') :
    ∃ c built s₁ s₂ m, s.registry.get? name = some c ∧
      (definition setting name c name).Gives s built s₁ ∧
      (expandSubtype setting (asBase setting name built).model c subtype).Gives s₁ m s₂ ∧
      (inlineBranches setting m.parentBranch { asBase setting name built with model := m } 0
        m.allOf).Gives s₂ f' s' := by
  obtain ⟨c, built, s₁, s₂, m, hc, hb, ⟨hnone, -⟩ | ⟨subtype', hsome, hm⟩, h⟩ := fileFrame_steps h
  · exact absurd (hnone.symm.trans hsub) (by simp)
  · obtain rfl := Option.some.inj (hsome.symm.trans hsub)
    exact ⟨c, built, s₁, s₂, m, hc, hb, hm, h⟩

theorem file_cases {name : String} {file : ModelFile}
    (h : (Build.file setting name).Gives s file s') :
    ∃ f s₁, (fileFrame setting name).Gives s f s₁ ∧ s'.registry = s₁.registry ∧
      file = (assemble setting name s₁.registry f).1 := by
  rw [Build.file, gives_bind] at h
  obtain ⟨f, s₁, hf, h⟩ := h
  rw [gives_bind] at h
  obtain ⟨r, s₂, hr, h⟩ := h
  rw [gives_registry] at hr
  obtain ⟨rfl, rfl⟩ := hr
  refine ⟨f, s₁, hf, ?_⟩
  generalize assemble setting name s₁.registry f = whole at *
  simp only [gives_bind, gives_warnAll, gives_pure] at h
  obtain ⟨_, _, rfl, rfl, rfl⟩ := h
  exact ⟨rfl, rfl⟩

/-- What the parts of a file are: its models with their types written out, and its dependencies. -/
theorem assemble_facts (setting : Setting) (name : String) (r : Registry) (f : Frame) :
    (assemble setting name r f).1.model = (Imports.collectRendered (setting.options.packageOf name)
        (declare setting name r f.model) {}).1 ∧
      (assemble setting name r f).1.extras = (Imports.collectAllRendered
        (setting.options.packageOf name) (f.extras.map Prod.snd)
        (Imports.collectRendered (setting.options.packageOf name)
          (declare setting name r f.model) {}).2).1 ∧
      (assemble setting name r f).1.dependsOn = dependsOn f name r.hoisted := by
  exact ⟨rfl, rfl, rfl⟩

/-- The main model of a file is the one that was declared, with its types written out. -/
theorem assemble_rendered [Text.Transliteration] (setting : Setting) (name : String)
    (r : Registry) (f : Frame) :
    Imports.Rendered (setting.options.packageOf name) (declare setting name r f.model)
      (assemble setting name r f).1.model :=
  Imports.collectRendered_rendered _ _ _

/-- Each of the others was taken out, and is collected on its own. -/
theorem mem_assemble_extras {name : String} {r : Registry} {e : Model}
    (h : e ∈ (assemble setting name r f).1.extras) : ∃ x e₀ i, (x, e₀) ∈ f.extras ∧
      e = (Imports.collectRendered (setting.options.packageOf name) e₀ i).1 := by
  obtain ⟨e₀, he₀, i, rfl⟩ := Imports.mem_collectAllRendered _ _ e h
  obtain ⟨⟨x, e₁⟩, hx, rfl⟩ := List.mem_map.mp he₀
  exact ⟨x, e₁, i, hx, rfl⟩

theorem assemble_extras_names (setting : Setting) (name : String) (r : Registry) (f : Frame) :
    (assemble setting name r f).1.extras.map (·.name) = f.extras.map (·.2.name) :=
  (Imports.collectAllRendered_names _ _).trans List.map_map

/-- The models of a file are collected one after the other, and with them its imports. -/
theorem assemble_collected (setting : Setting) (name : String) (r : Registry) (f : Frame) :
    ∃ i, Imports.collectAllRendered (setting.options.packageOf name)
        (declare setting name r f.model :: f.extras.map Prod.snd) {} =
        ((assemble setting name r f).1.model :: (assemble setting name r f).1.extras, i) ∧
      (assemble setting name r f).1.imports = i.statements ∧
      (assemble setting name r f).1.package = setting.options.packageOf name := by
  exact ⟨_, rfl, rfl, rfl⟩

end Build

end KclModels
