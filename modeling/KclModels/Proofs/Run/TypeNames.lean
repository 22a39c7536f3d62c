import KclModels.Proofs.Build.FileStanding
import KclModels.Proofs.Run.Accounted
import KclModels.Text.AsciiTable

/-!
# Types have the names they are declared under

A model that refers to a definition has the type name of the definition, and that is the name that
the definition's file declares. For a schema without a name of its own both names follow from the
name it was given, unless it asks for another: then only those that refer to it go by what it asks.

What stands beside a reference may make another type of it. An array of what is referred to has a
type of its own, and a branch may take the place of the reference; so both are set aside, but only
for references to the name in question. The model of a file that refers to something stands for the
definition of the file, and goes by the name of that.
-/

namespace KclModels

/-- The type is written with this name, perhaps after the name of a package. -/
def TypeInfo.Spells (t : TypeInfo) (name : String) : Prop :=
  t.kclType = name ∨ t.kclType = t.packageAlias ++ "." ++ name

/-- The type is written with the name of a definition; of one that was made, with nothing else. -/
def Registry.Writes (r : Registry) (n : String) (t : TypeInfo) : Prop :=
  ∃ c, r.get? n = some c ∧ t.Spells (c.declaredName n) ∧
    (n ∈ r.hoisted → c.hints.existing = none → t.kclType = c.declaredName n)

/-! ## What stands beside references -/

/-- Of references to `n` alone it is asked that they stand alone. -/
def askedOf (n : String) (valued : Bool) : String → Option Bool :=
  fun m => if m = n then some valued else none

theorem mem_askedOf {n : String} {valued : Bool} : valued ∈ askedOf n valued n := if_pos rfl

namespace Definitions

variable {definitions : Definitions} {n : String}

/-- The name that `n` is declared under is not written as the type of a map. -/
def namesNoMap (definitions : Definitions) (n : String) : Bool :=
  (definitions.lookup n).any fun d => !Text.begins "\x7bstr:" (d.declaredName n)

/--
Beside references to `n` stands nothing that makes another type of them: no elements, no branch that
may take their place, and no values, unless the name of `n` is not to be taken for the type of a map.
-/
def LeavesNamed (definitions : Definitions) (n : String) : Prop :=
  ∀ m c, definitions.lookup m = some c → c.Everywhere fun t =>
    t.referenceName = some n → t.Bare (definitions.namesNoMap n)

theorem LeavesNamed.bare (h : definitions.LeavesNamed n) :
    definitions.Bare (askedOf n (definitions.namesNoMap n)) := by
  intro m c hc t ht x hx valued hv
  unfold askedOf at hv
  split at hv
  · rename_i heq
    subst heq
    obtain rfl := Option.some.inj hv
    exact h m c hc t ht hx
  · exact absurd hv (Option.not_mem_none valued)

/-- Nothing in the document refers to a schema that was made. -/
theorem Canonical.leavesNamed (hc : definitions.Canonical) (hnone : definitions.lookup n = none) :
    definitions.LeavesNamed n := by
  intro m c hget t ht hn
  have hknown : (definitions.lookup n).isSome = true := (hc.known bare_unasked hget t ht).1 n hn
  rw [hnone] at hknown
  exact absurd hknown (by decide)

/-- The definition is an object that declares something, and it gives way to no branch. -/
def DeclaresRecord (definitions : Definitions) (n : String) : Prop :=
  ∃ c, definitions.lookup n = some c ∧ c.reference = none ∧ c.isRecord = true ∧ c.items = none ∧
    c.Steady

end Definitions

namespace Imports

variable {tr : Text.Transliteration}

theorem qualify_writes {r : Registry} {n : String} {t : TypeInfo} (h : r.Declares n t)
    (target : String) (i : Imports) : r.Writes n (qualify target t i).1 := by
  obtain ⟨c, hc, hname, hpackage⟩ := h
  unfold qualify
  split
  · exact ⟨c, hc, Or.inl hname, fun _ _ => hname⟩
  · rename_i hforeign
    refine ⟨c, hc, Or.inr ?_, fun hmade hnone => ?_⟩
    · dsimp only
      rw [hname]
    · rw [hpackage hmade hnone] at hforeign
      exact absurd hforeign (by simp)

theorem writes_of_declares {r : Registry} {n : String} {t : TypeInfo} (h : r.Declares n t) :
    r.Writes n t := by
  obtain ⟨c, hc, hname, -⟩ := h
  exact ⟨c, hc, Or.inl hname, fun _ _ => hname⟩

/-- Values leave a type as it is that is not written as that of a map. -/
theorem rebracket_values {t : TypeInfo} (h : Text.begins "\x7bstr:" t.kclType = false)
    (value : Option Model) : rebracket t none value = t := by
  cases value with
  | none => rfl
  | some v =>
    rw [rebracket]
    simp [h]

/-- Models that have the type of `n` if they refer to that are written with its name. -/
theorem carriesOver_named [Text.Transliteration] (target : String) {r : Registry} {n : String}
    {valued : Bool} (hplain : valued = true → ∀ c, r.get? n = some c →
      Text.begins "\x7bstr:" (c.declaredName n) = false) :
    CarriesOver target (fun m => m.reference = some n → m.Named valued r n)
      (fun m => m.reference = some n → r.Writes n m.type) where
  written m m' h hw hn := by
    obtain ⟨hdecl, hitems, hvalue⟩ := h (hw.reference ▸ hn)
    obtain ⟨i, hfacts⟩ := hw.facts
    have hkept : rebracket m.type none m'.additionalProperties = m.type := by
      cases valued with
      | false => rw [hw.value (hvalue rfl), rebracket]
      | true =>
        obtain ⟨c, hc, hname, -⟩ := hdecl
        exact rebracket_values (hname ▸ hplain rfl c hc) _
    rw [hw.items hitems, hkept] at hfacts
    rw [hfacts]
    exact qualify_writes hdecl target i
  same m h hn := writes_of_declares (h hn).type
  qualified m i h hn := qualify_writes (h hn).type target i
  properties m properties h hn := writes_of_declares (h hn).type

end Imports

namespace Run

variable {r : Run} {name : String} {taken names : List String} {file : ModelFile} {m a : Model}
variable {files : List ModelFile} {stats stats' : Statistics} {n : String} {s' : Session}

/-! ## Files of a run -/

/-- The files of definitions, each generated without the names that were given out before. -/
inductive Generates [Text.Transliteration] (r : Run) :
    (taken names : List String) → List ModelFile → Prop
  | nil {taken : List String} : Generates r taken [] []
  | cons {name : String} {taken names hoisted : List String} {file : ModelFile}
      {warnings : List Warning} {files : List ModelFile} :
      r.generateReserving name taken = .ok (file, warnings, hoisted) →
      Generates r (taken ++ hoisted) names files → Generates r taken (name :: names) (file :: files)

section

variable {tr : Text.Transliteration}

/-- The first definition is generated and counted, and its names are used up for the others. -/
theorem generateAll_cons (h : r.generateAll taken stats (name :: names) = .ok (files, stats')) :
    ∃ file warnings hoisted others, files = file :: others ∧
      r.generateReserving name taken = .ok (file, warnings, hoisted) ∧
      r.generateAll (taken ++ hoisted) ((stats.addFile file).addWarnings warnings) names =
        .ok (others, stats') := by
  rw [generateAll] at h
  obtain ⟨⟨file, warnings, hoisted⟩, hone, h⟩ := bind_eq_ok.mp h
  obtain ⟨⟨others, stats''⟩, hothers, h⟩ := bind_eq_ok.mp h
  obtain ⟨rfl, rfl⟩ := Prod.mk.inj (Except.ok.inj h)
  exact ⟨file, warnings, hoisted, others, rfl, mapError_ok hone, hothers⟩

theorem generateAll_generates (h : r.generateAll taken stats names = .ok (files, stats')) :
    r.Generates taken names files := by
  induction names generalizing taken stats files with
  | nil =>
    rw [generateAll, Except.ok.injEq, Prod.mk.injEq] at h
    exact h.1 ▸ .nil
  | cons name rest ih =>
    obtain ⟨file, warnings, hoisted, others, rfl, hone, hothers⟩ := generateAll_cons h
    exact .cons hone (ih hothers)

/-- **A run generates the selected definitions one after the other.** -/
theorem generate_generates (h : r.generate = .ok (files, stats)) :
    ∃ names, r.definitionNames = .ok names ∧ r.Generates [] names files := by
  obtain ⟨names, hnames, h⟩ := bind_eq_ok.mp h
  exact ⟨names, hnames, generateAll_generates h⟩

/-- Each file is that of one of the definitions. -/
theorem Generates.exists_of_mem (h : r.Generates taken names files) (hf : file ∈ files) :
    ∃ name ∈ names, ∃ taken warnings hoisted,
      r.generateReserving name taken = .ok (file, warnings, hoisted) := by
  induction h with
  | nil => exact absurd hf List.not_mem_nil
  | cons hone _ ih =>
    rcases List.mem_cons.mp hf with rfl | hf
    · exact ⟨_, List.mem_cons_self, _, _, _, hone⟩
    · obtain ⟨name, hname, hrest⟩ := ih hf
      exact ⟨name, List.mem_cons_of_mem _ hname, hrest⟩

theorem mem_generate (h : r.generate = .ok (files, stats)) (hf : file ∈ files) :
    ∃ name taken s', r.buildFile name taken = (.ok file, s') := by
  obtain ⟨names, -, hall⟩ := generate_generates h
  obtain ⟨name, -, taken, warnings, hoisted, hone⟩ := hall.exists_of_mem hf
  obtain ⟨s', hbuild, -⟩ := generateReserving_ok hone
  exact ⟨name, taken, s', hbuild⟩

/-- What a file is called, and the name that its definition is declared under. -/
theorem buildFile_title (hc : r.definitions.Canonical)
    (h : r.buildFile name taken = (.ok file, s')) :
    file.model.name = name ∧ ∃ c, r.definitions.lookup name = some c ∧
      file.model.declaredName = c.declaredName name := by
  obtain ⟨c, f, hget, hgrows, hlinked, rfl⟩ :=
    buildFile_linked hc Definitions.bare_unasked h
  have hmain := Build.assemble_rendered r.setting name s'.registry f
  refine ⟨hmain.name.trans hlinked.title, c, hget, hmain.declaredName.trans ?_⟩
  exact Resolver.modelTypeName_eq rfl (hgrows.keeps name c hget)

/-! ## Models of a file -/

theorem mem_parts_own_or_branch {p : Model} (hp : p ∈ m.parts) :
    p ∈ ({ m with allOf := [] } : Model).parts ∨ ∃ i : Nat, m.allOf[i]? = some p := by
  rw [Model.mem_parts_iff] at hp
  rcases hp with hp | hp | hp | hp | hp
  · exact Or.inl (Model.mem_parts_iff.mpr (Or.inl hp))
  · exact Or.inl (Model.mem_parts_iff.mpr (Or.inr (Or.inl hp)))
  · exact Or.inl (Model.mem_parts_iff.mpr (Or.inr (Or.inr (Or.inl hp))))
  · exact Or.inr (List.mem_iff_getElem?.mp hp)
  · exact Or.inl (Model.mem_parts_iff.mpr (Or.inr (Or.inr (Or.inr (Or.inr hp)))))

/--
The model is below one of the declarations of the file, or a branch of that of the definition. A
branch that a base was put in place of counts itself if the base is an object that declares something
and is stored under the name that the branch refers to.
-/
def Mentions (r : Run) (file : ModelFile) (a : Model) : Prop :=
  (∃ p ∈ ({ file.model with allOf := [] } : Model).parts, a.Within p) ∨
  (∃ (i : Nat) (b : Model), file.model.allOf[i]? = some b ∧
    ((a = b ∧ (r.Expands file.model.name i → ∀ n, b.reference = some n →
        r.definitions.DeclaresRecord n)) ∨ ∃ p ∈ b.parts, a.Within p)) ∨
  ∃ e ∈ file.extras, ∃ p ∈ e.parts, a.Within p

/-- Below a linked model what refers to the definition that is asked of has the type of that. -/
theorem named_of_linked {names : List String} {valued : Bool} {registry : Registry}
    (h : m.Everywhere (Model.Linked names (askedOf n valued) registry)) :
    m.Everywhere fun a => a.reference = some n → a.Named valued registry n :=
  h.mono fun _ ha hn => (ha n hn).2 valued mem_askedOf

/-- What a file mentions is written with the name of what it refers to. -/
theorem mentions_writes (hc : r.definitions.Canonical) (hb : r.definitions.LeavesNamed n)
    (h : r.buildFile name taken = (.ok file, s')) (ha : r.Mentions file a)
    (hn : a.reference = some n) : s'.registry.Writes n a.type := by
  obtain ⟨c, f, hget, hgrows, hlinked, rfl⟩ := buildFile_linked hc hb.bare h
  have hplain : r.definitions.namesNoMap n = true → ∀ c, s'.registry.get? n = some c →
      Text.begins "\x7bstr:" (c.declaredName n) = false := by
    intro hyes c hc
    obtain ⟨d, hd, hno⟩ := (Option.any_eq_true _ _).mp hyes
    obtain rfl := Option.some.inj ((hgrows.keeps n d hd).symm.trans hc)
    simpa using hno
  have hcarries := Imports.carriesOver_named (r.setting.options.packageOf name) hplain
  have hmain := Build.assemble_rendered r.setting name s'.registry f
  rcases ha with ⟨p, hp, hw⟩ | ⟨i, b, hi, hbelow⟩ | ⟨e, he, p, hp, hw⟩
  · exact hmain.own _ _ hcarries (fun q hq => named_of_linked (hlinked.own q hq)) p hp a hw hn
  · obtain ⟨b₀, hb₀, hwritten⟩ := hmain.branches i b hi
    rcases hlinked.branches i b₀ hb₀ with hall | ⟨hexpands, ⟨x, hx, hknown, -, htyped⟩, _, hparts⟩
    · -- the branch was not expanded, so the whole of it is linked
      have hall' := hwritten.whole _ _ hcarries (named_of_linked hall)
      rcases hbelow with ⟨rfl, -⟩ | ⟨p, hp, hw⟩
      · exact hall'.here hn
      · exact hall' a (.part hp hw) hn
    · rcases hbelow with ⟨rfl, hrecord⟩ | ⟨p, hp, hw⟩
      · -- the branch was built as the definition itself, which is a record
        rw [hwritten.reference, hx] at hn
        obtain rfl := Option.some.inj hn
        obtain ⟨d, hd, href, hrec, hitems, hsteady⟩ :=
          hrecord ((buildFile_title hc h).1 ▸ hexpands) x (hwritten.reference.trans hx)
        have hstored := hgrows.keeps x d hd
        have hdeclares : s'.registry.Declares x b₀.type :=
          ⟨d, hstored, htyped.kclType hstored href hrec hitems hsteady, fun hmade =>
            absurd hmade (not_hoisted_of_known hgrows rfl hknown)⟩
        rcases hwritten.type with htype | ⟨j, htype⟩
        · exact htype ▸ Imports.writes_of_declares hdeclares
        · exact htype ▸ Imports.qualify_writes hdeclares _ j
      · exact hwritten.parts _ _ hcarries (fun q hq => named_of_linked (hparts q hq)) p hp a hw hn
  · obtain ⟨x, e₁, j, hx, rfl⟩ := Build.mem_assemble_extras he
    have hrendered := Imports.collectRendered_rendered (r.setting.options.packageOf name) e₁ j
    have htaken := (hlinked.extras x e₁ hx).parts
    -- an extra schema: its parts, or what its branches hold
    rcases mem_parts_own_or_branch hp with hp | ⟨i, hi⟩
    · refine hrendered.own _ _ hcarries (fun q hq => ?_) p hp a hw hn
      exact named_of_linked (htaken q (mem_parts_of_own hq))
    · obtain ⟨b₀, hb₀, hwritten⟩ := hrendered.branches i p hi
      refine hwritten.whole _ _ hcarries (named_of_linked (htaken b₀ ?_)) a hw hn
      exact Model.mem_parts_iff.mpr
        (Or.inr (Or.inr (Or.inr (Or.inl (List.mem_of_getElem? hb₀)))))

/-- A model of a file that refers to something is written with the name of the file's definition. -/
theorem model_writes (hc : r.definitions.Canonical) (h : r.buildFile name taken = (.ok file, s'))
    (href : file.model.reference.isSome = true) : s'.registry.Writes name file.model.type := by
  obtain ⟨c, -, hget, hgrows, -⟩ := buildFile_linked hc Definitions.bare_unasked h
  obtain ⟨f, s₁, hf, -, rfl⟩ := Build.file_cases h
  obtain ⟨built, s₂, hbuilt, -, htype, hsame⟩ :=
    Build.fileFrame_standing (s := r.session taken) hget hf
  have hmain := Build.assemble_rendered r.setting name s₁.registry f
  have href : built.model.reference.isSome = true := by
    rw [← hsame.reference]
    exact hmain.reference ▸ href
  have hstored : ((r.session taken).registry.get? name).isSome = true :=
    Option.isSome_iff_exists.mpr ⟨_, hget⟩
  obtain ⟨⟨d, hd, hname, -⟩, hitems, hvalue⟩ := hbuilt.own rfl rfl hstored href
  obtain rfl := Option.some.inj
    (((hbuilt.grows Frame.root_fresh).keeps name _ hget).symm.trans hd)
  -- with nothing below that it would be written of, the type is that of what was built
  obtain ⟨item, value, j, hcollected, hitem, hextra⟩ := Imports.collectRendered_type
    (r.setting.options.packageOf name) (Build.declare r.setting name s₁.registry f.model) {}
  obtain rfl := hitem (hsame.items.trans hitems)
  obtain rfl := hextra (hsame.value.trans (hvalue rfl))
  rw [(Build.assemble_facts r.setting name s₁.registry f).1, hcollected]
  refine Imports.qualify_writes (t := f.model.type) ⟨_, hgrows.keeps name _ hget, ?_, ?_⟩ _ j
  · rw [htype]
    exact hname
  · exact fun hmade => absurd hmade (not_hoisted_of_known hgrows rfl hstored)

/-- The schemas in a file are declared under the names that they were given. -/
theorem extras_declared (hc : r.definitions.Canonical)
    (h : r.buildFile name taken = (.ok file, s')) {e : Model} (he : e ∈ file.extras) :
    e.declaredName = e.name ∧ e.name ∈ s'.registry.hoisted ∧
      Naming.schemaName e.name = e.name := by
  obtain ⟨c, f, -, -, hlinked, rfl⟩ := buildFile_linked hc Definitions.bare_unasked h
  obtain ⟨x, e₁, j, hx, rfl⟩ := Build.mem_assemble_extras he
  have hrendered := Imports.collectRendered_rendered (r.setting.options.packageOf name) e₁ j
  have htaken := hlinked.extras x e₁ hx
  have hname := hrendered.name.trans htaken.name
  rw [hname]
  exact ⟨hrendered.declaredName.trans htaken.declaredName, htaken.hoisted, htaken.plain⟩

/--
The type of a model that refers to `n` has the name that `n` is declared under in its own file, and
the name that `n` is declared under in `file` just if `n` asks for none or is given what it asks for.
-/
def NamedAsDeclared [Text.Transliteration] (r : Run) (files : List ModelFile) (file : ModelFile)
    (n : String) (t : TypeInfo) : Prop :=
  ∃ taken s' c, r.buildFile file.model.name taken = (.ok file, s') ∧
    s'.registry.get? n = some c ∧ t.Spells (c.declaredName n) ∧
    (∀ g ∈ files, g.model.name = n → g.model.declaredName = c.declaredName n) ∧
    ∀ e ∈ file.extras, e.name = n → c.hints.existing = none →
      (t.kclType = e.declaredName ↔
        ∀ asked, c.hints.kclName = some asked → Naming.schemaName asked = n)

theorem namedAsDeclared_of_writes {stats : Statistics} {t : TypeInfo}
    (hc : r.definitions.Canonical) (h : r.generate = .ok (files, stats))
    (hbuild : r.buildFile file.model.name taken = (.ok file, s')) (hw : s'.registry.Writes n t) :
    r.NamedAsDeclared files file n t := by
  obtain ⟨c, hget, hspells, hmade⟩ := hw
  obtain ⟨-, -, -, hgrows, -⟩ := buildFile_linked hc Definitions.bare_unasked hbuild
  refine ⟨taken, s', c, hbuild, hget, hspells, fun g hg hgn => ?_, fun e he hen hnone => ?_⟩
  · -- its own file declares it under the name that the registry knows
    obtain ⟨name', taken', t, hbuild'⟩ := mem_generate h hg
    obtain ⟨hname', d, hd, hdecl⟩ := buildFile_title hc hbuild'
    obtain rfl : n = name' := hgn.symm.trans hname'
    rw [hdecl, Option.some.inj ((hgrows.keeps n d hd).symm.trans hget)]
  · obtain ⟨hdecl, hhoisted, hplain⟩ := extras_declared hc hbuild he
    rw [hen] at hdecl hhoisted hplain
    rw [hmade hhoisted hnone, hdecl, Schema.declaredName, hnone]
    dsimp only
    rw [Schema.nameOr]
    cases c.hints.kclName with
    | none => simpa using hplain
    | some asked => simp

/--
**A type is referred to by the name it is declared under**, unless it asks for one in vain; and a
model of a file that refers to something has the name of the definition that it stands for.
-/
theorem mentioned_type_declared {files : List ModelFile} {stats : Statistics}
    (hc : r.definitions.Canonical) (h : r.generate = .ok (files, stats)) (hf : file ∈ files) :
    (∀ a n, r.Mentions file a → a.reference = some n → r.definitions.LeavesNamed n →
        r.NamedAsDeclared files file n a.type) ∧
      (file.model.reference.isSome = true →
        r.NamedAsDeclared files file file.model.name file.model.type) := by
  obtain ⟨name, taken, s', hbuild⟩ := mem_generate h hf
  obtain ⟨rfl, -⟩ := buildFile_title hc hbuild
  exact ⟨fun a n ha hn hb => namedAsDeclared_of_writes hc h hbuild (mentions_writes hc hb hbuild ha hn),
    fun href => namedAsDeclared_of_writes hc h hbuild (model_writes hc hbuild href)⟩

end

theorem orders_owner_named : ∃ files stats file a, orders.generate = .ok (files, stats) ∧
    file ∈ files ∧ orders.Mentions file a ∧ a.reference = some "OrderOwner" ∧
      orders.NamedAsDeclared files file "OrderOwner" a.type := by
  have hc : orders.definitions.Canonical := Definitions.canonical_of_check (by decide +kernel)
  obtain ⟨⟨files, stats⟩, h, hmentions⟩ := exists_ok_of_any (e := orders.generate)
    (p := fun generated => generated.1.any fun f =>
      f.model.properties.any (·.reference == some "OrderOwner")) (by decide +kernel)
  obtain ⟨file, hf, hmentions⟩ := List.any_eq_true.mp hmentions
  obtain ⟨a, ha, hn⟩ := List.any_eq_true.mp hmentions
  have hn : a.reference = some "OrderOwner" := by simpa using hn
  have ha : orders.Mentions file a :=
    Or.inl ⟨a, Model.mem_parts_iff.mpr (Or.inr (Or.inr (Or.inl ha))), .refl a⟩
  exact ⟨files, stats, file, a, h, hf, ha, hn,
    (mentioned_type_declared hc h hf).1 a _ ha hn (hc.leavesNamed rfl)⟩

/-- Two schemas that ask for one name. -/
def namesakes : Run := ofDefinitions [
  ("Order", { types := ["object"], properties := [
    ("buyer", { types := ["object"], properties := [("name", .typed "string")]
                hints := { kclName := some "Person" } }),
    ("seller", { types := ["object"], properties := [("name", .typed "string")]
                 hints := { kclName := some "Person" } })] })]

/-- A schema that asks for a name that is taken is declared under another, but not referred to. -/
theorem namesakes_misnamed : ∃ files stats file a e, namesakes.generate = .ok (files, stats) ∧
    file ∈ files ∧ a ∈ file.model.properties ∧ e ∈ file.extras ∧ a.reference = some e.name ∧
      e.declaredName = "Person1" ∧ a.type.kclType = "Person" := by
  obtain ⟨⟨files, stats⟩, h, hmentions⟩ := exists_ok_of_any (e := namesakes.generate)
    (p := fun generated => generated.1.any fun f =>
      f.model.properties.any fun a => f.extras.any fun e =>
        a.reference == some e.name && e.declaredName == "Person1" && a.type.kclType == "Person")
    (by decide +kernel)
  obtain ⟨file, hf, hmentions⟩ := List.any_eq_true.mp hmentions
  obtain ⟨a, ha, hmentions⟩ := List.any_eq_true.mp hmentions
  obtain ⟨e, he, hmentions⟩ := List.any_eq_true.mp hmentions
  exact ⟨files, stats, file, a, e, h, hf, ha, he, by simpa [and_assoc] using hmentions⟩

end Run

end KclModels
