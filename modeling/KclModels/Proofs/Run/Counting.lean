import KclModels.Proofs.Build.Bases
import KclModels.Proofs.Run.Categories
import KclModels.Proofs.Run.SchemaNames
import KclModels.Text.AsciiTable

/-!
# What a run counts

The statistics are counted by flags of the models: what has neither properties nor branches and is no
object counts as an alias, what is marked as a base counts as one. What is written is decided by other
rules, and the marks are set for more than the bases that the document knows. The counts are exact for
subtypes; for bases they are if nothing else comes down to a base, and for aliases if each definition
without parts is one whose type is written without its own name.
-/

namespace KclModels

theorem Text.mem_of_cutChars_none {sep : Char} {cs : List Char} (h : Text.cutChars sep cs = none) :
    sep ∉ cs := by
  intro hmem
  obtain ⟨before, after, hsplit, hnot⟩ := List.eq_append_cons_of_mem hmem
  rw [hsplit, Text.cutChars_append hnot] at h
  exact absurd h (by simp)

/-- What follows the last separator does not hold it. -/
theorem Text.not_mem_afterLast (sep : Char) (s : String) : sep ∉ (Text.afterLast sep s).toList := by
  unfold Text.afterLast Text.cutLast?
  cases hcut : Text.cutChars sep s.toList.reverse with
  | none =>
    have hnot := Text.mem_of_cutChars_none hcut
    simpa using hnot
  | some parts =>
    obtain ⟨-, hnot⟩ := Text.eq_of_cutChars hcut
    simpa using hnot

/-- The name that a definition is declared under holds no dot. -/
theorem Naming.not_mem_schemaName (name : String) : '.' ∉ (Naming.schemaName name).toList := by
  have hshort : '.' ∉ (Naming.shortName name).toList := Text.not_mem_afterLast '.' name
  have hreplaced : '.' ∉ (Text.replaceChar '-' ['_'] (Naming.shortName name)).toList := by
    rw [Text.replaceChar, String.toList_ofList]
    intro hmem
    obtain ⟨d, hd, hin⟩ := List.mem_flatMap.mp hmem
    split at hin
    · exact absurd (List.mem_singleton.mp hin) (by decide)
    · exact hshort (List.mem_singleton.mp hin ▸ hd)
  unfold Naming.schemaName Naming.escapeReserved
  split
  · rw [String.toList_append]
    intro hmem
    rcases List.mem_append.mp hmem with hmem | hmem
    · exact absurd hmem (by decide)
    · exact hreplaced hmem
  · exact hreplaced

namespace Kcl

/-- Whether a block is a line that declares an alias of a type. -/
def Block.declaresType : Block → Bool
  | .line text => Text.begins "type " text
  | _ => false

theorem begins_type_schema (text : String) : Text.begins "type " ("schema " ++ text) = false := by
  rw [Text.begins, Text.after?, String.toList_append]
  rfl

theorem header_eq (m : Model) (name : String) (parent : Option Nat) :
    ∃ rest, header m name parent = "schema " ++ rest := by
  unfold header
  split
  · exact ⟨_, by simp only [String.append_assoc]; rfl⟩
  · exact ⟨_, String.append_assoc⟩

/-- **A declaration is one of an alias just if the model is one.** -/
theorem declaresType_declaration (m : Model) :
    (declaration m).any Block.declaresType = isAlias m m.declaredName := by
  unfold declaration
  cases isAlias m m.declaredName
  · have hheader : Block.declaresType (.line (header m m.declaredName m.parentBranch)) = false := by
      obtain ⟨rest, hrest⟩ := header_eq m m.declaredName m.parentBranch
      rw [hrest]
      exact begins_type_schema rest
    rw [if_neg (by decide), schemaBlocks, List.any_cons, hheader]
    rfl
  · have hline : Block.declaresType (.line ("type " ++ m.declaredName ++ " = " ++ aliasTarget m)) =
        true := by
      rw [Block.declaresType, String.append_assoc, String.append_assoc, Text.begins_append]
    rw [if_pos rfl, aliasBlocks, List.any_append, List.any_cons, hline, Bool.true_or, Bool.or_true]

end Kcl

namespace Run

open Build

variable {document : Swagger} {options : Options} {r : Run} {name : String} {c d : Schema}
variable {taken hoisted names : List String} {file : ModelFile} {warnings : List Warning}
variable {files : List ModelFile} {stats stats' : Statistics} {sources : List Kcl.SourceFile}

/-! ## Aliases -/

/-- The target of an alias has a name, which is not the one that the alias is declared under. -/
def NamesAnother [Text.Transliteration] (r : Run) (name : String) (c : Schema) : Prop :=
  ∀ n c', c.referenceName = some n → r.definitions.lookup n = some c' →
    let target := (Registry.ofDefinitions r.definitions).declared r.options n c'
    (target.package ≠ "" ∧ target.package ≠ r.options.packageOf name) ∨
      (target.kclType ≠ "" ∧ target.kclType ≠ c.declaredName name)

/-- The definition is declared as it is counted: as an alias of a type, or not as one. -/
inductive DeclaredAsCounted [Text.Transliteration] (r : Run) (name : String) (c : Schema) : Prop
  /-- A reference to what has no aliases composes its target. -/
  | composes {d : Schema} : c.reference.isSome = true → r.definitions.Ends c d →
      d.isAliasable = false → DeclaredAsCounted r name c
  /-- A reference to an array, a map or a known type is an alias of another name. -/
  | aliases {d : Schema} : c.reference.isSome = true → r.definitions.Ends c d → d.isFlat = true →
      r.NamesAnother name c → DeclaredAsCounted r name c
  /-- What is built of a schema with parts is a schema. -/
  | parts {b d : Schema} : r.definitions.BuiltOf c b d →
      b.properties ≠ [] ∨ b.allOf ≠ [] ∨ b.tupleItems?.getD [] ≠ [] → DeclaredAsCounted r name c
  /-- A type that is written out is an alias, if the definition has no name that is written so. -/
  | written {b d : Schema} : r.definitions.BuiltOf c b d → b.Nameless →
      ¬ Format.IsBuiltIn (c.declaredName name) → DeclaredAsCounted r name c

/-- A model with parts neither counts as an alias nor is one. -/
theorem not_alias_of_parts {m : Model} (h : m.properties.length ≠ 0 ∨ m.allOf.length ≠ 0) :
    Statistics.countsAsAlias m = Kcl.isAlias m m.declaredName := by
  have hempty : (m.properties.isEmpty && m.allOf.isEmpty) = false := by
    rw [Bool.and_eq_false_iff]
    exact h.imp (by simpa using ·) (by simpa using ·)
  rw [Statistics.countsAsAlias, Kcl.isAlias, hempty]
  rfl

/-- A model without parts that is no object is an alias if its type is written as something else. -/
theorem alias_of_text {m : Model} (hproperties : m.properties.length = 0) (hall : m.allOf.length = 0)
    (hcomplex : m.type.complex = false) (hextended : m.isAdditionalProperties = false)
    (htuple : m.type.tuple = false) (hsome : m.type.kclType ≠ "")
    (hother : m.type.kclType ≠ m.declaredName) :
    Statistics.countsAsAlias m = Kcl.isAlias m m.declaredName := by
  rw [List.length_eq_zero_iff] at hproperties hall
  have hnamed : m.type.kclType.isEmpty = false := by simpa using hsome
  have hdiffers : (m.type.kclType != m.declaredName) = true := by simpa using hother
  rw [Statistics.countsAsAlias, Kcl.isAlias, hproperties, hall, hcomplex, hextended, htuple, hnamed,
    hdiffers]
  rfl

section

variable {tr : Text.Transliteration}

/-- The name that an alias stands for is another one, however it is written. -/
theorem Writes.ne_declared {text : String} {n : String} {c' : Schema}
    (hexisting : c.hints.existing = none) (hnames : r.NamesAnother name c)
    (hname : c.referenceName = some n) (hget : r.definitions.lookup n = some c')
    (h : r.Writes (r.options.packageOf name)
      ((Registry.ofDefinitions r.definitions).declared r.options n c') text) :
    text ≠ "" ∧ text ≠ c.declaredName name := by
  cases h with
  | own hown htext =>
    rw [htext]
    rcases hnames n c' hname hget with ⟨hsome, hother⟩ | hdiffers
    · exact absurd hown (not_or.mpr ⟨hsome, hother⟩)
    · exact hdiffers
  | @foreign before _ _ htext =>
    have hdot : '.' ∈ text.toList := by
      rw [htext, String.toList_append, String.toList_append]
      exact List.mem_append_left _ (List.mem_append_right _ (by decide))
    refine ⟨?_, ?_⟩
    · rintro rfl
      exact absurd hdot (by decide)
    · -- the name of a definition has no dot
      rintro rfl
      rw [Schema.declaredName, hexisting] at hdot
      exact Naming.not_mem_schemaName _ hdot

/-- What refers to something that has no aliases has the composed target as its one branch. -/
theorem alias_of_composed {p : Polymorphism} {m : Standing} {model : Model}
    (hfile : Standing.InFile p name m model.standing) (hrefers : m.Refers d)
    (halias : d.isAliasable = false) :
    Statistics.countsAsAlias model = Kcl.isAlias model model.declaredName := by
  have hbranches : model.allOf.length = 1 := by
    rw [show model.allOf.length = m.branches from hfile.branches, hrefers.branches, halias]
    rfl
  exact not_alias_of_parts (.inr (by rw [hbranches]; decide))

/-- The model of a reference to a flat schema has no parts: its type decides alone. -/
theorem alias_of_referred {p : Polymorphism} {m : Standing} {model : Model}
    (hfile : Standing.InFile p name m model.standing) (hrefers : m.Refers d) (hflat : d.isFlat = true)
    (hsome : model.type.kclType ≠ "") (hother : model.type.kclType ≠ model.declaredName) :
    Statistics.countsAsAlias model = Kcl.isAlias model model.declaredName := by
  have hbranches : model.allOf.length = m.branches := hfile.branches
  have hcomplex : model.type.complex = m.type.complex := TypeInfo.complex_of_outline hfile.type
  have htuple : model.type.tuple = m.type.tuple := TypeInfo.tuple_of_outline hfile.type
  refine alias_of_text (hfile.properties.trans hrefers.properties) ?_ ?_
    (hfile.extended.trans hrefers.extended) (htuple.trans hrefers.tuple) hsome hother
  · rw [hbranches, hrefers.branches, if_pos (Schema.isAliasable_of_isFlat hflat)]
  · rw [hcomplex, hrefers.complex, hflat]
    rfl

/-- Properties, places and branches of the schema are parts of the model. -/
theorem alias_of_built {p : Polymorphism} {m : Standing} {model : Model} {b : Schema}
    (hfile : Standing.InFile p name m model.standing) (hof : m.Of b d)
    (hparts : b.properties ≠ [] ∨ b.allOf ≠ [] ∨ b.tupleItems?.getD [] ≠ []) :
    Statistics.countsAsAlias model = Kcl.isAlias model model.declaredName := by
  have hproperties : model.properties.length = m.properties := hfile.properties
  have hbranches : model.allOf.length = m.branches := hfile.branches
  refine not_alias_of_parts ?_
  rw [hproperties, hbranches, hof.properties, hof.branches]
  rcases hparts with hne | hne | hne
  · exact .inl fun hzero => hne (List.length_eq_zero_iff.mp (Nat.eq_zero_of_add_eq_zero hzero).1)
  · exact .inr fun hzero => hne (List.length_eq_zero_iff.mp hzero)
  · exact .inl fun hzero => hne (List.length_eq_zero_iff.mp (Nat.eq_zero_of_add_eq_zero hzero).2)

/-- A schema without a name has no parts: its type is written out, which no other name is. -/
theorem alias_of_written {p : Polymorphism} {m : Standing} {model : Model}
    (hfile : Standing.InFile p name m model.standing) (hof : m.Of d d) (hnameless : d.Nameless)
    (hname : ¬ Format.IsBuiltIn model.declaredName) :
    Statistics.countsAsAlias model = Kcl.isAlias model model.declaredName := by
  have hproperties : model.properties.length = m.properties := hfile.properties
  have hbranches : model.allOf.length = m.branches := hfile.branches
  have hextended : model.isAdditionalProperties = m.extended := hfile.extended
  have hcomplex : model.type.complex = m.type.complex := TypeInfo.complex_of_outline hfile.type
  have htuple : model.type.tuple = m.type.tuple := TypeInfo.tuple_of_outline hfile.type
  have hwritten : model.type.Written := hfile.written (hof.written hnameless)
  -- nothing is declared, so it is no record, and nothing is counted but the text of its type
  have hrecord : d.isRecord = false := by
    rw [Schema.isRecord, hnameless.properties, hnameless.allOf]
    exact Bool.and_false _
  have hlist : d.tupleItems?.isSome = false := by rw [hnameless.places]; rfl
  have hinline : d.reference.isSome = false := by rw [hnameless.reference]; rfl
  refine alias_of_text ?_ ?_ ?_ ?_ ?_ hwritten.text.ne_empty fun heq => hname (heq ▸ hwritten.text)
  · rw [hproperties, hof.properties, hnameless.properties, hnameless.places]
    rfl
  · rw [hbranches, hof.branches, hnameless.allOf]
    rfl
  · rw [hcomplex, hof.complex, hinline, hrecord]
    rfl
  · rw [hextended, hof.extended, hinline, hrecord]
    exact Bool.and_false _
  · rw [htuple, hof.tuple, hlist]
    exact Bool.and_false _

/-- **A definition that is declared as it is counted** is an alias in its file just if it counts. -/
theorem DeclaredAsCounted.alias_iff (hcounted : r.DeclaredAsCounted name c)
    (hprepare : prepare document options = .ok r) (hget : r.definitions.lookup name = some c)
    (hexisting : c.hints.existing = none) (hmix : c.reference = none → c.Unmixed)
    (h : r.generateReserving name taken = .ok (file, warnings, hoisted)) :
    Statistics.countsAsAlias file.model = Kcl.isAlias file.model file.model.declaredName := by
  obtain ⟨m, hmakes, hfile⟩ := generateReserving_makes hprepare hget hmix h
  obtain ⟨c', hget', hdeclared⟩ := (generateReserving_fileOf h).declared
  obtain rfl := Option.some.inj (hget.symm.trans hget')
  cases hcounted with
  | composes href hd hno => exact alias_of_composed hfile (hmakes.refers href hd) hno
  | @aliases d href hd hflat hnames =>
    obtain ⟨reference, hreference⟩ := Option.isSome_iff_exists.mp href
    obtain ⟨n, c', hname, hget', hwrites⟩ := generateReserving_alias hprepare hget hreference hd
      (Schema.isAliasable_of_isFlat hflat) h
    obtain ⟨hsome, hother⟩ := hwrites.ne_declared hexisting hnames hname hget'
    exact alias_of_referred hfile (hmakes.refers href hd) hflat hsome (hdeclared ▸ hother)
  | parts hb hparts => exact alias_of_built hfile (hmakes.of_builtOf hb) hparts
  | @written b d hb hnameless hname =>
    obtain rfl := hb.ends.of_inline hnameless.reference
    exact alias_of_written hfile (hmakes.of_builtOf hb) hnameless (hdeclared ▸ hname)

/-! ## Totals -/

/-- The counts of the statistics are those of the files. -/
structure Totals (stats : Statistics) (files : List ModelFile) (stats' : Statistics) : Prop where
  definitions : stats'.definitions = stats.definitions + files.length
  aliases : stats'.typeAliases = stats.typeAliases +
    files.countP fun file => Statistics.countsAsAlias file.model
  bases : stats'.bases = stats.bases + files.countP (·.model.isBase)
  subtypes : stats'.subtypes = stats.subtypes + files.countP (·.model.isSubtype)

theorem Totals.refl (stats : Statistics) : Totals stats [] stats := ⟨rfl, rfl, rfl, rfl⟩

/-- A warning is not counted among the files. -/
theorem Totals.addWarnings (h : Totals stats files stats') (ws : List Warning) :
    Totals stats files (stats'.addWarnings ws) := by
  induction ws generalizing stats' with
  | nil => exact h
  | cons w rest ih =>
    have hw : Totals stats files (stats'.addWarning w) := by
      obtain ⟨hdefinitions, haliases, hbases, hsubtypes⟩ := h
      unfold Statistics.addWarning
      split <;> exact ⟨hdefinitions, haliases, hbases, hsubtypes⟩
    exact ih hw

/-- A file is counted once, before the ones after it. -/
theorem Totals.cons (file : ModelFile) (ws : List Warning)
    (h : Totals ((stats.addFile file).addWarnings ws) files stats') :
    Totals stats (file :: files) stats' := by
  obtain ⟨hdefinitions, haliases, hbases, hsubtypes⟩ := h
  obtain ⟨hdefinitions', haliases', hbases', hsubtypes'⟩ :=
    (Totals.refl (stats.addFile file)).addWarnings ws
  have hflag : ∀ b : Bool, (if b = true then 1 else 0) = b.toNat := by decide
  constructor
  · rw [hdefinitions, hdefinitions', List.length_cons]
    show stats.definitions + 1 + 0 + files.length = _
    omega
  · rw [haliases, haliases', List.countP_cons, hflag]
    show stats.typeAliases + (Statistics.countsAsAlias file.model).toNat + 0 + _ = _
    omega
  · rw [hbases, hbases', List.countP_cons, hflag]
    show stats.bases + file.model.isBase.toNat + 0 + _ = _
    omega
  · rw [hsubtypes, hsubtypes', List.countP_cons, hflag]
    show stats.subtypes + file.model.isSubtype.toNat + 0 + _ = _
    omega

/-- **Generating definitions counts their files.** -/
theorem generateAll_totals (h : r.generateAll taken stats names = .ok (files, stats')) :
    Totals stats files stats' := by
  induction names generalizing taken stats files with
  | nil =>
    rw [generateAll, Except.ok.injEq, Prod.mk.injEq] at h
    obtain ⟨rfl, rfl⟩ := h
    exact .refl stats
  | cons name rest ih =>
    obtain ⟨file, warnings, hoisted, others, rfl, -, hothers⟩ := generateAll_cons h
    exact .cons file warnings (ih hothers)

theorem foldl_addCycle_totals (cycles : List (List String)) (stats : Statistics) :
    Totals stats [] (cycles.foldl Statistics.addCycle stats) := by
  induction cycles generalizing stats with
  | nil => exact .refl stats
  | cons cycle rest ih =>
    obtain ⟨hdefinitions, haliases, hbases, hsubtypes⟩ := ih (stats.addCycle cycle)
    exact ⟨hdefinitions, haliases, hbases, hsubtypes⟩

/-- A run starts with counts of nothing. -/
theorem generate_totals (h : r.generate = .ok (files, stats)) : Totals {} files stats := by
  obtain ⟨names, -, h⟩ := bind_eq_ok.mp h
  obtain ⟨hdefinitions, haliases, hbases, hsubtypes⟩ :=
    foldl_addCycle_totals r.dependencies.cycles {}
  obtain ⟨hdefinitions', haliases', hbases', hsubtypes'⟩ := generateAll_totals h
  exact ⟨by rw [hdefinitions', hdefinitions]; rfl, by rw [haliases', haliases]; rfl,
    by rw [hbases', hbases]; rfl, by rw [hsubtypes', hsubtypes]; rfl⟩

/--
The main model of a file is a subtype just if the document knows its definition as one. What was built
of the definition is marked as a base only if it comes down to one, so that nothing else marks it then.
-/
theorem generateReserving_marks (hprepare : prepare document options = .ok r)
    (h : r.generateReserving name taken = .ok (file, warnings, hoisted)) :
    ∃ c, r.definitions.lookup name = some c ∧
      file.model.isSubtype = r.polymorphism.isSubtype (Reference.toDefinition name) ∧
      (r.polymorphism.isBase (Reference.toDefinition name) = true ∨ ¬ r.definitions.Bears c →
        file.model.isBase = r.polymorphism.isBase (Reference.toDefinition name)) := by
  obtain ⟨c, hget, -⟩ := (generateReserving_fileOf h).declared
  obtain ⟨built, s₁, hbuilt, hfile⟩ := generateReserving_standing hget h
  obtain ⟨hbears, hsubtype⟩ := hbuilt.bears rfl (prepare_holds hprepare taken)
    (prepare_known hprepare hget)
  have hisBase : file.model.isBase = (built.model.isBase ||
      r.polymorphism.isBase (Reference.toDefinition name)) := hfile.isBase
  have hisSubtype : file.model.isSubtype = (built.model.isSubtype ||
      r.polymorphism.isSubtype (Reference.toDefinition name)) := hfile.isSubtype
  refine ⟨c, hget, by rw [hisSubtype, hsubtype, Bool.false_or], fun hwhy => ?_⟩
  rcases hwhy with hknown | hno
  · rw [hisBase, hknown, Bool.or_true]
  · have hplain : built.model.isBase = false := by
      rw [← Bool.not_eq_true]
      exact fun hbase => hno (hbears hbase)
    rw [hisBase, hplain, Bool.false_or]

/-- The files and the definitions agree on how many have a mark, if they do one by one. -/
theorem Generates.countP_eq {p : String → Bool} {q : ModelFile → Bool}
    (h : r.Generates taken names files)
    (hpq : ∀ name ∈ names, ∀ file taken warnings hoisted,
      r.generateReserving name taken = .ok (file, warnings, hoisted) → q file = p name) :
    files.countP q = names.countP p := by
  induction h with
  | nil => rfl
  | cons hone _ ih =>
    rw [List.countP_cons, List.countP_cons,
      ih fun name hname => hpq name (List.mem_cons_of_mem _ hname), hpq _ List.mem_cons_self _ _ _ _ hone]

/--
**The statistics describe what was generated**, if the definitions are declared as they are counted.
The definitions and subtypes are counted exactly whatever the document says. The bases are those that
the document knows if no other definition comes down to one, and the aliases are the files whose main
declaration is that of an alias if each definition is declared as it is counted.
-/
theorem statistics_describe_files (hprepare : prepare document options = .ok r)
    (h : r.render = .ok (sources, stats)) :
    ∃ names files, r.definitionNames = .ok names ∧ r.generate = .ok (files, stats) ∧
      sources = files.map Kcl.render ∧ stats.definitions = sources.length ∧
      stats.subtypes = names.countP (r.polymorphism.isSubtype <| Reference.toDefinition ·) ∧
      ((∀ name ∈ names, ∀ c, r.definitions.lookup name = some c →
          r.polymorphism.isBase (Reference.toDefinition name) = true ∨ ¬ r.definitions.Bears c) →
        stats.bases = names.countP (r.polymorphism.isBase <| Reference.toDefinition ·)) ∧
      ((∀ name ∈ names, ∀ c, r.definitions.lookup name = some c →
          (c.reference = none → c.Unmixed) ∧ r.DeclaredAsCounted name c) →
        stats.typeAliases = files.countP fun file =>
          (Kcl.declaration file.model).any Kcl.Block.declaresType) := by
  obtain ⟨files, hgenerate, rfl⟩ := render_ok h
  obtain ⟨names, hnames, hall⟩ := generate_generates hgenerate
  obtain ⟨hdefinitions, haliases, hbases, hsubtypes⟩ := generate_totals hgenerate
  simp only [Nat.zero_add] at hdefinitions haliases hbases hsubtypes
  refine ⟨names, files, hnames, hgenerate, rfl, hdefinitions.trans (List.length_map _).symm, ?_,
    fun hbears => ?_, fun hcounted => ?_⟩
  · rw [hsubtypes]
    refine hall.countP_eq fun name _ file taken warnings hoisted hone => ?_
    obtain ⟨c, -, hsubtype, -⟩ := generateReserving_marks hprepare hone
    exact hsubtype
  · rw [hbases]
    refine hall.countP_eq fun name hname file taken warnings hoisted hone => ?_
    obtain ⟨c, hget, -, hbase⟩ := generateReserving_marks hprepare hone
    exact hbase (hbears name hname c hget)
  · rw [haliases]
    -- file by file: counted as an alias just if declared as one
    refine List.countP_congr fun file hfile => ?_
    obtain ⟨name, hname, taken, warnings, hoisted, hone⟩ := hall.exists_of_mem hfile
    obtain ⟨c, hget, -⟩ := (generateReserving_fileOf hone).declared
    obtain ⟨hmix, hcounted⟩ := hcounted name hname c hget
    rw [Kcl.declaresType_declaration, hcounted.alias_iff hprepare hget
      (definitionNames_unexternal hnames hname hget) hmix hone]

end

/-- What is no base, and neither its items nor the one branch to lift come down to one, does not. -/
theorem not_bears {defs : Definitions} (href : c.reference = none) (hbase : c.discriminator = none)
    (hitem : ∀ i, c.items = some (.single i) → i.isInline = false ∧ ¬ defs.Bears i)
    (hlift : c.Unlifted) : ¬ defs.Bears c := by
  intro h
  cases h with
  | ends hd hsome =>
    obtain rfl := hd.of_inline href
    exact absurd (hbase ▸ hsome) (by decide)
  | items hsingle hbears => exact (hitem _ hsingle).2 hbears
  | lifted hb => exact hlift.not_sole _ hb
  | mixed hsingle hinline => exact absurd (hinline.symm.trans (hitem _ hsingle).1) (by decide)

/-- A composition in which no branch stands alone is built of itself. -/
theorem builtOf_self {defs : Definitions} (href : c.reference = none)
    (hlift : c.Unlifted) : defs.BuiltOf c c c :=
  .own href fun b hl => hlift.not_sole b hl.1

/-- Items have no branches beside them in a schema that is composed of nothing. -/
theorem unmixed_of_allOf (href : c.reference = none) (hall : c.allOf = []) : c.Unmixed where
  own _ _ _ := ⟨href, Schema.steady_of_allOf hall⟩
  branches _ hb := absurd (hall ▸ hb.mem) List.not_mem_nil

/-- A pet that is told by its kind, a cat that is one, and a list of sizes. -/
def menagerie : Swagger where
  definitions := [
    ("Pet", { types := ["object"], discriminator := some "kind", required := ["kind"]
              properties := [("kind", .typed "string")] }),
    ("Cat", { allOf := [.referenceTo "Pet",
      { types := ["object"], properties := [("lives", .typed "integer")] }] }),
    ("Sizes", { types := ["array"], items := some (.single (.typed "integer")) })]

/-- Of a base, a subtype and a list, one of each is counted. -/
theorem menagerie_described : ∃ r sources stats files, prepare menagerie {} = .ok r ∧
    r.render = .ok (sources, stats) ∧ r.generate = .ok (files, stats) ∧ stats.definitions = 3 ∧
    stats.subtypes = 1 ∧ stats.bases = 1 ∧
      stats.typeAliases = files.countP fun file =>
        (Kcl.declaration file.model).any Kcl.Block.declaresType := by
  have hprepare : prepare menagerie {} = .ok (ofDefinitions menagerie.definitions) := rfl
  obtain ⟨⟨generated, stats⟩, hgenerate, hlength⟩ :=
    exists_ok_of_any (e := (ofDefinitions menagerie.definitions).generate)
      (p := fun generated => generated.1.length == 3) (by decide +kernel)
  obtain ⟨names, files, hnames, hfiles, -, hdefinitions, hsubtypes, hbases, haliases⟩ :=
    statistics_describe_files hprepare (render_of_generate hgenerate)
  obtain rfl : ["Cat", "Pet", "Sizes"] = names := Except.ok.inj (.trans (by decide +kernel) hnames)
  refine ⟨_, _, stats, files, hprepare, render_of_generate hgenerate, hfiles, ?_, hsubtypes.trans ?_,
    (hbases ?_).trans ?_, haliases ?_⟩
  · rw [hdefinitions, List.length_map]
    exact beq_iff_eq.mp hlength
  · decide +kernel
  · intro name hname c hget
    simp only [List.mem_cons, List.not_mem_nil, or_false] at hname
    rcases hname with rfl | rfl | rfl <;> obtain rfl := Option.some.inj hget
    · -- the cat has no discriminator of its own, and two branches, of which none is put in its place
      exact .inr (not_bears rfl rfl (by simp) (by decide))
    · exact .inl (by decide +kernel)
    · refine .inr (not_bears rfl rfl ?_ (by decide))
      rintro i hi
      obtain rfl : Schema.typed "integer" = i := by simpa using hi
      exact ⟨by decide, not_bears rfl rfl (by simp [Schema.typed]) (by decide)⟩
  · decide +kernel
  · intro name hname c hget
    simp only [List.mem_cons, List.not_mem_nil, or_false] at hname
    rcases hname with rfl | rfl | rfl <;> obtain rfl := Option.some.inj hget
    · have hmix : Schema.Unmixed { allOf := [.referenceTo "Pet",
          { types := ["object"], properties := [("lives", .typed "integer")] }] } :=
        ⟨fun _ hitem => absurd hitem (by simp),
          fun b hb => absurd hb (Schema.Unlifted.not_sole (by decide) b)⟩
      exact ⟨fun _ => hmix, .parts (builtOf_self rfl (by decide)) (.inr (.inl (by simp)))⟩
    · exact ⟨fun _ => unmixed_of_allOf rfl rfl, .parts (builtOf_self rfl (by decide)) (.inl (by simp))⟩
    · exact ⟨fun _ => unmixed_of_allOf rfl rfl, .written (builtOf_self rfl (by decide))
        ⟨rfl, rfl, rfl, rfl, by decide⟩ (by unfold Format.IsBuiltIn; decide +kernel)⟩

/-- An object that declares nothing, a pet that is told by its kind, and a list of pets. -/
def shelter : Swagger where
  definitions := [
    ("Empty", { types := ["object"] }),
    ("Pet", { types := ["object"], discriminator := some "kind", required := ["kind"]
              properties := [("kind", .typed "string")] }),
    ("Pets", { types := ["array"], items := some (.single (.referenceTo "Pet")) })]

/-- The empty object is counted as an alias and the list as a base, and neither is one. -/
theorem shelter_miscounted : ∃ r sources stats files names, prepare shelter {} = .ok r ∧
    r.render = .ok (sources, stats) ∧ r.generate = .ok (files, stats) ∧
    r.definitionNames = .ok names ∧
    stats.typeAliases = 2 ∧
      (files.countP fun file => (Kcl.declaration file.model).any Kcl.Block.declaresType) = 1 ∧
    stats.bases = 2 ∧ names.countP (r.polymorphism.isBase <| Reference.toDefinition ·) = 1 := by
  obtain ⟨⟨files, stats⟩, hgenerate, hfacts⟩ :=
    exists_ok_of_any (e := (ofDefinitions shelter.definitions).generate)
      (p := fun generated => generated.2.typeAliases == 2 && generated.2.bases == 2 &&
        (generated.1.countP fun file =>
          (Kcl.declaration file.model).any Kcl.Block.declaresType) == 1)
      (by decide +kernel)
  simp only [Bool.and_eq_true, beq_iff_eq] at hfacts
  exact ⟨_, _, stats, files, ["Empty", "Pet", "Pets"], rfl, render_of_generate hgenerate, hgenerate,
    by decide +kernel, hfacts.1.1, hfacts.2, hfacts.1.2, by decide +kernel⟩

end Run

end KclModels
