import KclModels.Proofs.Build.Sources
import KclModels.Proofs.Run.Transparency
import KclModels.Text.AsciiTable

/-!
# What check blocks cover

The attributes of a schema are those that its definition offers, and each is checked for the
conditions on its values and on their elements or values. What is nested deeper is not checked at all,
so that the check block of a schema covers every level of its arrays and maps just if no condition
stands below the second level.
-/

namespace KclModels

open Build

variable {r r' : Registry} {defs : Definitions} {c : Schema} {e : String × Schema} {m m' a : Model}
variable {path : List Part} {k : Condition}

namespace Kcl

/--
The schema that the model is declared as has a line in its check block that asks for the condition of
the values which the parts lead to from the attribute, guarded if the attribute may be absent.
-/
def AsksFor (m a : Model) (path : List Part) (k : Condition) : Prop :=
  ∃ check, Checks m a check ∧ check.Asks path k ∧
    HasCheck (declaration m) (checkText (Naming.attributeName a.name) check ++ guardText a)

theorem Checks.asksFor {check : Check} (h : Checks m a check) (hasks : check.Asks path k) :
    AsksFor m a path k :=
  ⟨check, h, hasks, h.hasCheck⟩

theorem AsksFor.length_le (h : AsksFor m a path k) : path.length ≤ 1 := by
  obtain ⟨check, -, hasks, -⟩ := h
  exact hasks.length_le

end Kcl

/--
Each attribute of the schema that the model is declared as is of something that `c` offers. If it can
be named and is made of arrays and maps, the check block asks for a condition of one of its levels if
and only if the level is the first or the second.
-/
def Model.CoversLevels (r : Registry) (c : Schema) (m : Model) : Prop :=
  ∀ a ∈ Kcl.attributes m m.parentBranch, ∃ e, r.Offers c e ∧ a.name = e.1 ∧
    (Kcl.isNameable a = true → e.2.Nests → ∀ path d k, e.2.Level path d → k ∈ d.conditions →
      (Kcl.AsksFor m a path k ↔ path.length ≤ 1))

/-- **The conditions on the values of an attribute and on their parts are covered, and only these.** -/
theorem Model.ChecksFor.covered {d : Schema} (h : a.ChecksFor e)
    (hschema : Kcl.isAlias m m.declaredName = false) (ha : a ∈ Kcl.attributes m m.parentBranch)
    (hname : Kcl.isNameable a = true) (hnests : e.2.Nests) (hlevel : e.2.Level path d)
    (hk : k ∈ d.conditions) : Kcl.AsksFor m a path k ↔ path.length ≤ 1 := by
  refine ⟨fun hasks => hasks.length_le, fun hle => ?_⟩
  obtain ⟨check, hcheck, hasks⟩ := hlevel.exists_check hle hk
  exact Kcl.Checks.asksFor ⟨hschema, ha, hname, h.checks hnests check hcheck⟩ hasks

theorem Model.Drawn.coversLevels (h : m.Drawn r c) (halike : m.Alike m')
    (hschema : Kcl.isAlias m' m'.declaredName = false) : m'.CoversLevels r c := by
  intro a ha
  obtain ⟨e, he, hchecks⟩ := h.attribute halike ha
  exact ⟨e, he, hchecks.name, fun hname hnests _ _ _ => hchecks.covered hschema ha hname hnests⟩

/-- **What a definition of the document offers, it offers by the document.** -/
theorem Registry.Offers.back (h : r'.Offers c e) (hc : defs.Canonical)
    (hkeeps : ∀ n d, defs.lookup n = some d → r'.get? n = some d)
    (hknown : c.Known (fun n => (defs.lookup n).isSome = true) unasked) :
    (Registry.ofDefinitions defs).Offers c e := by
  induction h with
  | own he => exact .own he
  | branch hb _ ih => exact .branch hb (ih (hknown.child (Schema.branch_mem_children hb)))
  | reference hn hd _ ih =>
    obtain ⟨d, hget, hd'⟩ := hc.stored Definitions.bare_unasked (hknown.here.1 _ hn)
    obtain rfl := Option.some.inj ((hkeeps _ d hget).symm.trans hd)
    exact .reference hn hget (ih hd')

namespace Run

variable {r : Run} {name : String} {taken : List String} {file : ModelFile} {s' : Session}

section

variable {tr : Text.Transliteration}

/--
**What check blocks cover.** For the definition and for each schema beside it, every attribute is one
that the schema in the document offers. The conditions on its values and on their elements or values
are in the check block, and those on what is nested deeper are not. The file imports `regex` if and
only if a check matches a pattern, or a package of that path is imported under its own name.
-/
theorem checks_cover_levels_iff (hc : r.definitions.Canonical)
    (hget : r.definitions.lookup name = some c) (h : r.buildFile name taken = (.ok file, s')) :
    (Kcl.isAlias file.model file.model.declaredName = false →
      file.model.CoversLevels (Registry.ofDefinitions r.definitions) c) ∧
    (∀ e ∈ file.extras, ∃ tuple d, s'.registry.get? e.name = some d ∧ r.definitions.Site tuple d ∧
      (Kcl.isAlias e e.declaredName = false → e.CoversLevels s'.registry d)) ∧
    (Kcl.regexLine ∈ Kcl.preamble file ↔
      (∃ m ∈ file.model :: file.extras, ∃ a check, Kcl.Checks m a check ∧ Kcl.MatchesPattern check) ∨
      ∃ i ∈ file.imports, i.renamed = false ∧ i.path = "regex") := by
  refine ⟨fun hschema => ?_, fun e he => ?_, Kcl.regexLine_mem_preamble file⟩
  · obtain ⟨f, s₁, hf, -, hfile⟩ := file_cases h
    have hstored : (r.session taken).registry.get? name = some c := hget
    have hknown := hc.known Definitions.bare_unasked hget
    obtain ⟨hgrows, -, -⟩ :=
      fileFrame_linked hstored hknown (fun _ hn => hc.stored Definitions.bare_unasked hn) hf
    have hdrawn : (declare r.setting name s₁.registry f.model).Drawn s₁.registry c :=
      (fileFrame_drawn hstored hf).same ⟨rfl, rfl, rfl, rfl, rfl⟩
    -- collecting imports changes spellings only
    have halike : (declare r.setting name s₁.registry f.model).Alike file.model := by
      rw [hfile, (assemble_facts r.setting name s₁.registry f).1]
      exact Imports.collectRendered_alike _ _ _
    intro a ha
    obtain ⟨e, he, hrest⟩ := hdrawn.coversLevels halike hschema a ha
    exact ⟨e, he.back hc hgrows.keeps hknown, hrest⟩
  · obtain ⟨m, halike, g, g', s₂, s₃, -, hend, hfresh, -, -, hstored, hsite, hbuilds, hcopies⟩ :=
      extra_origin (Definitions.sites r.definitions) (fun _ _ => Definitions.site_of_lookup) h he
    refine ⟨g.tuple, g.schema, hstored, hsite.here, fun hschema => ?_⟩
    have hdrawn := ((hbuilds.draws hfresh).model.mono hend (.refl _ _)).same
      ⟨hcopies.properties, hcopies.allOf, hcopies.reference, hcopies.extraItems, hcopies.allowsItems⟩
    exact hdrawn.coversLevels halike hschema

end

/-- A label is a short word in capitals. -/
def label : Schema :=
  { types := ["string"], minLength := some 1, maxLength := some 8, pattern := some "^[A-Z]+$" }

/-- The labels of a shelf differ, and each place on it has a label. -/
def shelf : Schema :=
  { types := ["object"], required := ["labels"], properties := [
      ("labels", { types := ["array"], minItems := some 1, uniqueItems := true
                   items := some (.single label) }),
      ("places", { types := ["object"], additionalProperties := some (.schema label) })] }

def shelves : Run := ofDefinitions [("Shelf", shelf)]

/-- The lines of the check block of a shelf. -/
def shelfChecks : List String := [
  "len(labels) >= 1", "isunique(labels)",
  "all item in labels \x7b len(item) <= 8 and len(item) >= 1 and regex.match(item, r\"^[A-Z]+$\") \x7d",
  "all _, value in places \x7b len(value) <= 8 and len(value) >= 1 and " ++
    "regex.match(value, r\"^[A-Z]+$\") \x7d if places is not None"]

theorem nests_label : label.Nests := .leaf ⟨rfl, rfl, rfl⟩ (by decide)

theorem nests_shelf : ∀ e ∈ shelf.properties, e.2.Nests := by
  simp only [shelf, List.forall_mem_cons]
  refine ⟨.array ⟨⟨rfl, .inl rfl, rfl, rfl⟩, rfl, rfl, rfl⟩ nests_label,
    .map ⟨⟨rfl, .inl rfl, rfl, rfl⟩, rfl, rfl, rfl, rfl⟩ nests_label,
    fun _ h => absurd h List.not_mem_nil⟩

theorem shelf_levels_covered : shelves.definitions.Canonical ∧
    shelves.definitions.lookup "Shelf" = some shelf ∧ (∀ e ∈ shelf.properties, e.2.Nests) ∧
    ∃ file s', shelves.buildFile "Shelf" [] = (.ok file, s') ∧
      Kcl.isAlias file.model file.model.declaredName = false ∧
      Kcl.checkLines (Kcl.attributes file.model file.model.parentBranch) = shelfChecks ∧
      (Kcl.isAlias file.model file.model.declaredName = false →
        file.model.CoversLevels (Registry.ofDefinitions shelves.definitions) shelf) ∧
      (∀ e ∈ file.extras, ∃ tuple d, s'.registry.get? e.name = some d ∧
        shelves.definitions.Site tuple d ∧
        (Kcl.isAlias e e.declaredName = false → e.CoversLevels s'.registry d)) ∧
      (Kcl.regexLine ∈ Kcl.preamble file ↔
        (∃ m ∈ file.model :: file.extras, ∃ a check,
          Kcl.Checks m a check ∧ Kcl.MatchesPattern check) ∨
        ∃ i ∈ file.imports, i.renamed = false ∧ i.path = "regex") := by
  have hc : shelves.definitions.Canonical := Definitions.canonical_of_check (by decide +kernel)
  obtain ⟨file, s', h, hfacts⟩ := exists_built_of_any shelves "Shelf" []
    (p := fun file _ => !Kcl.isAlias file.model file.model.declaredName &&
      Kcl.checkLines (Kcl.attributes file.model file.model.parentBranch) == shelfChecks)
    (by decide +kernel)
  rw [Bool.and_eq_true, Bool.not_eq_true', beq_iff_eq] at hfacts
  exact ⟨hc, rfl, nests_shelf, file, s', h, hfacts.1, hfacts.2, checks_cover_levels_iff hc rfl h⟩

/-- The cells of a grid are short words. -/
def cell : Schema := { types := ["string"], maxLength := some 5 }

/-- The rows of a grid have no conditions of their own. -/
def rowsOfCells : Schema :=
  { types := ["array"], items := some (.single { types := ["array"], items := some (.single cell) }) }

def grid : Schema := { types := ["object"], properties := [("rows", rowsOfCells)] }

def grids : Run := ofDefinitions [
  ("Grid", grid),
  ("board.Move", { types := ["object"], properties := [("rule", .referenceTo "regex.Rule")] }),
  ("regex.Rule", { types := ["object"], properties := [("text", .typed "string")] })]

/--
The cells of a grid are two parts away from its rows, and the schema has no check block at all. And
the file of a move imports `regex`, which is the package of its rule, though it checks nothing.
-/
theorem grid_cells_unchecked : grids.definitions.Canonical ∧
    grids.definitions.lookup "Grid" = some grid ∧ ("rows", rowsOfCells) ∈ grid.properties ∧
    rowsOfCells.Nests ∧ rowsOfCells.Level [.items, .items] cell ∧
    Condition.maxLength 5 ∈ cell.conditions ∧
    (∃ file s', grids.buildFile "Grid" [] = (.ok file, s') ∧
      Kcl.isAlias file.model file.model.declaredName = false ∧
      Kcl.checkBlock (Kcl.attributes file.model file.model.parentBranch) = [] ∧
      ∃ a ∈ Kcl.attributes file.model file.model.parentBranch, a.name = "rows" ∧
        Kcl.isNameable a = true) ∧
    ∃ file s', grids.buildFile "board.Move" [] = (.ok file, s') ∧
      Kcl.regexLine ∈ Kcl.preamble file ∧
      ∀ m ∈ file.model :: file.extras, Kcl.checkLines (Kcl.attributes m m.parentBranch) = [] := by
  -- rows of cells: two arrays around a leaf
  have hnests : rowsOfCells.Nests :=
    .array ⟨⟨rfl, .inl rfl, rfl, rfl⟩, rfl, rfl, rfl⟩
      (.array ⟨⟨rfl, .inl rfl, rfl, rfl⟩, rfl, rfl, rfl⟩ (.leaf ⟨rfl, rfl, rfl⟩ (by decide)))
  obtain ⟨file, s', h, hgrid⟩ := exists_built_of_any grids "Grid" []
    (p := fun file _ => !Kcl.isAlias file.model file.model.declaredName &&
      (Kcl.checkLines (Kcl.attributes file.model file.model.parentBranch)).isEmpty &&
      (Kcl.attributes file.model file.model.parentBranch).any fun a =>
        a.name == "rows" && Kcl.isNameable a) (by decide +kernel)
  obtain ⟨file', s'', h', hmove⟩ := exists_built_of_any grids "board.Move" []
    (p := fun file _ => (file.imports.any fun i => !i.renamed && i.path == "regex") &&
      (file.model :: file.extras).all fun m =>
        (Kcl.checkLines (Kcl.attributes m m.parentBranch)).isEmpty) (by decide +kernel)
  simp only [Bool.and_eq_true, Bool.not_eq_true', List.any_eq_true, List.all_eq_true, beq_iff_eq,
    List.isEmpty_iff] at hgrid hmove
  obtain ⟨⟨hschema, hlines⟩, hnamed⟩ := hgrid
  refine ⟨Definitions.canonical_of_check (by decide +kernel), rfl, List.mem_singleton_self _, hnests,
    .items rfl (.items rfl (.here cell)), Constraints.mem_conditions.mpr rfl,
    ⟨file, s', h, hschema, ?_, hnamed⟩, file', s'', h', (Kcl.regexLine_mem_preamble file').mpr (.inr hmove.1), hmove.2⟩
  rw [Kcl.checkBlock, hlines]
  rfl

end Run

end KclModels
