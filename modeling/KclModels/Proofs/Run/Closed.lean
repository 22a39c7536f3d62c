import KclModels.Proofs.Canonical.Settling
import KclModels.Proofs.Dependencies.Closure
import KclModels.Proofs.Run.Paths
import KclModels.Text.AsciiTable

/-!
# A selection is closed under dependencies

Which definitions are generated is decided before any is built, along the references of the document.
What a file depends on is found while it is built, which follows references as well, but also builds
definitions once more for their properties. The invariant that relates the two is that a frame knows
no definitions but those that are reached from that of its file: every schema that is built stands in
one of these, or was made on the way.
-/

namespace KclModels

/-- Each name is defined once, and every name that is referred to is defined. -/
structure Definitions.Complete (definitions : Definitions) : Prop where
  nodup : (Assoc.keys definitions).Nodup
  defined : ∀ n c, definitions.lookup n = some c → ∀ m ∈ c.references, m ∈ Assoc.keys definitions

namespace Definitions

variable {definitions : Definitions} {a b : String} {c : Schema}

/-- The definitions that are reached from one along references. -/
def Reaches (definitions : Definitions) : String → String → Prop :=
  (Dependencies.ofDefinitions definitions).Reaches

/-- A definition that is reached has a schema, with references to what is reached. -/
theorem Complete.stored (h : definitions.Complete) (hc : definitions.lookup a = some c)
    (hb : definitions.Reaches a b) : ∃ d, definitions.lookup b = some d ∧
      d.Known (definitions.Reaches a) unasked := by
  have hexists : ∃ d, definitions.lookup b = some d := by
    rcases hb.cases_tail with rfl | ⟨n, -, hstep⟩
    · exact ⟨c, hc⟩
    · obtain ⟨-, -, -, hkey⟩ := (Dependencies.mem_successors_iff h.nodup).mp hstep
      exact Option.isSome_iff_exists.mp (Assoc.has_iff_mem_keys.mpr hkey)
  obtain ⟨d, hd⟩ := hexists
  refine ⟨d, hd, Schema.known_unasked.mpr fun t ht m hm => ?_⟩
  have hmem : m ∈ d.references := Schema.mem_references.mpr ⟨t, ht, hm⟩
  exact hb.tail ((Dependencies.mem_successors_iff h.nodup).mpr ⟨d, hd, hmem, h.defined b d hd m hmem⟩)

end Definitions

namespace Run

variable {r : Run} {a name n : String} {taken names selected hoisted : List String}
variable {file : ModelFile} {files : List ModelFile} {warnings : List Warning} {stats : Statistics}
variable {document : Swagger} {options : Options}

/-! ## One file -/

section

variable {tr : Text.Transliteration}

/-- **A file depends on definitions that are reached from its own.** -/
theorem dependsOn_reached (hd : r.definitions.Complete)
    (h : r.generateReserving name taken = .ok (file, warnings, hoisted)) (hn : n ∈ file.dependsOn) :
    n ≠ name ∧ n ∈ Assoc.keys r.definitions ∧ r.definitions.Reaches name n := by
  obtain ⟨s', hbuild, -⟩ := generateReserving_ok h
  obtain ⟨f, s₁, hf, -, rfl⟩ := Build.file_cases hbuild
  obtain ⟨c, -, -, -, -, hget, -⟩ := Build.fileFrame_cases hf
  have hstored : ∀ m, r.definitions.Reaches name m →
      ∃ d, r.definitions.lookup m = some d ∧ d.Known (r.definitions.Reaches name) unasked :=
    fun m hm => hd.stored hget hm
  obtain ⟨d, hd, hknown⟩ := hstored name .refl
  obtain rfl := Option.some.inj (hget.symm.trans hd)
  obtain ⟨-, hlinked, -⟩ := fileFrame_linked hget hknown hstored hf
  rw [(Build.assemble_facts r.setting name s₁.registry f).2.2, Build.dependsOn, Assoc.mem_nameSet,
    List.mem_filter] at hn
  obtain ⟨hdepends, hother⟩ := hn
  simp only [Bool.and_eq_true, bne_iff_ne, ne_eq, Bool.not_eq_true'] at hother
  obtain ⟨⟨hne, -⟩, hextra⟩ := hother
  -- what does not come from the document was taken out, and that is no dependency
  rcases hlinked.dependencies n hdepends with hreached | hkey
  · obtain ⟨e, he, -⟩ := hstored n hreached
    exact ⟨hne, Assoc.has_iff_mem_keys.mp (Option.isSome_iff_exists.mpr ⟨e, he⟩), hreached⟩
  · rw [Assoc.has_iff_mem_keys.mpr hkey] at hextra
    exact absurd hextra (by decide)

/-! ## The selection -/

/-- **What is selected needs nothing that is not selected.** -/
theorem selection_closed (hdeps : r.dependencies = .ofDefinitions r.definitions)
    (hs : r.selection = .ok selected) (ha : a ∈ selected) (hn : n ∈ Assoc.keys r.definitions)
    (hreaches : r.definitions.Reaches a n) : n ∈ selected := by
  unfold selection at hs
  split at hs
  · obtain rfl := Except.ok.inj hs
    exact Assoc.mem_nameSet.mpr hn
  · split at hs
    · exact absurd hs (by simp)
    · obtain rfl := Except.ok.inj hs
      clear hn
      induction hreaches with
      | refl => exact ha
      | tail _ hstep ih => exact Dependencies.closure_closed ih (hdeps ▸ hstep)

/-- The definitions to generate are those of the selection that no existing type stands for. -/
theorem definitionNames_ok (h : r.definitionNames = .ok names) :
    ∃ selected, r.selection = .ok selected ∧
      ∀ n, n ∈ names ↔ n ∈ selected ∧ r.isExternal n = false := by
  obtain ⟨selected, hs, rfl⟩ := map_eq_ok.mp h
  refine ⟨selected, hs, fun n => ?_⟩
  rw [List.mem_filter, Bool.not_eq_true']

/-! ## A whole run -/

/-- A document made ready is complete, and its dependencies are those between its definitions. -/
theorem prepare_complete (h : prepare document options = .ok r)
    (hkeys : (Assoc.keys document.definitions).Nodup) :
    r.definitions.Complete ∧ r.dependencies = .ofDefinitions r.definitions := by
  obtain ⟨hcanonical, hdependencies⟩ := prepare_ok h
  refine ⟨⟨Canonical.canonicalize_nodup hcanonical hkeys, fun n c hget m hm => ?_⟩, hdependencies⟩
  obtain ⟨t, ht, hname⟩ := Schema.mem_references.mp hm
  exact Assoc.has_iff_mem_keys.mp ((prepare_known h hget t ht).1 m hname)

/--
**A selected run is closed under dependencies.** The definitions to generate are in order, each once,
and for none stands an existing type. There is a file for each, and what a file depends on is another
definition, which is generated as well or has an existing type stand for it.
-/
theorem selection_generates_dependencies (hkeys : (Assoc.keys document.definitions).Nodup)
    (hprepare : prepare document options = .ok r) (h : r.generate = .ok (files, stats)) :
    ∃ names, r.definitionNames = .ok names ∧ names.Pairwise (· < ·) ∧ names.Nodup ∧
      (∀ n ∈ names, r.isExternal n = false) ∧ files.map (·.model.name) = names ∧
      ∀ file ∈ files, ∀ n ∈ file.dependsOn, n ∈ Assoc.keys r.definitions ∧ n ≠ file.model.name ∧
        (n ∈ names ∨ r.isExternal n = true) := by
  obtain ⟨hcomplete, hdeps⟩ := prepare_complete hprepare hkeys
  obtain ⟨names, hnames, hall⟩ := generate_generates h
  obtain ⟨selected, hs, hmem⟩ := definitionNames_ok hnames
  have hsorted := definitionNames_sorted hnames
  refine ⟨names, hnames, hsorted, Assoc.nodup_of_sorted hsorted, fun n hn => ((hmem n).mp hn).2,
    hall.map_name, fun file hf n hn => ?_⟩
  obtain ⟨name, hname, taken, warnings, hoisted, hone⟩ := hall.exists_of_mem hf
  obtain ⟨hne, hkey, hreached⟩ := dependsOn_reached hcomplete hone hn
  refine ⟨hkey, (generateReserving_fileOf hone).title ▸ hne, ?_⟩
  have hselected := selection_closed hdeps hs ((hmem name).mp hname).1 hkey hreached
  cases hexternal : r.isExternal n with
  | true => exact Or.inr rfl
  | false => exact Or.inl ((hmem n).mpr ⟨hselected, hexternal⟩)

end

/-- An order with a label and a shop; the shop exists already, and nothing needs the receipt. -/
def sales : Swagger where
  definitions := [
    ("Order", { types := ["object"], properties := [("label", .referenceTo "Label"),
      ("shop", .referenceTo "Shop")] }),
    ("Label", { types := ["object"], properties := [
      ("owner", { reference := some "#/definitions/Order/properties/label" })] }),
    ("Receipt", { types := ["object"], properties := [("order", .referenceTo "Order")] }),
    ("Shop", { types := ["object"], hints := { existing := some { name := "Store" } } })]

theorem sales_selection : ∃ r files stats, prepare sales { names := ["Order"] } = .ok r ∧
    r.generate = .ok (files, stats) ∧ files.map (·.dependsOn) = [["OrderLabel"], ["Label", "Shop"],
      ["Label"]] ∧
    ∃ names, r.definitionNames = .ok names ∧ names.Pairwise (· < ·) ∧
      files.map (·.model.name) = names ∧ ∀ file ∈ files, ∀ n ∈ file.dependsOn,
        n ∈ Assoc.keys r.definitions ∧ (n ∈ names ∨ r.isExternal n = true) := by
  obtain ⟨r, hprepare, hgenerate⟩ := exists_ok_of_any (e := prepare sales { names := ["Order"] })
    (p := fun r => r.generate.toOption.any fun generated =>
      generated.1.map (·.dependsOn) == [["OrderLabel"], ["Label", "Shop"], ["Label"]])
    (by decide +kernel)
  obtain ⟨⟨files, stats⟩, h, hdepends⟩ := exists_ok_of_any hgenerate
  obtain ⟨names, hnames, hsorted, -, -, hfiles, hclosed⟩ :=
    selection_generates_dependencies (by decide) hprepare h
  refine ⟨r, files, stats, hprepare, h, by simpa using hdepends, names, hnames, hsorted, hfiles, ?_⟩
  exact fun file hf n hn => ⟨(hclosed file hf n hn).1, (hclosed file hf n hn).2.2⟩

end Run

end KclModels
