import KclModels.Proofs.Registry.Growth
import KclModels.Proofs.Run.Files
import KclModels.Proofs.Run.Paths
import KclModels.Text.AsciiTable

/-!
# Names that are given out once in a run

The schemas beside those of the definitions have names that the run gave out. Each definition is
generated without the names that were given out before it, whether their schemas reached a file or
not, so no name is used for two schemas, in one file or in two; and none is that of a definition.
-/

namespace KclModels.Run

variable {r : Run} {taken names : List String} {files : List ModelFile} {stats : Statistics}

/-- The names of the schemas of all files beside those of the definitions. -/
def extraNames (files : List ModelFile) : List String :=
  files.flatMap fun file => file.extras.map (·.name)

section

variable {tr : Text.Transliteration}

/-- The names are new as long as those given out before are avoided. -/
theorem Generates.extraNames_fresh (h : r.Generates taken names files) :
    (extraNames files).Nodup ∧ ∀ n ∈ extraNames files, n ∉ taken ∧
      r.definitions.lookup n = none ∧ Naming.Capital n := by
  induction h with
  | nil => exact ⟨List.nodup_nil, fun n hn => absurd hn List.not_mem_nil⟩
  | cons hone _ ih =>
    rename_i taken names hoisted file warnings files _
    have hfile := generateReserving_fileOf hone
    obtain ⟨hnodup, hrest⟩ := ih
    have hextras : ∀ n ∈ file.extras.map (·.name), n ∈ hoisted := by
      intro n hn
      obtain ⟨e, he, rfl⟩ := List.mem_map.mp hn
      exact (hfile.extras e he).1
    rw [extraNames, List.flatMap_cons]
    refine ⟨hfile.nodup.append hnodup fun n hn hn' => ?_, fun n hn => ?_⟩
    · exact (hrest n hn').1 (List.mem_append_right taken (hextras n hn))
    · rcases List.mem_append.mp hn with hn | hn
      · exact hfile.fresh n (hextras n hn)
      · obtain ⟨hfree, hrest⟩ := hrest n hn
        exact ⟨fun hmem => hfree (List.mem_append_left hoisted hmem), hrest⟩

/--
**Names are given out once in a run**, whichever way texts are spelled in ASCII. The schemas beside
those of the definitions have names that are all different, are none of a definition and are declared
as they are. And however a registry is asked for names, the next one is new.
-/
theorem extra_names_fresh (h : r.generate = .ok (files, stats)) :
    (extraNames files).Nodup ∧
      (∀ n ∈ extraNames files, n ∉ Assoc.keys r.definitions ∧ Naming.Declarable n) ∧
      ∀ (registry : Registry) (earlier : List (String × Option Schema)) (base : String)
        (c? : Option Schema),
        Registry.New registry (registry.answers earlier).1 (registry.answers earlier).2
          ((registry.answers earlier).2.answer base c?).1
          ((registry.answers earlier).2.answer base c?).2 := by
  obtain ⟨names, -, hall⟩ := generate_generates h
  obtain ⟨hnodup, hfresh⟩ := hall.extraNames_fresh
  refine ⟨hnodup, fun n hn => ?_, Registry.next_name_new⟩
  obtain ⟨-, hnone, hcapital⟩ := hfresh n hn
  refine ⟨fun hkey => ?_, Naming.declarable_of_capital hcapital⟩
  have hhas := Assoc.has_iff_mem_keys.mpr hkey
  rw [Assoc.has, hnone] at hhas
  exact absurd hhas (by decide)

end

/-- Two definitions that ask for one name, since ASCII has one spelling for both. -/
def rivals : Run := ofDefinitions [
  ("a.Order", { types := ["object"], properties := [
    ("owner", { types := ["object"], properties := [("name", .typed "string")] })] }),
  ("aOrder", { types := ["object"], properties := [
    ("öwner", { types := ["object"], properties := [("label", .typed "string")] })] })]

theorem rivals_extra_names_fresh : ∃ files stats, rivals.generate = .ok (files, stats) ∧
    extraNames files = ["AOrderOwner", "AOrderOwner1"] ∧ (extraNames files).Nodup ∧
      "AOrderOwner1" ∉ Assoc.keys rivals.definitions ∧ Naming.Declarable "AOrderOwner1" := by
  obtain ⟨⟨files, stats⟩, h, hnames⟩ := exists_ok_of_any (e := rivals.generate)
    (p := fun generated => extraNames generated.1 == ["AOrderOwner", "AOrderOwner1"])
    (by decide +kernel)
  have hnames : extraNames files = ["AOrderOwner", "AOrderOwner1"] := by simpa using hnames
  obtain ⟨hnodup, hfresh, -⟩ := extra_names_fresh h
  have hsecond := hfresh "AOrderOwner1" (by simp [hnames])
  exact ⟨files, stats, h, hnames, hnodup, hsecond.1, hsecond.2⟩

end KclModels.Run

/-!
## Declarations of a package

All files of a package share its names. Names that the run gives out are kept apart from the names of
definitions, but as those stand in the document: a definition `x.y.Foo` is declared as `Foo`, and one
that asks for a name under that. So a name that was given out may meet a definition that is declared
under it, and two definitions may be declared under one name. Nothing else is declared twice.
-/

namespace KclModels.Run

variable {r : Run} {a b n package : String} {taken names hoisted : List String}
variable {file : ModelFile} {files : List ModelFile} {stats : Statistics}

/-- The names that a file declares. -/
def declarations (file : ModelFile) : List String :=
  file.model.declaredName :: file.extras.map (·.declaredName)

/-- The names that the files of a package declare. -/
def declarationsOf (package : String) (files : List ModelFile) : List String :=
  (files.filter (·.package = package)).flatMap declarations

/-- The name that a definition is declared under. -/
def declaredAs (r : Run) (name : String) : Option String :=
  (r.definitions.lookup name).map (·.declaredName name)

/-- The run may give out the name: it is that of no definition, and is put together of words. -/
structure MayGiveOut (r : Run) (n : String) : Prop where
  free : n ∉ Assoc.keys r.definitions
  capital : Naming.Capital n

/--
In each package the definitions are declared under names of their own, and none is declared under a
name that was given out for the package.
-/
structure Apart (r : Run) (names : List String) (files : List ModelFile) : Prop where
  definitions : ∀ a ∈ names, ∀ b ∈ names, a ≠ b → r.options.packageOf a = r.options.packageOf b →
    r.declaredAs a ≠ r.declaredAs b
  givenOut : ∀ a ∈ names, ∀ file ∈ files, file.package = r.options.packageOf a →
    ∀ e ∈ file.extras, r.declaredAs a ≠ some e.name

instance (r : Run) (names : List String) (files : List ModelFile) : Decidable (r.Apart names files) :=
  decidable_of_iff
    ((∀ a ∈ names, ∀ b ∈ names, a ≠ b → r.options.packageOf a = r.options.packageOf b →
        r.declaredAs a ≠ r.declaredAs b) ∧
      ∀ a ∈ names, ∀ file ∈ files, file.package = r.options.packageOf a →
        ∀ e ∈ file.extras, r.declaredAs a ≠ some e.name)
    ⟨fun h => ⟨h.1, h.2⟩, fun h => ⟨h.definitions, h.givenOut⟩⟩

/-! ### One file -/

theorem FileOf.declaredAs (h : r.FileOf a taken file hoisted) :
    r.declaredAs a = some file.model.declaredName := by
  obtain ⟨c, hc, hdeclared⟩ := h.declared
  rw [Run.declaredAs, hc, Option.map_some, hdeclared]

/-- The other schemas of a file are declared under their names. -/
theorem FileOf.declarations_eq (h : r.FileOf a taken file hoisted) :
    declarations file = file.model.declaredName :: file.extras.map (·.name) := by
  rw [declarations, List.map_congr_left fun e he => (h.extras e he).2]

/-- Names that were given out for a file may be given out. -/
theorem FileOf.mayGiveOut (h : r.FileOf a taken file hoisted) (hn : n ∈ hoisted) :
    r.MayGiveOut n := by
  obtain ⟨-, hnone, hcapital⟩ := h.fresh n hn
  refine ⟨fun hkey => ?_, hcapital⟩
  have hhas := Assoc.has_iff_mem_keys.mpr hkey
  rw [Assoc.has, hnone] at hhas
  exact absurd hhas (by decide)

/-- The names of a file are different just if none given out is that of the definition. -/
theorem FileOf.nodup_declarations_iff (h : r.FileOf a taken file hoisted) :
    (declarations file).Nodup ↔ ∀ e ∈ file.extras, r.declaredAs a ≠ some e.name := by
  rw [h.declarations_eq, List.nodup_cons, and_iff_left h.nodup, List.mem_map, h.declaredAs]
  simp only [ne_eq, Option.some.injEq, not_exists, not_and, eq_comm]

/-! ### All files -/

theorem mem_declarationsOf :
    n ∈ declarationsOf package files ↔
      ∃ file ∈ files, file.package = package ∧ n ∈ declarations file := by
  simp only [declarationsOf, List.mem_flatMap, List.mem_filter, decide_eq_true_eq, and_assoc]

/-- One more file is apart from the others just if it is by itself, and from those of its package. -/
theorem nodup_declarationsOf_cons :
    (∀ package, (declarationsOf package (file :: files)).Nodup) ↔
      (declarations file).Nodup ∧ (∀ package, (declarationsOf package files).Nodup) ∧
        (declarations file).Disjoint (declarationsOf file.package files) := by
  have hsame : declarationsOf file.package (file :: files) =
      declarations file ++ declarationsOf file.package files := by
    rw [declarationsOf, List.filter_cons_of_pos (by simp), List.flatMap_cons, declarationsOf]
  have hother : ∀ package, file.package ≠ package →
      declarationsOf package (file :: files) = declarationsOf package files := fun package hne => by
    rw [declarationsOf, List.filter_cons_of_neg (by simpa using hne), declarationsOf]
  refine ⟨fun h => ?_, fun ⟨hfile, hrest, hdisjoint⟩ package => ?_⟩
  · obtain ⟨hfile, hrest, hdisjoint⟩ := List.nodup_append'.mp (hsame ▸ h file.package)
    refine ⟨hfile, fun package => ?_, hdisjoint⟩
    by_cases hpackage : file.package = package
    · exact hpackage ▸ hrest
    · exact hother package hpackage ▸ h package
  · by_cases hpackage : file.package = package
    · subst hpackage
      exact hsame ▸ List.nodup_append'.mpr ⟨hfile, hrest file.package, hdisjoint⟩
    · exact hother package hpackage ▸ hrest package

section

variable {tr : Text.Transliteration}

/-- The files of a package declare the definitions of the package and the names given out for it. -/
theorem Generates.mem_declarationsOf_iff (h : r.Generates taken names files) :
    n ∈ declarationsOf package files ↔
      (∃ b ∈ names, r.options.packageOf b = package ∧ r.declaredAs b = some n) ∨
        ∃ file ∈ files, file.package = package ∧ ∃ e ∈ file.extras, e.name = n := by
  induction h with
  | nil => simp [declarationsOf]
  | cons hone _ ih =>
    have hfile := generateReserving_fileOf hone
    rw [mem_declarationsOf] at ih ⊢
    simp only [List.mem_cons, exists_eq_or_imp, ih, hfile.declarations_eq, hfile.declaredAs,
      hfile.package, List.mem_map, Option.some.injEq, and_or_left, eq_comm (a := n)]
    exact or_or_or_comm

/-- The names of a file are not those of later files just if no definition is in the way. -/
theorem Generates.disjoint_iff (hfile : r.FileOf a taken file hoisted)
    (h : r.Generates (taken ++ hoisted) names files) :
    (declarations file).Disjoint (declarationsOf file.package files) ↔
      (∀ b ∈ names, r.options.packageOf b = file.package → r.declaredAs a ≠ r.declaredAs b ∧
          ∀ e ∈ file.extras, r.declaredAs b ≠ some e.name) ∧
        ∀ later ∈ files, later.package = file.package →
          ∀ e ∈ later.extras, r.declaredAs a ≠ some e.name := by
  rw [hfile.declarations_eq, List.disjoint_left, hfile.declaredAs]
  simp only [List.mem_cons, h.mem_declarationsOf_iff, forall_eq_or_imp, List.mem_map]
  refine ⟨fun ⟨hown, hextras⟩ => ⟨fun b hb hpackage => ⟨fun hsame => ?_, fun e he hsame => ?_⟩,
    fun later hlater hpackage e he hsame => ?_⟩, fun ⟨hdefs, hlater⟩ => ⟨?_, ?_⟩⟩
  · exact hown (Or.inl ⟨b, hb, hpackage, hsame.symm⟩)
  · exact hextras e.name ⟨e, he, rfl⟩ (Or.inl ⟨b, hb, hpackage, hsame⟩)
  · exact hown (Or.inr ⟨later, hlater, hpackage, e, he, (Option.some.inj hsame).symm⟩)
  · rintro (⟨b, hb, hpackage, hsame⟩ | ⟨later, hmem, hpackage, e, he, hsame⟩)
    · exact (hdefs b hb hpackage).1 hsame.symm
    · exact hlater later hmem hpackage e he (hsame ▸ rfl)
  · rintro n ⟨e, he, rfl⟩ (⟨b, hb, hpackage, hsame⟩ | ⟨later, hmem, hpackage, e', he', hsame⟩)
    · exact (hdefs b hb hpackage).2 e he hsame
    · -- a name that was given out is not given out again
      have hlater : e'.name ∈ extraNames files :=
        List.mem_flatMap.mpr ⟨later, hmem, List.mem_map.mpr ⟨e', he', rfl⟩⟩
      refine (h.extraNames_fresh.2 _ hlater).1 (List.mem_append_right taken ?_)
      exact hsame ▸ (hfile.extras e he).1

/-- **Only a definition is in the way of a declaration**: one of the same name, or of a given one. -/
theorem Generates.nodup_declarationsOf_iff (h : r.Generates taken names files)
    (hnodup : names.Nodup) :
    (∀ package, (declarationsOf package files).Nodup) ↔ r.Apart names files := by
  induction h with
  | nil =>
    exact ⟨fun _ => ⟨fun a ha => absurd ha List.not_mem_nil, fun a ha => absurd ha List.not_mem_nil⟩,
      fun _ _ => List.nodup_nil⟩
  | cons hone hrest ih =>
    rename_i name taken names hoisted file warnings files
    have hfile := generateReserving_fileOf hone
    obtain ⟨hname, hnodup⟩ := List.nodup_cons.mp hnodup
    -- the first file is apart from itself and from every later one
    rw [nodup_declarationsOf_cons, hfile.nodup_declarations_iff, ih hnodup,
      hrest.disjoint_iff hfile, hfile.package]
    constructor
    · rintro ⟨hown, hlater, hdefs, hgiven⟩
      refine ⟨?_, ?_⟩
      · simp only [List.mem_cons]
        rintro a (rfl | ha) b (rfl | hb) hne hpackage
        · exact absurd rfl hne
        · exact (hdefs b hb hpackage.symm).1
        · exact (hdefs a ha hpackage).1.symm
        · exact hlater.definitions a ha b hb hne hpackage
      · simp only [List.mem_cons]
        rintro a (rfl | ha) g (rfl | hg) hpackage
        · exact hown
        · exact hgiven g hg hpackage
        · exact (hdefs a ha (hfile.package ▸ hpackage.symm)).2
        · exact hlater.givenOut a ha g hg hpackage
    · rintro ⟨hdefs, hgiven⟩
      refine ⟨hgiven name List.mem_cons_self file List.mem_cons_self hfile.package,
        ⟨fun a ha b hb => hdefs a (List.mem_cons_of_mem _ ha) b (List.mem_cons_of_mem _ hb),
          fun a ha g hg => hgiven a (List.mem_cons_of_mem _ ha) g (List.mem_cons_of_mem _ hg)⟩,
        fun b hb hpackage => ⟨?_, ?_⟩, fun later hmem hpackage => ?_⟩
      · exact hdefs name List.mem_cons_self b (List.mem_cons_of_mem _ hb)
          (fun heq => hname (heq ▸ hb)) hpackage.symm
      · exact hgiven b (List.mem_cons_of_mem _ hb) file List.mem_cons_self
          (hfile.package.trans hpackage.symm)
      · exact hgiven name List.mem_cons_self later (List.mem_cons_of_mem _ hmem) hpackage

/-- The names beside those of the definitions may be given out. -/
theorem Generates.mayGiveOut (h : r.Generates taken names files) :
    ∀ file ∈ files, ∀ e ∈ file.extras, r.MayGiveOut e.name := by
  induction h with
  | nil => exact fun file hmem => absurd hmem List.not_mem_nil
  | cons hone _ ih =>
    have hfile := generateReserving_fileOf hone
    exact List.forall_mem_cons.mpr ⟨fun e he => hfile.mayGiveOut (hfile.extras e he).1, ih⟩

/--
**Only a definition is in the way of a declaration.** In each package all names that are declared are
different just if its definitions are declared under different names, none of which was given out for
the package. A name that was given out is put together of words and no name of the document.
-/
theorem declarations_nodup_iff (h : r.generate = .ok (files, stats))
    (hnames : r.definitionNames = .ok names) :
    ((∀ package, (declarationsOf package files).Nodup) ↔ r.Apart names files) ∧
      ∀ file ∈ files, ∀ e ∈ file.extras, r.MayGiveOut e.name := by
  obtain ⟨names', hnames', hall⟩ := generate_generates h
  obtain rfl : names = names' := Except.ok.inj (hnames.symm.trans hnames')
  exact ⟨hall.nodup_declarationsOf_iff (Assoc.nodup_of_sorted (definitionNames_sorted hnames)),
    hall.mayGiveOut⟩

end

theorem rivals_declarations_nodup : ∃ files stats, rivals.generate = .ok (files, stats) ∧
    declarationsOf "models.a" files = ["Order", "AOrderOwner"] ∧
      ∀ package, (declarationsOf package files).Nodup := by
  have hnames : rivals.definitionNames = .ok ["a.Order", "aOrder"] := by decide +kernel
  obtain ⟨⟨files, stats⟩, h, hfiles⟩ := exists_ok_of_any (e := rivals.generate)
    (p := fun generated => declarationsOf "models.a" generated.1 == ["Order", "AOrderOwner"] &&
      decide (rivals.Apart ["a.Order", "aOrder"] generated.1)) (by decide +kernel)
  obtain ⟨hdeclared, hapart⟩ : declarationsOf "models.a" files = ["Order", "AOrderOwner"] ∧
      rivals.Apart ["a.Order", "aOrder"] files := by simpa using hfiles
  exact ⟨files, stats, h, hdeclared, (declarations_nodup_iff h hnames).1.mpr hapart⟩

/-- A definition whose short name is what a schema of another one is called. -/
def claimants : Run := ofDefinitions [
  ("x.y.Foo", { types := ["object"], properties := [
    ("bar", { types := ["object"], properties := [("name", .typed "string")] })] }),
  ("x.y.XYFooBar", { types := ["object"], properties := [("label", .typed "string")] })]

/-- A package may declare a name twice. -/
theorem claimants_declared_twice : ∃ files stats, claimants.generate = .ok (files, stats) ∧
    declarationsOf "models.x.y" files = ["Foo", "XYFooBar", "XYFooBar"] ∧
      ¬ (declarationsOf "models.x.y" files).Nodup := by
  obtain ⟨⟨files, stats⟩, h, hfiles⟩ := exists_ok_of_any (e := claimants.generate)
    (p := fun generated =>
      declarationsOf "models.x.y" generated.1 == ["Foo", "XYFooBar", "XYFooBar"])
    (by decide +kernel)
  have hdeclared : declarationsOf "models.x.y" files = ["Foo", "XYFooBar", "XYFooBar"] := by
    simpa using hfiles
  exact ⟨files, stats, h, hdeclared, by rw [hdeclared]; decide⟩

end KclModels.Run
