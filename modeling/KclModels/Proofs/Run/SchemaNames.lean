import KclModels.Proofs.Naming.Stem
import KclModels.Proofs.Run.Closed
import KclModels.Proofs.Run.Declarations
import KclModels.Text.AsciiTable

/-!
# Names of declarations

A definition is declared under its short name with `_` for `-`, escaped if that is reserved. Nothing
else in the name is looked at, so the name that is written is one that the language takes just if the
short name has only letters, digits, underscores and dashes and does not begin with a digit. The
names that a run gives out are put together of words and can always be written.
-/

namespace KclModels

namespace Naming

/--
The language takes a text as the name of a declaration: it is an identifier that is not reserved, or
a reserved word after a `$`.
-/
def Accepted (name : String) : Prop :=
  (isIdentifier name = true ∧ isReserved name = false) ∨ ∃ word ∈ reservedWords, name = "$" ++ word

instance (name : String) : Decidable (Accepted name) := by
  unfold Accepted
  infer_instance

/-- A short name that can be declared: what is in it can be written, or it is escaped already. -/
def Spellable (short : String) : Prop :=
  ((∀ c ∈ short.toList, isIdentChar c = true ∨ c = '-') ∧
      ∃ c cs, short.toList = c :: cs ∧ c.isDigit = false) ∨
    ∃ word ∈ reservedWords, short = "$" ++ word

/-! ## Dashes and underscores -/

theorem toList_replaceDash (s : String) : (Text.replaceChar '-' ['_'] s).toList =
    s.toList.map fun c => if c = '-' then '_' else c := by
  rw [Text.replaceChar, String.toList_ofList, List.map_eq_flatMap]
  refine List.flatMap_congr fun c _ => ?_
  by_cases hc : c = '-'
  · rw [if_pos hc, if_pos hc]
  · rw [if_neg hc, if_neg hc]

/-- With underscores for its dashes a text is an identifier just if nothing else is in the way. -/
theorem isIdentifier_replaceDash {s : String} :
    isIdentifier (Text.replaceChar '-' ['_'] s) = true ↔
      (∀ c ∈ s.toList, isIdentChar c = true ∨ c = '-') ∧
        ∃ c cs, s.toList = c :: cs ∧ c.isDigit = false := by
  -- an underscore is a character of an identifier, and no digit
  have hchar : ∀ c : Char, isIdentChar (if c = '-' then '_' else c) = true ↔
      isIdentChar c = true ∨ c = '-' := by
    intro c
    by_cases hc : c = '-'
    · rw [if_pos hc]
      exact iff_of_true (by decide) (Or.inr hc)
    · rw [if_neg hc, or_iff_left hc]
  have hdigit : ∀ c : Char, (if c = '-' then '_' else c).isDigit = c.isDigit := by
    intro c
    by_cases hc : c = '-'
    · rw [if_pos hc, hc]
      decide
    · rw [if_neg hc]
  rw [isIdentifier_iff, toList_replaceDash]
  cases s.toList with
  | nil => simp
  | cons c cs =>
    rw [List.forall_mem_map]
    simp only [hchar, List.map_cons, List.cons.injEq, exists_and_left, exists_eq_left', and_assoc,
      hdigit]

/-- A text with neither dashes nor underscores comes only from itself. -/
theorem replaceDash_eq_iff {s t : String} (hdash : '-' ∉ t.toList) (hunder : '_' ∉ t.toList) :
    Text.replaceChar '-' ['_'] s = t ↔ s = t := by
  constructor
  · rintro rfl
    refine (Text.replaceChar_of_notMem fun hmem => hunder ?_).symm
    rw [toList_replaceDash]
    exact List.mem_map.mpr ⟨'-', hmem, if_pos rfl⟩
  · rintro rfl
    exact Text.replaceChar_of_notMem hdash

/-! ## The name of a definition -/

theorem isIdentifier_of_reserved {word : String} (h : word ∈ reservedWords) :
    isIdentifier word = true :=
  (show ∀ word ∈ reservedWords, isIdentifier word = true by decide) word h

/-- Escaping makes a name acceptable just if it is an identifier, or was escaped before. -/
theorem accepted_escapeReserved {name : String} : Accepted (escapeReserved name) ↔
    isIdentifier name = true ∨ ∃ word ∈ reservedWords, name = "$" ++ word := by
  unfold escapeReserved
  by_cases hname : isReserved name = true
  · rw [if_pos hname]
    have hmem := List.contains_iff_mem.mp hname
    exact iff_of_true (Or.inr ⟨name, hmem, rfl⟩) (Or.inl (isIdentifier_of_reserved hmem))
  · rw [if_neg hname, Accepted, and_iff_left (Bool.eq_false_iff.mpr hname)]

/-- **A definition has a name that can be declared** just if its short name is spellable. -/
theorem accepted_schemaName {name : String} :
    Accepted (schemaName name) ↔ Spellable (shortName name) := by
  rw [schemaName, accepted_escapeReserved, isIdentifier_replaceDash, Spellable]
  refine or_congr_right (exists_congr fun word => and_congr_right fun hword => ?_)
  have hclear : ∀ word ∈ reservedWords, '-' ∉ ("$" ++ word).toList ∧ '_' ∉ ("$" ++ word).toList := by
    decide
  exact replaceDash_eq_iff (hclear word hword).1 (hclear word hword).2

theorem Capital.accepted {name : String} (h : Capital name) : Accepted name :=
  Or.inl ⟨(declarable_of_capital h).identifier, (declarable_of_capital h).unreserved⟩

end Naming

/-- The name that a definition asks for can be declared. -/
def Schema.Spellable (c : Schema) (name : String) : Prop :=
  Naming.Spellable (Naming.shortName (c.nameOr name))

namespace Run

variable {r : Run} {name : String} {taken names hoisted : List String} {file : ModelFile}
variable {files : List ModelFile} {sources : List Kcl.SourceFile} {stats : Statistics}

/-! ## The names of a run -/

/-- A definition that is generated has no type that stands for it. -/
theorem definitionNames_unexternal {c : Schema} (h : r.definitionNames = .ok names)
    (hname : name ∈ names) (hc : r.definitions.lookup name = some c) : c.hints.existing = none := by
  obtain ⟨selected, -, hmem⟩ := definitionNames_ok h
  have hexternal := ((hmem name).mp hname).2
  rwa [isExternal, hc, Option.any_some, Option.isSome_eq_false_iff,
    Option.isNone_iff_eq_none] at hexternal

/-- The extra schemas of a file have names that can be written. -/
theorem FileOf.extras_accepted (h : r.FileOf name taken file hoisted) :
    ∀ e ∈ file.extras, Naming.Accepted e.declaredName := by
  intro e he
  obtain ⟨hhoisted, hdeclared⟩ := h.extras e he
  rw [hdeclared]
  exact (h.fresh e.name hhoisted).2.2.accepted

/-- So of the names of a file only that of the definition may be in the way. -/
theorem FileOf.accepted_iff (h : r.FileOf name taken file hoisted)
    (hexternal : ∀ c, r.definitions.lookup name = some c → c.hints.existing = none) :
    (∀ n ∈ declarations file, Naming.Accepted n) ↔
      ∀ c, r.definitions.lookup name = some c → c.Spellable name := by
  obtain ⟨c, hc, hdeclared⟩ := h.declared
  rw [declarations, List.forall_mem_cons, hdeclared, Schema.declaredName, hexternal c hc]
  dsimp only
  rw [Naming.accepted_schemaName, and_iff_left, hc]
  · exact ⟨fun hspelled d hd => Option.some.inj hd ▸ hspelled, fun hall => hall c rfl⟩
  · rw [List.forall_mem_map]
    exact h.extras_accepted

section

variable {tr : Text.Transliteration}

/--
**A declaration is given a name that the language takes, just if its definition has one.** All names
that a run declares are accepted just if each definition asks for a short name of letters, digits,
underscores and dashes that does not begin with a digit (or for an escaped word); the names of extra
schemas are accepted whatever the document says.
-/
theorem declarations_accepted_iff (h : r.render = .ok (sources, stats))
    (hnames : r.definitionNames = .ok names) :
    ∃ files, r.generate = .ok (files, stats) ∧ sources = files.map Kcl.render ∧
      ((∀ file ∈ files, ∀ n ∈ declarations file, Naming.Accepted n) ↔
        ∀ name ∈ names, ∀ c, r.definitions.lookup name = some c → c.Spellable name) ∧
      ∀ file ∈ files, ∀ e ∈ file.extras, Naming.Accepted e.declaredName := by
  obtain ⟨files, hgenerate, rfl⟩ := render_ok h
  obtain ⟨names', hnames', hall⟩ := generate_generates hgenerate
  obtain rfl : names = names' := Except.ok.inj (hnames.symm.trans hnames')
  have hexternal : ∀ name ∈ names, ∀ c, r.definitions.lookup name = some c →
      c.hints.existing = none := fun name hname c hc => definitionNames_unexternal hnames hname hc
  have hfiles := hall.forall₂
  refine ⟨files, hgenerate, rfl, ?_, ?_⟩
  · -- file by file, along the definitions that they are made of
    clear h hall hnames' hnames hgenerate
    induction hfiles with
    | nil =>
      exact iff_of_true (fun _ hmem => absurd hmem List.not_mem_nil)
        (fun _ hmem => absurd hmem List.not_mem_nil)
    | cons hone _ ih =>
      obtain ⟨taken, hoisted, hfile⟩ := hone
      rw [List.forall_mem_cons, List.forall_mem_cons,
        hfile.accepted_iff (hexternal _ List.mem_cons_self),
        ih fun name hname => hexternal name (List.mem_cons_of_mem _ hname)]
  · intro file hmem
    obtain ⟨name, -, taken, warnings, hoisted, hone⟩ := hall.exists_of_mem hmem
    exact (generateReserving_fileOf hone).extras_accepted

end

/-- Definitions with a dash in the name, with a reserved word for one, and with an object within. -/
def spelled : Run := ofDefinitions [
  ("io.cron-tab", { types := ["object"], properties := [
    ("job", { types := ["object"], properties := [("name", .typed "string")] })] }),
  ("io.schema", { types := ["object"], properties := [("label", .typed "string")] })]

theorem spelled_accepted : ∃ sources stats, ∃ files : List ModelFile,
    spelled.render = .ok (sources, stats) ∧ sources = files.map Kcl.render ∧
    files.map declarations = [["cron_tab", "IoCronTabJob"], ["$schema"]] ∧
      ∀ file ∈ files, ∀ n ∈ declarations file, Naming.Accepted n := by
  have hnames : spelled.definitionNames = .ok ["io.cron-tab", "io.schema"] := by decide +kernel
  obtain ⟨⟨generated, stats⟩, hgenerate, hdeclared⟩ := exists_ok_of_any (e := spelled.generate)
    (p := fun generated => generated.1.map declarations ==
      [["cron_tab", "IoCronTabJob"], ["$schema"]]) (by decide +kernel)
  obtain ⟨files, hfiles, -, haccepted, -⟩ :=
    declarations_accepted_iff (render_of_generate hgenerate) hnames
  obtain ⟨rfl, -⟩ := Prod.mk.inj (Except.ok.inj (hgenerate.symm.trans hfiles))
  refine ⟨_, stats, generated, render_of_generate hgenerate, rfl, beq_iff_eq.mp hdeclared,
    haccepted.mpr ?_⟩
  have hspellable : ∀ short : String, Naming.isIdentifier (Text.replaceChar '-' ['_'] short) = true →
      Naming.Spellable short := fun short h => Or.inl (Naming.isIdentifier_replaceDash.mp h)
  intro name hname c hc
  -- both short names are identifiers once the dash is an underscore
  rcases List.mem_cons.mp hname with rfl | hname
  · obtain rfl := Option.some.inj hc
    exact hspellable _ (by decide +kernel)
  · obtain rfl := List.mem_singleton.mp hname
    obtain rfl := Option.some.inj hc
    exact hspellable _ (by decide +kernel)

/-- A definition with a space in its name. -/
def spaced : Run := ofDefinitions [
  ("Foo Bar", { types := ["object"], properties := [("a", .typed "string")] })]

/-- A name with a space is declared as it stands. -/
theorem spaced_unaccepted : ∃ sources stats file, spaced.render = .ok (sources, stats) ∧
    sources = [Kcl.render file] ∧ declarations file = ["Foo Bar"] ∧
      Text.begins "schema Foo Bar:\n" (Kcl.layout (Kcl.body file)) = true ∧
        ¬ Naming.Accepted "Foo Bar" := by
  obtain ⟨⟨generated, stats⟩, hgenerate, hfile⟩ := exists_ok_of_any (e := spaced.generate)
    (p := fun generated => generated.1.length == 1 && generated.1.all fun file =>
      declarations file == ["Foo Bar"] &&
        Text.begins "schema Foo Bar:\n" (Kcl.layout (Kcl.body file))) (by decide +kernel)
  obtain ⟨hlength, hall⟩ := Bool.and_eq_true_iff.mp hfile
  obtain ⟨file, rfl⟩ := List.length_eq_one_iff.mp (beq_iff_eq.mp hlength)
  obtain ⟨hdeclared, hbegins⟩ := Bool.and_eq_true_iff.mp
    (List.all_eq_true.mp hall file List.mem_cons_self)
  exact ⟨_, stats, file, render_of_generate hgenerate, rfl, beq_iff_eq.mp hdeclared, hbegins,
    by decide⟩

end Run

end KclModels
