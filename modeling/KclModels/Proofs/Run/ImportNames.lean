import KclModels.Proofs.Imports.Table
import KclModels.Proofs.Run.ImportPaths
import KclModels.Text.AsciiTable

/-!
# Names that import lines bind

The names of the packages that a file imports are told apart when they are picked. One more name
comes to a file whose checks match patterns: that of the library `regex`. It is not kept from being
picked. So two import lines bind one name just if the file matches patterns and imports a package
whose path ends in `regex`: all letters of this name are small, and no longer name that a path gets
is made of small letters only.
-/

namespace KclModels

namespace Naming

/-- A capital or underscore in a name. -/
def HasBreak (name : String) : Prop := ∃ c ∈ name.toList, c.isLower = false

theorem HasBreak.append_left {a b : String} (h : HasBreak b) : HasBreak (a ++ b) := by
  obtain ⟨c, hc, hlower⟩ := h
  exact ⟨c, String.toList_append ▸ List.mem_append_right _ hc, hlower⟩

theorem HasBreak.append_right {a b : String} (h : HasBreak a) : HasBreak (a ++ b) := by
  obtain ⟨c, hc, hlower⟩ := h
  exact ⟨c, String.toList_append ▸ List.mem_append_left _ hc, hlower⟩

theorem hasBreak_capitalize {name : String} (h : isIdentifier name = true) :
    HasBreak (Text.capitalize name) := by
  obtain ⟨hchars, first, rest, hcons, -⟩ := isIdentifier_iff.mp h
  have hfirst : isIdentChar first = true := hchars first (hcons ▸ List.mem_cons_self)
  obtain ⟨d, hd, -, -, hlower, -⟩ := capitals_of_isIdentChar hfirst
  refine ⟨d, ?_, hlower⟩
  rw [Text.capitalize, hcons]
  dsimp only
  rw [hd, String.toList_ofList]
  exact List.mem_cons_self

end Naming

namespace Imports

open Naming (HasBreak)

variable {tr : Text.Transliteration}
variable {target path name : String} {packages : List String} {i : Imports} {stmt : Import}

/-! ## Names without capitals -/

/-- The last segment of the path that has anything to name it by is named so. -/
def LastNamed [Text.Transliteration] (path name : String) : Prop :=
  ∃ before after, segmentsOf path = before ++ name :: after ∧ ∀ s ∈ after, s = ""

/-- What is put in front of a name leaves a capital in it. -/
theorem longerNames_hasBreak {parents : List String} (hname : Naming.isIdentifier name = true)
    (h : ∀ s ∈ parents, s = "" ∨ Naming.isIdentifier s = true) :
    ∀ s ∈ longerNames name parents, HasBreak s := by
  induction parents generalizing name with
  | nil => exact fun _ hs => absurd hs List.not_mem_nil
  | cons parent rest ih =>
    obtain ⟨hparent, hrest⟩ := List.forall_mem_cons.mp h
    have hne : name ≠ "" := by
      rintro rfl
      exact absurd hname (by decide)
    have hlonger : longer name parent = parent ++ Text.capitalize name :=
      if_neg fun hempty => hne (String.isEmpty_iff.mp hempty)
    have hbreak : HasBreak (longer name parent) := by
      rw [hlonger]
      exact (Naming.hasBreak_capitalize hname).append_left
    have hident : Naming.isIdentifier (longer name parent) = true := by
      refine (longer_identifier (Or.inr hname) hparent).resolve_left fun hempty => ?_
      obtain ⟨c, hc, -⟩ := hbreak
      rw [hempty] at hc
      exact absurd hc (by simp)
    exact List.forall_mem_cons.mpr ⟨hbreak, ih hident hrest⟩

/-- A name without a capital is suggested by the last segment that suggests any. -/
theorem longerNames_small (hsmall : ¬ HasBreak name) {l : List String}
    (h : ∀ s ∈ l, s = "" ∨ Naming.isIdentifier s = true) (hmem : name ∈ longerNames "" l) :
    ∃ front rest, l = front ++ name :: rest ∧ ∀ s ∈ front, s = "" := by
  induction l with
  | nil => exact absurd hmem List.not_mem_nil
  | cons s rest ih =>
    obtain ⟨hs, hrest⟩ := List.forall_mem_cons.mp h
    have hlonger : longer "" s = s := if_pos rfl
    rw [longerNames, hlonger] at hmem
    rcases List.mem_cons.mp hmem with rfl | hmem
    · exact ⟨[], rest, rfl, fun _ hs => absurd hs List.not_mem_nil⟩
    · rcases hs with rfl | hs
      · obtain ⟨front, after, rfl, hfront⟩ := ih hrest hmem
        exact ⟨"" :: front, after, rfl, List.forall_mem_cons.mpr ⟨rfl, hfront⟩⟩
      · exact absurd (longerNames_hasBreak hs hrest name hmem) hsmall

/-- The last segment that suggests any name is the first that is suggested. -/
theorem longerNames_front {front : List String} (rest : List String) (h : ∀ s ∈ front, s = "") :
    longerNames "" (front ++ name :: rest) = front ++ name :: longerNames name rest := by
  induction front with
  | nil => exact congrArg (· :: _) (if_pos rfl)
  | cons s front ih =>
    obtain ⟨rfl, hfront⟩ := List.forall_mem_cons.mp h
    exact congrArg ("" :: ·) (ih hfront)

theorem exists_firstMet (h : path ∈ packages.map (importPath · target)) :
    ∃ before, FirstMet target packages path before := by
  obtain ⟨paths, later, hsplit, hnew⟩ := List.eq_append_cons_of_mem h
  obtain ⟨before, after, rfl, rfl, hafter⟩ := List.map_eq_append_iff.mp hsplit
  obtain ⟨package, after, rfl, hpath, -⟩ := List.map_eq_cons_iff.mp hafter
  exact ⟨before, ⟨package, after, rfl, hpath⟩, hnew⟩

/-- A path is picked a name without a capital only if its last segment is so named. -/
theorem Picked.lastNamed (h : Picked i path name) (hsmall : ¬ HasBreak name) :
    LastNamed path name := by
  cases h with
  | suggested before after split free =>
    have hmem : name ∈ suggestions path := by
      rw [split]
      exact List.mem_append_right _ List.mem_cons_self
    obtain ⟨front, rest, hrev, hfront⟩ := longerNames_small hsmall
      (fun s hs => segmentsOf_identifier path s (List.mem_reverse.mp hs)) hmem
    refine ⟨rest.reverse, front.reverse, ?_, fun s hs => hfront s (List.mem_reverse.mp hs)⟩
    rw [← List.reverse_reverse (segmentsOf path), hrev]
    simp
  | mangled n number =>
    have hbase : HasBreak (mangledBase path) := HasBreak.append_right ⟨'M', by decide, by decide⟩
    refine absurd ?_ hsmall
    rw [number, numbered]
    split
    · exact hbase
    · exact hbase.append_right

/-- The name of the last segment is picked, unless it has been given out. -/
theorem Picked.eq_of_lastNamed {other : String} (h : Picked i path other)
    (hlast : LastNamed path name) (hfree : i.Free name) : other = name := by
  obtain ⟨before, after, hsegments, hafter⟩ := hlast
  have hsuggested : suggestions path =
      after.reverse ++ name :: longerNames name before.reverse := by
    rw [suggestions, hsegments, List.reverse_append, List.reverse_cons, List.append_assoc,
      List.singleton_append]
    exact longerNames_front _ fun s hs => hafter s (List.mem_reverse.mp hs)
  cases h with
  | suggested front rest split free first =>
    rw [split] at hsuggested
    rcases List.append_eq_append_iff.mp hsuggested with ⟨l, hl, hrest⟩ | ⟨l, hl, hrest⟩
    · cases l with
      | nil => exact (List.cons.inj hrest).1
      | cons x l =>
        -- the name would be one of the empty ones
        obtain ⟨rfl, -⟩ := List.cons.inj hrest
        refine absurd (hafter other (List.mem_reverse.mp ?_)) free.nonempty
        rw [hl]
        exact List.mem_append_right _ List.mem_cons_self
    · cases l with
      | nil => exact (List.cons.inj hrest).1.symm
      | cons x l =>
        obtain ⟨rfl, -⟩ := List.cons.inj hrest
        refine absurd hfree (first name ?_)
        rw [hl]
        exact List.mem_append_right _ List.mem_cons_self
  | mangled n number exhausted =>
    refine absurd hfree (exhausted name ?_)
    rw [hsuggested]
    exact List.mem_append_right _ List.mem_cons_self

/-- **A name without a capital is given out** just if a path has it for its last segment. -/
theorem Table.small_iff (h : Table target packages (meetAll target packages {}))
    (hsmall : ¬ HasBreak name) (hne : name ≠ "") (hunreserved : Naming.isReserved name = false) :
    (∃ stmt ∈ (meetAll target packages {}).statements, stmt.asName = name) ↔
      ∃ stmt ∈ (meetAll target packages {}).statements, LastNamed stmt.path name := by
  constructor
  · rintro ⟨stmt, hstmt, rfl⟩
    obtain ⟨before, hfirst⟩ :=
      exists_firstMet ((h.imported stmt.path).mp (List.mem_map.mpr ⟨stmt, hstmt, rfl⟩))
    exact ⟨stmt, hstmt, (h.picked stmt hstmt before hfirst).lastNamed hsmall⟩
  · rintro ⟨stmt, hstmt, hlast⟩
    obtain ⟨before, hfirst⟩ :=
      exists_firstMet ((h.imported stmt.path).mp (List.mem_map.mpr ⟨stmt, hstmt, rfl⟩))
    by_cases hfree : (meetAll target before {}).Free name
    · exact ⟨stmt, hstmt, (h.picked stmt hstmt before hfirst).eq_of_lastNamed hlast hfree⟩
    · -- another path had the name when this one was met
      have hgiven : ∃ other ∈ (meetAll target before {}).statements, other.asName = name := by
        by_contra hnone
        exact hfree ⟨hne, hunreserved, fun other hother heq => hnone ⟨other, hother, heq⟩⟩
      obtain ⟨other, hother, hname⟩ := hgiven
      have hkeyed := (meetAll_consistent target before {} consistent_empty).keyed
      obtain ⟨⟨package, after, rfl, -⟩, -⟩ := hfirst
      refine ⟨other, ?_, hname⟩
      rw [meetAll_append]
      exact statement_of_lookup
        ((meetAll_later _ _).stays _ _ (lookup_of_statement hkeyed hother))

/-- Rendered models are collected by calls, one for each. -/
theorem collectAllRendered_eq_runCalls (target : String) (l : List Model) : ∀ i,
    collectAllRendered target l i = runCalls target (l.map .rendered) i := by
  induction l with
  | nil => exact fun _ => rfl
  | cons m rest ih =>
    intro i
    rw [collectAllRendered, List.map_cons, runCalls]
    dsimp only
    rw [ih]
    rfl

end Imports

namespace Kcl

/-! ## Import lines -/

/-- A line that imports something, with the name that it binds. -/
structure ImportLine where
  text : String
  name : String
deriving DecidableEq, Repr

/-- The name that a package is imported under: the one that is written, else the end of the path. -/
def boundName (i : Import) : String := if i.renamed then i.asName else Text.afterLast '.' i.path

/-- Whether a file imports the library that matches patterns. -/
def usesRegex? (f : ModelFile) : Bool := (f.model :: f.extras).any declarationUsesRegex

/-- The import lines of a file. -/
def importLines (f : ModelFile) : List ImportLine :=
  (if usesRegex? f then [⟨"import regex", "regex"⟩] else []) ++
    f.imports.map fun i => ⟨importLine i, boundName i⟩

/-- Nothing but import lines stands above the declarations, below the notice. -/
theorem preamble_eq (f : ModelFile) :
    preamble f = .line notice :: (importLines f).map fun l => .line l.text := by
  unfold preamble importLines usesRegex?
  rw [List.map_append, List.map_map]
  dsimp only
  split <;> rfl

theorem boundName_eq {i : Import} (h : Imports.Sound i) : boundName i = i.asName := by
  unfold boundName
  split
  · rfl
  · rename_i hsame
    exact (not_not.mp fun hne => hsame (h.renamed.mpr hne)).symm

end Kcl

namespace Run

open Imports

variable {r : Run} {name : String} {taken hoisted : List String} {file : ModelFile}
variable {warnings : List Warning}

section

variable {tr : Text.Transliteration}

/-- The imports of a file are those of the packages that are met in it. -/
theorem imports_eq_meetAll (h : r.generateReserving name taken = .ok (file, warnings, hoisted)) :
    ∃ packages, file.imports = (meetAll file.package packages {}).statements := by
  obtain ⟨f, s', i, -, hcollect, himports⟩ := generateReserving_collected h
  rw [collectAllRendered_eq_runCalls] at hcollect
  have hcalls := importsOf_eq_meetAll file.package
    ((Build.declare r.setting name s'.registry f.model :: f.extras.map Prod.snd).map .rendered)
  rw [importsOf, hcollect] at hcalls
  exact ⟨_, himports.trans (congrArg statements hcalls)⟩

/--
**Import lines bind one name each**, apart from `regex`: the names that the import lines of a file
bind are distinct, unless the file matches patterns and a package that it imports has `regex` for
its last segment.
-/
theorem bound_names_nodup_iff
    (h : r.generateReserving name taken = .ok (file, warnings, hoisted)) :
    Kcl.preamble file = .line Kcl.notice :: (Kcl.importLines file).map (fun l => .line l.text) ∧
      (file.imports.map Kcl.boundName).Nodup ∧
      (((Kcl.importLines file).map (·.name)).Nodup ↔
        ¬ (Kcl.usesRegex? file = true ∧ ∃ stmt ∈ file.imports, LastNamed stmt.path "regex")) := by
  obtain ⟨packages, himports⟩ := imports_eq_meetAll h
  have htable := meetAll_table file.package packages
  have hnames : file.imports.map Kcl.boundName = file.imports.map (·.asName) :=
    List.map_congr_left fun stmt hstmt => Kcl.boundName_eq (htable.sound stmt (himports ▸ hstmt))
  have hdistinct : (file.imports.map Kcl.boundName).Nodup := by
    rw [hnames, himports]
    exact htable.distinct
  -- `regex` has no character that is spelled otherwise in an alias
  have hregex : "regex" ∈ file.imports.map Kcl.boundName ↔
      ∃ stmt ∈ file.imports, LastNamed stmt.path "regex" := by
    have hsmall : ¬ Naming.HasBreak "regex" := by
      rintro ⟨c, hc, hlower⟩
      have hall : "regex".toList.all Char.isLower = true := by decide
      exact absurd (List.all_eq_true.mp hall c hc) (by simp [hlower])
    rw [hnames, himports, ← htable.small_iff hsmall (by decide) (by decide), List.mem_map]
  have hlines : (Kcl.importLines file).map (·.name) =
      (if Kcl.usesRegex? file then ["regex"] else []) ++ file.imports.map Kcl.boundName := by
    rw [Kcl.importLines, List.map_append, List.map_map]
    split <;> rfl
  refine ⟨Kcl.preamble_eq file, hdistinct, ?_⟩
  rw [hlines, ← hregex]
  split
  · rename_i huses
    rw [List.singleton_append, List.nodup_cons, huses]
    simp [hdistinct]
  · rename_i hnot
    simp [hdistinct, hnot]

end

/-- A job with a rule of another package, and a name that has to match a pattern. -/
def jobs (package : String) : Run := ofDefinitions [
  (package ++ ".Rule", { types := ["object"], properties := [("text", .typed "string")] }),
  ("apps.Job", { types := ["object"], properties :=
    [("name", { Schema.typed "string" with pattern := some "^a" }),
     ("rule", .referenceTo (package ++ ".Rule"))] })]

theorem jobs_bound_names : ∃ file warnings hoisted,
    (jobs "lib.regexes").generateReserving "apps.Job" [] = .ok (file, warnings, hoisted) ∧
    (Kcl.importLines file).map (·.name) = ["regex", "regexes"] ∧
    Kcl.preamble file = .line Kcl.notice :: (Kcl.importLines file).map (fun l => .line l.text) ∧
    (file.imports.map Kcl.boundName).Nodup ∧
    (((Kcl.importLines file).map (·.name)).Nodup ↔
      ¬ (Kcl.usesRegex? file = true ∧ ∃ stmt ∈ file.imports, LastNamed stmt.path "regex")) := by
  obtain ⟨⟨file, warnings, hoisted⟩, h, hfacts⟩ :=
    exists_ok_of_any (e := (jobs "lib.regexes").generateReserving "apps.Job" [])
      (p := fun one => (Kcl.importLines one.1).map (·.name) == ["regex", "regexes"])
      (by decide +kernel)
  exact ⟨file, warnings, hoisted, h, beq_iff_eq.mp hfacts, bound_names_nodup_iff h⟩

/-- The package of the rule is imported under the name of the library that matches patterns. -/
theorem jobs_regex_bound_twice : ∃ file warnings hoisted,
    (jobs "lib.regex").generateReserving "apps.Job" [] = .ok (file, warnings, hoisted) ∧
    Kcl.importLines file = [⟨"import regex", "regex"⟩, ⟨"import lib.regex", "regex"⟩] ∧
    ¬ ((Kcl.importLines file).map (·.name)).Nodup := by
  obtain ⟨⟨file, warnings, hoisted⟩, h, hfacts⟩ :=
    exists_ok_of_any (e := (jobs "lib.regex").generateReserving "apps.Job" [])
      (p := fun one => Kcl.importLines one.1 ==
        [⟨"import regex", "regex"⟩, ⟨"import lib.regex", "regex"⟩])
      (by decide +kernel)
  have hlines := beq_iff_eq.mp hfacts
  refine ⟨file, warnings, hoisted, h, hlines, ?_⟩
  rw [hlines]
  decide

end Run

end KclModels
