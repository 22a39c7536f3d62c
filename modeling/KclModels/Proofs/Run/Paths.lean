import KclModels.Proofs.Cli.Writing
import KclModels.Proofs.Run.Files
import KclModels.Text.AsciiTable

/-!
# Where the files of a run go

The file of a definition goes to the directories of its package, under the stem of its short name.
Different definitions do not always go to different places: directories are spelled as identifiers,
and a stem does not tell which letters were capital or what stood between the words. Where no two
definitions share a place, writing the files keeps them all.
-/

namespace KclModels

theorem Kcl.isName_of_identChars {name : String} (hne : name.toList ≠ [])
    (h : ∀ c ∈ name.toList, Naming.isIdentChar c = true ∨ c = '.')
    (hident : ∃ c ∈ name.toList, Naming.isIdentChar c = true) : Cli.IsName name := by
  obtain ⟨d, hd, hident⟩ := hident
  have hpoints : ∀ points : String, (∀ c ∈ points.toList, c = '.') → name ≠ points := by
    rintro points hpoints rfl
    rw [hpoints d hd] at hident
    exact absurd hident (by decide)
  refine ⟨hne, fun hslash => ?_, hpoints "." (by simp), hpoints ".." (by simp)⟩
  rcases h '/' hslash with hc | hc
  · exact absurd hc (by decide)
  · exact absurd hc (by decide)

/-- **Names of identifier characters make the path of a file**, the last one with its extension. -/
theorem Kcl.isFilePath_of_identChars {dirs : List String} {stem : String}
    (hdirs : ∀ dir ∈ dirs, dir.toList ≠ [] ∧ ∀ c ∈ dir.toList, Naming.isIdentChar c = true)
    (hne : stem.toList ≠ []) (hstem : ∀ c ∈ stem.toList, Naming.isIdentChar c = true) :
    Kcl.IsFilePath (dirs ++ [stem ++ ".k"]) := by
  obtain ⟨c, cs, hcons⟩ := List.exists_cons_of_ne_nil hne
  refine ⟨fun n hn => ?_, _, _, rfl, by simp, fun n hn hpoint => ?_⟩
  · rcases List.mem_append.mp hn with hn | hn
    · obtain ⟨hne, hchars⟩ := hdirs n hn
      obtain ⟨d, ds, hd⟩ := List.exists_cons_of_ne_nil hne
      exact Kcl.isName_of_identChars hne (fun c hc => Or.inl (hchars c hc))
        ⟨d, hd ▸ List.mem_cons_self, hchars d (hd ▸ List.mem_cons_self)⟩
    · obtain rfl := List.mem_singleton.mp hn
      refine Kcl.isName_of_identChars (by simp) (fun d hd => ?_) ⟨c, ?_, hstem c ?_⟩
      · rw [String.toList_append] at hd
        rcases List.mem_append.mp hd with hd | hd
        · exact Or.inl (hstem d hd)
        · rcases List.mem_cons.mp hd with rfl | hd
          · exact Or.inr rfl
          · rw [List.mem_singleton.mp hd]
            exact Or.inl (by decide)
      · rw [String.toList_append, hcons]
        exact List.mem_cons_self
      · rw [hcons]
        exact List.mem_cons_self
  · -- no directory has a point in its name
    exact absurd ((hdirs n hn).2 '.' hpoint) (by decide)

namespace Run

variable {r : Run} {a b name : String} {names : List String} {files : List Kcl.SourceFile}
variable {stats : Statistics}

/-- The names of definitions to generate are in order, each once. -/
theorem definitionNames_sorted (h : r.definitionNames = .ok names) :
    names.Pairwise (· < ·) := by
  have hselection : ∀ selected, r.selection = .ok selected → selected.Pairwise (· < ·) := by
    intro selected hs
    unfold selection at hs
    split at hs
    · exact Except.ok.inj hs ▸ Assoc.sorted_nameSet _
    · split at hs
      · exact absurd hs (by simp)
      · exact Except.ok.inj hs ▸ Assoc.sorted_nameSet _
  obtain ⟨selected, hs, rfl⟩ := map_eq_ok.mp h
  exact (hselection selected hs).filter _

/-! ## Places -/

/-- Where the file of a definition goes. -/
def placeOf [Text.Transliteration] (r : Run) (name : String) : List String :=
  Kcl.directories (r.options.packageOf name) ++ [Naming.fileStem (Naming.shortName name) ++ ".k"]

/-- Two definitions go to the same directories, under one stem. -/
structure SharePlace [Text.Transliteration] (r : Run) (a b : String) : Prop where
  directories : Kcl.directories (r.options.packageOf a) = Kcl.directories (r.options.packageOf b)
  stem : Naming.fileStem (Naming.shortName a) = Naming.fileStem (Naming.shortName b)

instance [Text.Transliteration] (r : Run) (a b : String) : Decidable (r.SharePlace a b) :=
  decidable_of_iff
    (Kcl.directories (r.options.packageOf a) = Kcl.directories (r.options.packageOf b) ∧
      Naming.fileStem (Naming.shortName a) = Naming.fileStem (Naming.shortName b))
    ⟨fun h => ⟨h.1, h.2⟩, fun h => ⟨h.directories, h.stem⟩⟩

section

variable {tr : Text.Transliteration}

theorem placeOf_eq_iff : r.placeOf a = r.placeOf b ↔ r.SharePlace a b := by
  rw [placeOf, placeOf, List.append_singleton_inj]
  refine ⟨fun ⟨hdirs, hfile⟩ => ⟨hdirs, ?_⟩, fun ⟨hdirs, hstem⟩ => ⟨hdirs, by rw [hstem]⟩⟩
  have hlist := congrArg String.toList hfile
  rw [String.toList_append, String.toList_append] at hlist
  exact String.toList_inj.mp (List.append_cancel_right hlist)

/-- **Definitions that share a place have short names of the same letters and digits.** -/
theorem SharePlace.letters (h : r.SharePlace a b) :
    (Naming.pascalize (Naming.shortName a)).toList.map Char.toLower =
      (Naming.pascalize (Naming.shortName b)).toList.map Char.toLower :=
  Naming.letters_eq_of_fileStem_eq h.stem

theorem placeOf_isFilePath (r : Run) (name : String) : Kcl.IsFilePath (r.placeOf name) := by
  refine Kcl.isFilePath_of_identChars (fun dir hdir => ?_) (Naming.fileStem_ne_nil _)
    fun c hc => Naming.isIdentChar_of_fileStem hc
  obtain ⟨hdir, hne⟩ := List.mem_filter.mp hdir
  obtain ⟨segment, -, rfl⟩ := List.mem_map.mp hdir
  refine ⟨fun hnil => ?_, fun c hc => Naming.isIdentChar_of_sanitize hc⟩
  rw [String.toList_eq_nil_iff.mp hnil] at hne
  exact absurd hne (by decide)

/-- **The files of a run go to the places of its definitions**, in order. -/
theorem render_paths (h : r.render = .ok (files, stats)) :
    ∃ names, r.definitionNames = .ok names ∧ files.map (·.path) = names.map r.placeOf := by
  obtain ⟨models, hgenerate, rfl⟩ := render_ok h
  obtain ⟨names, hnames, hall⟩ := generate_generates hgenerate
  refine ⟨names, hnames, ?_⟩
  rw [List.map_map]
  have hfiles := hall.forall₂
  clear h hall hnames hgenerate
  induction hfiles with
  | nil => rfl
  | cons hfile _ ih =>
    obtain ⟨taken, hoisted, hfile⟩ := hfile
    rw [List.map_cons, List.map_cons, ih]
    congr 1
    simp only [Function.comp, Kcl.render, Kcl.outputPath, placeOf]
    rw [hfile.package, hfile.documentName]

/-- **All paths are different just if no two definitions share a place.** -/
theorem render_paths_nodup_iff (h : r.render = .ok (files, stats))
    (hnames : r.definitionNames = .ok names) :
    (files.map (·.path)).Nodup ↔ ∀ a ∈ names, ∀ b ∈ names, a ≠ b → ¬ r.SharePlace a b := by
  obtain ⟨names', hnames', hpaths⟩ := render_paths h
  obtain rfl : names = names' := Except.ok.inj (hnames.symm.trans hnames')
  have hnodup := Assoc.nodup_of_sorted (definitionNames_sorted hnames)
  rw [hpaths, List.nodup_map_iff_inj_on hnodup]
  refine ⟨fun hinj a ha b hb hne hshare => ?_, fun hno a ha b hb heq => ?_⟩
  · exact hne (hinj a ha b hb (placeOf_eq_iff.mpr hshare))
  · by_contra hne
    exact hno a ha b hb hne (placeOf_eq_iff.mp heq)

/-! ## Writing the files -/

/--
**No file overwrites another where no two definitions share a place.** The paths are all different.
Below a directory that nothing else is in, all files are written, and each is there in the end.
-/
theorem files_kept (h : r.render = .ok (files, stats)) (hnames : r.definitionNames = .ok names)
    (hplaces : ∀ a ∈ names, ∀ b ∈ names, a ≠ b → ¬ r.SharePlace a b) :
    (files.map (·.path)).Nodup ∧
      ∀ (time output : String) (here : List String) (o : Cli.Outcome), output.toList ≠ [] →
        Cli.Folder.locate output = some here → o.folder.Ready here →
        (Cli.perform time o (Cli.Folder.writes output files)).exitCode = o.exitCode ∧
          ∀ file ∈ files, (Cli.perform time o (Cli.Folder.writes output files)).folder.read
            (Cli.below output (Kcl.pathText file.path)) = .ok file.content := by
  have hnodup := (render_paths_nodup_iff h hnames).mpr hplaces
  refine ⟨hnodup, fun time output here o houtput hlocate ho => ?_⟩
  have hfiles : ∀ file ∈ files, Kcl.IsFilePath file.path := by
    intro file hfile
    obtain ⟨names', -, hpaths⟩ := render_paths h
    have hpath : file.path ∈ names'.map r.placeOf :=
      hpaths ▸ List.mem_map.mpr ⟨file, hfile, rfl⟩
    obtain ⟨name, -, heq⟩ := List.mem_map.mp hpath
    exact heq ▸ placeOf_isFilePath r name
  obtain ⟨hcode, -⟩ := Cli.Folder.perform_writes time houtput hlocate hfiles ho
  exact ⟨hcode, fun file hfile =>
    Cli.Folder.read_writes time houtput hlocate hfiles hnodup ho hfile⟩

end

theorem orders_files_kept : ∃ files stats, orders.render = .ok (files, stats) ∧
    files.length = 2 ∧ (files.map (·.path)).Nodup ∧
      ∀ file ∈ files, (Cli.perform "" { exitCode := 0, folder := [] }
        (Cli.Folder.writes "out" files)).folder.read
          (Cli.below "out" (Kcl.pathText file.path)) = .ok file.content := by
  obtain ⟨⟨files, stats⟩, h, hlen⟩ := exists_ok_of_any (e := orders.render)
    (p := fun rendered => rendered.1.length == 2) (by decide +kernel)
  have hnames : orders.definitionNames = .ok ["Label", "Order"] := by decide +kernel
  obtain ⟨hnodup, hkept⟩ := files_kept h hnames (by decide +kernel)
  obtain ⟨-, hread⟩ := hkept "" "out" ["out"] { exitCode := 0, folder := [] } (by decide)
    (by decide +kernel) (fun entry he => absurd he List.not_mem_nil)
  exact ⟨files, stats, h, by simpa using hlen, hnodup, hread⟩

/-- Two definitions whose names differ in a capital letter only. -/
def twins : Run := ofDefinitions [
  ("Foo", { types := ["object"], properties := [("name", .typed "string")] }),
  ("foo", { types := ["object"], properties := [("label", .typed "string")] })]

/-- The files of two definitions do share a path, so that one of them is lost. -/
theorem twins_overwritten : ∃ models stats, twins.generate = .ok (models, stats) ∧
    models.map (·.model.declaredName) = ["Foo", "foo"] ∧
    twins.render = .ok (models.map Kcl.render, stats) ∧
    (models.map Kcl.render).map (·.path) = [["models", "foo.k"], ["models", "foo.k"]] := by
  obtain ⟨⟨models, stats⟩, h, hmodels⟩ := exists_ok_of_any (e := twins.generate)
    (p := fun generated => generated.1.map (·.model.declaredName) == ["Foo", "foo"] &&
      (generated.1.map Kcl.render).map (·.path) == [["models", "foo.k"], ["models", "foo.k"]])
    (by decide +kernel)
  obtain ⟨hnames, hpaths⟩ : models.map (·.model.declaredName) = ["Foo", "foo"] ∧
      (models.map Kcl.render).map (·.path) = [["models", "foo.k"], ["models", "foo.k"]] := by
    simpa using hmodels
  exact ⟨models, stats, h, hnames, by rw [render, h, Except.map], hpaths⟩

end Run

end KclModels

/-!
## Paths that stay below the output directory

The path of a file is put together as a text, one component after the other, whatever the package
and the name of the definition are. Components are spelled as identifiers first, so none of them is
a way elsewhere, and what is left of them empty adds nothing. That needs next to nothing of how
texts are spelled in ASCII and in snake case.
-/

namespace KclModels

/-! ## Paths as texts -/

namespace PathText

/-- A path that a component can follow as it is: an empty one, or one with a slash at its end. -/
def opened (path : List Char) : List Char :=
  if path = [] ∨ path.getLast? = some '/' then path else path ++ ['/']

/-- Puts a component after a path; one that begins with a slash takes the place of the path. -/
def push (path component : List Char) : List Char :=
  if component.head? = some '/' then component else opened path ++ component

/-- A reversed path without slashes at its end, and without points that stand for nothing. -/
def dropIdle : List Char → List Char
  | '/' :: rest => dropIdle rest
  | '.' :: '/' :: rest => dropIdle rest
  | rest => rest

/-- A reversed file name without its extension. A point that begins a name begins no extension. -/
def dropExtension (name : List Char) : List Char :=
  match Text.cutChars '.' name with
  | some (_, stem) => if stem = [] then name else stem
  | none => name

/-- Gives the file at the end of a path an extension, in place of one that it has. -/
def withExtension (extension path : List Char) : List Char :=
  let whole := dropIdle path.reverse
  let name := whole.takeWhile (· ≠ '/')
  if name = [] ∨ name = ['.'] ∨ name = ['.', '.'] then path
  else
    (dropExtension name ++ whole.dropWhile (· ≠ '/')).reverse ++ '.' :: extension

variable {path component name : List Char} {components : List (List Char)}

theorem opened_cases (path : List Char) :
    opened path = [] ∨ ∃ before, opened path = before ++ ['/'] := by
  unfold opened
  split
  · rename_i h
    exact h.imp_right List.getLast?_eq_some_iff.mp
  · exact Or.inr ⟨path, rfl⟩

theorem opened_opened (path : List Char) : opened (opened path) = opened path := by
  have hopen : opened path = [] ∨ (opened path).getLast? = some '/' :=
    (opened_cases path).imp_right List.getLast?_eq_some_iff.mpr
  rw [opened, if_pos hopen]

theorem push_of_notMem (h : '/' ∉ component) : push path component = opened path ++ component := by
  refine if_neg fun hhead => h ?_
  exact List.mem_of_mem_head? (hhead ▸ rfl)

theorem opened_push (h : '/' ∉ component) :
    opened (push path component) =
      opened path ++ if component = [] then [] else component ++ ['/'] := by
  rw [push_of_notMem h]
  split
  · rename_i hnil
    rw [hnil, List.append_nil, opened_opened]
  · rename_i hne
    have hlast : component.getLast? ≠ some '/' := fun hlast => h (List.mem_of_getLast? hlast)
    rw [opened, if_neg (by simp [hne, hlast]), List.append_assoc]

/-- **Components without slashes follow each other**; those that are empty add nothing. -/
theorem opened_pushes (h : ∀ component ∈ components, '/' ∉ component) :
    ∀ path, opened (components.foldl push path) =
      opened path ++ (components.filter (· ≠ [])).flatMap (· ++ ['/']) := by
  induction components with
  | nil => exact fun path => (List.append_nil _).symm
  | cons component rest ih =>
    intro path
    have hrest := ih fun c hc => h c (List.mem_cons_of_mem component hc)
    rw [List.foldl_cons, hrest, opened_push (h component List.mem_cons_self), List.filter_cons]
    by_cases hnil : component = [] <;> simp [hnil]

theorem dropIdle_of_ne {c : Char} {cs : List Char} (hslash : c ≠ '/') (hpoint : c ≠ '.') :
    dropIdle (c :: cs) = c :: cs := by
  unfold dropIdle
  split <;> simp_all

/-- The last component, reversed, stands before the rest of a reversed path. -/
theorem span_reverse_push (h : '/' ∉ name) :
    (name.reverse ++ (opened path).reverse).takeWhile (· ≠ '/') = name.reverse ∧
      (name.reverse ++ (opened path).reverse).dropWhile (· ≠ '/') = (opened path).reverse := by
  have hall : ∀ c ∈ name.reverse, decide (c ≠ '/') = true := fun c hc =>
    decide_eq_true fun hslash => h (hslash ▸ List.mem_reverse.mp hc)
  rw [List.takeWhile_append_of_pos hall, List.dropWhile_append_of_pos hall]
  rcases opened_cases path with hopen | ⟨before, hopen⟩ <;> simp [hopen]

/-- **A file without an extension takes one.** -/
theorem withExtension_push (extension : List Char) (hne : name ≠ []) (hslash : '/' ∉ name)
    (hpoint : '.' ∉ name) :
    withExtension extension (push path name) = opened path ++ (name ++ '.' :: extension) := by
  have hidle : dropIdle (push path name).reverse = name.reverse ++ (opened path).reverse := by
    obtain ⟨c, cs, hcons⟩ := List.exists_cons_of_ne_nil (List.reverse_ne_nil_iff.mpr hne)
    have hc : c ∈ name := List.mem_reverse.mp (hcons ▸ List.mem_cons_self)
    rw [push_of_notMem hslash, List.reverse_append, hcons, List.cons_append]
    exact dropIdle_of_ne (fun h => hslash (h ▸ hc)) fun h => hpoint (h ▸ hc)
  have hpoint' : '.' ∉ name.reverse := fun h => hpoint (List.mem_reverse.mp h)
  have hname : ¬(name.reverse = [] ∨ name.reverse = ['.'] ∨ name.reverse = ['.', '.']) := by
    rintro (h | h | h)
    · exact hne (List.reverse_eq_nil_iff.mp h)
    · exact hpoint' (h ▸ List.mem_cons_self)
    · exact hpoint' (h ▸ List.mem_cons_self)
  have hextension : dropExtension name.reverse = name.reverse := by
    rw [dropExtension, Text.cutChars_eq_none hpoint']
  rw [withExtension, hidle, (span_reverse_push hslash).1, (span_reverse_push hslash).2,
    if_neg hname, hextension, List.reverse_append, List.reverse_reverse, List.reverse_reverse,
    List.append_assoc]

end PathText

/-! ## Spellings -/

namespace Naming

/-- How texts are spelled in ASCII, and words in snake case. Any transliteration will do. -/
structure Spelling where
  ascii : String → String
  snake : String → String
  snake_ne_nil : ∀ word : String, word.toList ≠ [] → (∀ c ∈ word.toList, isWordChar c = true) →
    (snake word).toList ≠ []
  snake_small : ∀ word : String, word.toList ≠ [] → (∀ c ∈ word.toList, isWordChar c = true) →
    ∀ c ∈ (snake word).toList, isSmallChar c = true

/-- The spelling that names are written in. -/
def Spelling.standard [Text.Transliteration] : Spelling where
  ascii := Text.toAscii
  snake := snakeCase
  snake_ne_nil _ hne h := snakeCase_ne_nil h hne
  snake_small _ _ h _ hc := isSmallChar_of_snakeCase h hc

namespace Spelling

variable (sp : Spelling) {package name : String} {c : Char}

/-- The name of the directory for a segment of a package. -/
def sanitize (segment : String) : String := directoryName (sp.ascii segment)

/-- The stem of the file of a model. -/
def fileStem (name : String) : String :=
  sp.snake (joinWords (Text.runs isWordChar (sp.ascii name).toList))

/-- The components that the segments of a package become; some may be empty. -/
def components (package : String) : List String :=
  ((Text.split '.' package).filter (!·.isEmpty)).map sp.sanitize

/-- The text of the path of a definition: its components one after the other, then its extension. -/
def path (package name : String) : String :=
  String.ofList (PathText.withExtension ['k']
    (PathText.push (((sp.components package).map String.toList).foldl PathText.push [])
      (sp.fileStem (shortName name)).toList))

theorem fileStem_ne_nil : (sp.fileStem name).toList ≠ [] :=
  sp.snake_ne_nil _ (joinWords_plain Text.runs_all).ne_nil (joinWords_plain Text.runs_all).chars

theorem isIdentChar_of_fileStem (hc : c ∈ (sp.fileStem name).toList) : isIdentChar c = true :=
  isIdentChar_of_isSmallChar (sp.snake_small _ (joinWords_plain Text.runs_all).ne_nil
    (joinWords_plain Text.runs_all).chars c hc)

theorem isIdentChar_of_components {component : String} (h : component ∈ sp.components package)
    (hc : c ∈ component.toList) : isIdentChar c = true := by
  obtain ⟨segment, -, rfl⟩ := List.mem_map.mp h
  exact isIdentChar_of_directoryName hc

/-- The directories of a package: the components that are not empty. -/
def directories (package : String) : List String :=
  (sp.components package).filter (!·.isEmpty)

theorem directories_identChars {dir : String} (h : dir ∈ sp.directories package) :
    dir.toList ≠ [] ∧ ∀ c ∈ dir.toList, isIdentChar c = true := by
  obtain ⟨hcomponent, hne⟩ := List.mem_filter.mp h
  refine ⟨fun hnil => ?_, fun c => sp.isIdentChar_of_components hcomponent⟩
  rw [String.toList_eq_nil_iff.mp hnil] at hne
  exact absurd hne (by decide)

theorem pathText_concat (dirs : List String) (file : String) :
    (Kcl.pathText (dirs ++ [file])).toList =
      (dirs.map String.toList).flatMap (· ++ ['/']) ++ file.toList := by
  rw [Kcl.pathText]
  induction dirs with
  | nil => simp
  | cons dir rest ih =>
    rw [List.cons_append, String.intercalate_cons_of_ne_nil (by simp), String.toList_append,
      String.toList_append, ih]
    simp

/-- **The path is that of its directories and its file.** -/
theorem path_eq (package name : String) : sp.path package name =
    Kcl.pathText (sp.directories package ++ [sp.fileStem (shortName name) ++ ".k"]) := by
  have hnot : ∀ d : Char, isIdentChar d = false → d ∉ (sp.fileStem (shortName name)).toList :=
    fun d hd hmem => absurd (sp.isIdentChar_of_fileStem hmem) (by simp [hd])
  have hcomponents : ∀ component ∈ (sp.components package).map String.toList, '/' ∉ component := by
    intro component hcomponent hslash
    obtain ⟨text, htext, rfl⟩ := List.mem_map.mp hcomponent
    exact absurd (sp.isIdentChar_of_components htext hslash) (by decide)
  have hdirs : ((sp.components package).map String.toList).filter (· ≠ []) =
      (sp.directories package).map String.toList := by
    rw [directories, List.filter_map]
    congr 1
    refine List.filter_congr fun text _ => ?_
    rw [Bool.eq_iff_iff]
    simp
  rw [path, PathText.withExtension_push _ sp.fileStem_ne_nil (hnot '/' (by decide))
    (hnot '.' (by decide)), PathText.opened_pushes hcomponents, hdirs, ← String.toList_inj,
    pathText_concat, String.toList_ofList, String.toList_append,
    show PathText.opened [] = [] from rfl, List.nil_append, show ".k".toList = ['.', 'k'] from rfl]

theorem sanitize_standard [Text.Transliteration] : standard.sanitize = Naming.sanitize := by
  funext segment
  rw [sanitize, sanitize_eq, standard]

theorem fileStem_standard [Text.Transliteration] (name : String) :
    standard.fileStem name = Naming.fileStem name := by
  rw [Naming.fileStem, pascalize_eq, fileStem, standard]

/-- What is empty and stays so may be left out at once. -/
theorem filter_map_filter {f : String → String} (hempty : f "" = "") (texts : List String) :
    ((texts.filter (!·.isEmpty)).map f).filter (!·.isEmpty) =
      (texts.map f).filter (!·.isEmpty) := by
  induction texts with
  | nil => rfl
  | cons text rest ih =>
    by_cases h : text = ""
    · simp [h, hempty, ih]
    · simp [h, List.filter_cons, ih]

theorem directories_standard [Text.Transliteration] (package : String) :
    standard.directories package = Kcl.directories package := by
  rw [directories, components, sanitize_standard, filter_map_filter sanitize_empty, Kcl.directories]

/-- **Files are written to the paths of the standard spelling.** -/
theorem pathText_outputPath [Text.Transliteration] (f : ModelFile) :
    Kcl.pathText (Kcl.outputPath f) = standard.path f.package f.model.documentName := by
  rw [path_eq, directories_standard, fileStem_standard, Kcl.outputPath]

end Spelling

end Naming

/-! ## Places below a directory -/

theorem Kcl.split_pathText {names : List String} (hne : names ≠ [])
    (h : ∀ name ∈ names, '/' ∉ name.toList) : Text.split '/' (pathText names) = names := by
  induction names with
  | nil => exact absurd rfl hne
  | cons name rest ih =>
    have hname := Text.split_of_notMem (h name List.mem_cons_self)
    cases rest with
    | nil =>
      rw [pathText, String.intercalate_singleton]
      exact hname
    | cons next rest =>
      rw [pathText, String.intercalate_cons_of_ne_nil (List.cons_ne_nil next rest),
        show "/" = String.singleton '/' from rfl, Text.split_append, hname]
      exact congrArg (name :: ·)
        (ih (List.cons_ne_nil next rest) fun n hn => h n (List.mem_cons_of_mem name hn))

/--
The path leads from any directory to a place below it. It is relative and has directories and a file
with the extension, all of them named by identifier characters.
-/
structure StaysBelow (path : String) : Prop where
  relative : path.toList.head? ≠ some '/'
  components : ∃ dirs stem, Text.split '/' path = dirs ++ [stem ++ ".k"] ∧
    (∀ dir ∈ dirs, dir.toList ≠ [] ∧ ∀ c ∈ dir.toList, Naming.isIdentChar c = true) ∧
    stem.toList ≠ [] ∧ ∀ c ∈ stem.toList, Naming.isIdentChar c = true
  located : ∀ directory here, directory.toList ≠ [] → Cli.Folder.locate directory = some here →
    Cli.Folder.locate (Cli.below directory path) = some (here ++ Text.split '/' path)

theorem staysBelow_of_identChars {dirs : List String} {stem : String}
    (hdirs : ∀ dir ∈ dirs, dir.toList ≠ [] ∧ ∀ c ∈ dir.toList, Naming.isIdentChar c = true)
    (hne : stem.toList ≠ []) (hstem : ∀ c ∈ stem.toList, Naming.isIdentChar c = true) :
    StaysBelow (Kcl.pathText (dirs ++ [stem ++ ".k"])) := by
  have hnames := (Kcl.isFilePath_of_identChars hdirs hne hstem).names
  have hne' : dirs ++ [stem ++ ".k"] ≠ [] := by simp
  have hsplit := Kcl.split_pathText hne' fun name hname => (hnames name hname).slash
  refine ⟨?_, ⟨dirs, stem, hsplit, hdirs, hne, hstem⟩, fun directory here hdirectory hlocate => ?_⟩
  · obtain ⟨first, rest, hcons⟩ := List.exists_cons_of_ne_nil hne'
    have hfirst := hnames first (hcons ▸ List.mem_cons_self)
    obtain ⟨c, cs, hc⟩ := List.exists_cons_of_ne_nil hfirst.nonempty
    have hhead : (Kcl.pathText (first :: rest)).toList.head? = some c := by
      cases rest <;> simp [Kcl.pathText, String.intercalate_cons_cons, hc]
    rw [hcons, hhead]
    intro hslash
    exact hfirst.slash (hc ▸ Option.some.inj hslash ▸ List.mem_cons_self)
  · rw [hsplit]
    exact Cli.Folder.locate_below hdirectory hnames hlocate

theorem Naming.Spelling.path_staysBelow (sp : Naming.Spelling) (package name : String) :
    StaysBelow (sp.path package name) := by
  rw [sp.path_eq]
  exact staysBelow_of_identChars (fun dir => sp.directories_identChars) sp.fileStem_ne_nil
    fun c => sp.isIdentChar_of_fileStem

namespace Run

section

variable {tr : Text.Transliteration}

/-- **The files of a run go to the paths of its definitions** in the standard spelling. -/
theorem render_pathTexts {r : Run} {files : List Kcl.SourceFile} {stats : Statistics}
    (h : r.render = .ok (files, stats)) : ∃ names, r.definitionNames = .ok names ∧
      files.map (fun file => Kcl.pathText file.path) = names.map fun name =>
        Naming.Spelling.standard.path (r.options.packageOf name) name := by
  obtain ⟨names, hnames, hpaths⟩ := render_paths h
  refine ⟨names, hnames, ?_⟩
  have htexts := congrArg (List.map Kcl.pathText) hpaths
  rw [List.map_map, List.map_map] at htexts
  refine htexts.trans (List.map_congr_left fun name _ => ?_)
  rw [Function.comp, placeOf, Naming.Spelling.path_eq, Naming.Spelling.directories_standard,
    Naming.Spelling.fileStem_standard]

end

/--
**Files never leave the output directory**, whatever the names of definitions, the model package and
the mapped packages are, and however texts are spelled in ASCII. All files go to the paths of the
standard spelling, those of a run in the order of its definitions.
-/
theorem output_stays_below [Text.Transliteration] :
    (∀ (sp : Naming.Spelling) (o : Options) (name : String),
        StaysBelow (sp.path (o.packageOf name) name)) ∧
      (∀ f : ModelFile, StaysBelow (Kcl.pathText (Kcl.outputPath f)) ∧
        Kcl.pathText (Kcl.outputPath f) =
          Naming.Spelling.standard.path f.package f.model.documentName) ∧
      ∀ (r : Run) (files : List Kcl.SourceFile) (stats : Statistics),
        r.render = .ok (files, stats) →
          (∀ file ∈ files, StaysBelow (Kcl.pathText file.path)) ∧
          ∃ names, r.definitionNames = .ok names ∧
            files.map (fun file => Kcl.pathText file.path) = names.map fun name =>
              Naming.Spelling.standard.path (r.options.packageOf name) name := by
  refine ⟨fun sp o name => sp.path_staysBelow _ name, fun f => ?_, fun r files stats h => ?_⟩
  · have heq := Naming.Spelling.pathText_outputPath f
    exact ⟨heq ▸ Naming.Spelling.standard.path_staysBelow _ _, heq⟩
  · obtain ⟨names, hnames, htexts⟩ := render_pathTexts h
    refine ⟨fun file hfile => ?_, names, hnames, htexts⟩
    -- each path of a run is the path of some definition
    have hmem : Kcl.pathText file.path ∈ files.map fun file => Kcl.pathText file.path :=
      List.mem_map_of_mem hfile
    rw [htexts] at hmem
    obtain ⟨name, -, heq⟩ := List.mem_map.mp hmem
    exact heq ▸ Naming.Spelling.standard.path_staysBelow _ name

/-- Packages that would lead elsewhere if they were not spelled as identifiers. -/
def strayOptions : Options :=
  { modelPackage := "..\\C:", packageMap := [("etc", "/../.\u200B.3")] }

/-- A definition with a name that would do so as well. -/
def strays : Run :=
  { ofDefinitions [("etc./passwd", { types := ["object"] })] with options := strayOptions }

theorem strays_stay_below :
    Naming.Spelling.standard.components (strayOptions.packageOf "etc./passwd") =
        ["_C_", "_", "_", "", "_3"] ∧
      Naming.Spelling.standard.path (strayOptions.packageOf "etc./passwd") "etc./passwd" =
        "_C_/_/_/_3/passwd.k" ∧
      StaysBelow "_C_/_/_/_3/passwd.k" ∧
      ∃ files stats, strays.render = .ok (files, stats) ∧
        files.map (fun file => Kcl.pathText file.path) = ["_C_/_/_/_3/passwd.k"] ∧
        ∀ file ∈ files, StaysBelow (Kcl.pathText file.path) := by
  have hpath : Naming.Spelling.standard.path (strayOptions.packageOf "etc./passwd") "etc./passwd" =
      "_C_/_/_/_3/passwd.k" := by
    decide +kernel
  obtain ⟨⟨files, stats⟩, h, hfiles⟩ := exists_ok_of_any (e := strays.render)
    (p := fun rendered => rendered.1.map (fun file => Kcl.pathText file.path) ==
      ["_C_/_/_/_3/passwd.k"]) (by decide +kernel)
  exact ⟨by decide +kernel, hpath,
    hpath ▸ output_stays_below.1 .standard strayOptions "etc./passwd", files, stats, h,
    by simpa using hfiles, (output_stays_below.2.2 strays files stats h).1⟩

end Run

end KclModels
