import Mathlib.Data.List.Infix
import KclModels.Cli.Folder
import KclModels.Kcl.File
import KclModels.Proofs.Naming.Stem
import KclModels.Proofs.Text.Cut

/-!
# Paths of generated files

The path of a file is made of names that hold no slash and lead nowhere else, so it reads back as
those names, also below the output directory. Only the last of them has a point in it: a generated
file never stands on the way to another.
-/

namespace KclModels

namespace Cli

/-- A name of a file or directory, not a way elsewhere. -/
structure IsName (name : String) : Prop where
  nonempty : name.toList ≠ []
  slash : '/' ∉ name.toList
  here : name ≠ "."
  up : name ≠ ".."

variable {directory path name : String} {names : List String}

theorem pathNames_append (s t : String) : pathNames (s ++ "/" ++ t) = pathNames s ++ pathNames t := by
  rw [pathNames, show "/" = String.singleton '/' from rfl, Text.split_append, List.filter_append]
  rfl

theorem pathNames_name (h : IsName name) : pathNames name = [name] := by
  rw [pathNames, Text.split, Text.splitChars_of_notMem h.slash]
  have hne : name.isEmpty = false := by
    rw [← Bool.not_eq_true, String.isEmpty_iff]
    rintro rfl
    exact h.nonempty rfl
  simp [String.ofList_toList, hne, h.here]

/-- **The text of a path reads back as its names.** -/
theorem pathNames_pathText (h : ∀ name ∈ names, IsName name) :
    pathNames (Kcl.pathText names) = names := by
  rw [Kcl.pathText]
  induction names with
  | nil => rfl
  | cons name rest ih =>
    have hname := pathNames_name (h name List.mem_cons_self)
    cases rest with
    | nil =>
      rw [String.intercalate_singleton]
      exact hname
    | cons next rest =>
      rw [String.intercalate_cons_of_ne_nil (List.cons_ne_nil next rest), pathNames_append, hname,
        ih fun n hn => h n (List.mem_cons_of_mem name hn)]
      rfl

/-- A path below a directory has the names of both. -/
theorem pathNames_below (directory path : String) :
    pathNames (below directory path) = pathNames directory ++ pathNames path := by
  unfold below
  split
  · rename_i hlast
    obtain ⟨before, hbefore⟩ := List.getLast?_eq_some_iff.mp hlast
    obtain rfl : directory = String.ofList before ++ "/" := by
      rw [← String.toList_inj, String.toList_append, String.toList_ofList, hbefore]
      rfl
    have hempty : String.ofList before ++ "/" = String.ofList before ++ "/" ++ "" := by simp
    rw [pathNames_append]
    conv_rhs => rw [hempty, pathNames_append]
    simp [pathNames, Text.split, Text.splitChars]
  · exact pathNames_append directory path

namespace Folder

variable {here : List String}

theorem walk_names (h : ∀ name ∈ names, name ≠ "..") : walk here names = some (here ++ names) := by
  induction names generalizing here with
  | nil => rw [walk, List.append_nil]
  | cons name rest ih =>
    rw [walk]
    · rw [ih fun n hn => h n (List.mem_cons_of_mem name hn), List.append_assoc]
      rfl
    · exact h name List.mem_cons_self

theorem walk_append (before after : List String) (here : List String) :
    walk here (before ++ after) = (walk here before).bind (walk · after) := by
  induction before generalizing here with
  | nil => rfl
  | cons name rest ih =>
    by_cases hup : name = ".."
    · subst hup
      rw [List.cons_append, walk, walk]
      split
      · rfl
      · exact ih _
    · rw [List.cons_append, walk, walk, ih]
      · exact hup
      · exact hup

/-- **A generated file lies below the output directory**, at its path. -/
theorem locate_below (hdirectory : directory.toList ≠ []) (h : ∀ name ∈ names, IsName name)
    (hlocate : locate directory = some here) :
    locate (below directory (Kcl.pathText names)) = some (here ++ names) := by
  unfold locate at hlocate ⊢
  have hhead : (below directory (Kcl.pathText names)).toList.head? = directory.toList.head? := by
    unfold below
    obtain ⟨c, cs, hcons⟩ := List.exists_cons_of_ne_nil hdirectory
    split <;> simp [hcons]
  rw [hhead]
  split at hlocate
  · simp at hlocate
  · rename_i hroot
    rw [if_neg hroot, pathNames_below, pathNames_pathText h, walk_append, hlocate]
    exact walk_names fun name hname => (h name hname).up

end Folder

end Cli

end KclModels

/-!
## Writing files into a directory

Files are written one after the other. Where no file stands on the way to another, each write works;
and where the places are all different, each file is there in the end as it was written.
-/

namespace KclModels

/-- A path that ends in the one name with a point. -/
structure Kcl.IsFilePath (path : List String) : Prop where
  names : ∀ name ∈ path, Cli.IsName name
  split : ∃ dirs file, path = dirs ++ [file] ∧ '.' ∈ file.toList ∧
    ∀ name ∈ dirs, '.' ∉ name.toList

namespace Kcl

variable {path path' : List String}

/-- A file is not in the place of a directory of another. -/
theorem IsFilePath.not_prefix_dropLast (h : IsFilePath path) (h' : IsFilePath path') :
    ¬ path <+: path'.dropLast := by
  obtain ⟨dirs, file, rfl, hpoint, -⟩ := h.split
  obtain ⟨dirs', file', rfl, -, hplain⟩ := h'.split
  rw [List.dropLast_concat]
  exact fun hp => hplain file (hp.subset (List.mem_append_right _ (List.mem_singleton_self file)))
    hpoint

end Kcl

namespace Cli.Folder

variable {folder folder' : Folder} {here place other : List String} {content : String}

theorem lookup_entry (folder : Folder) (names : List String) (content : String)
    (other : List String) : ((names, content) :: folder).lookup other =
      if other = names then some content else folder.lookup other := by
  rw [List.lookup_cons]
  by_cases h : other = names
  · rw [if_pos h, beq_iff_eq.mpr h]
  · rw [if_neg h, beq_eq_false_iff_ne.mpr h]

/-- Putting a file into a directory changes what is found at its place, and nothing else. -/
theorem lookup_put (folder : Folder) (place : List String) (content : String)
    (other : List String) : (folder.put place content).lookup other =
      if other = place then some content else folder.lookup other := by
  induction folder with
  | nil => rw [put, lookup_entry]
  | cons entry rest ih =>
    obtain ⟨names, old⟩ := entry
    rw [put]
    split
    · rename_i heq
      subst heq
      rw [lookup_entry, lookup_entry]
      split <;> rfl
    · rename_i hne
      rw [lookup_entry, lookup_entry, ih]
      by_cases h : other = names
      · rw [if_pos h, if_pos h, if_neg fun hp => hne (h.symm.trans hp)]
      · rw [if_neg h, if_neg h]

theorem mem_put {entry : List String × String} (h : entry ∈ folder.put place content) :
    entry ∈ folder ∨ entry.1 = place := by
  induction folder with
  | nil =>
    rw [put, List.mem_singleton] at h
    exact Or.inr (congrArg Prod.fst h)
  | cons e rest ih =>
    obtain ⟨names, old⟩ := e
    rw [put] at h
    split at h
    · rename_i heq
      rcases List.mem_cons.mp h with rfl | h
      · exact Or.inr heq
      · exact Or.inl (List.mem_cons_of_mem _ h)
    · rcases List.mem_cons.mp h with rfl | h
      · exact Or.inl List.mem_cons_self
      · exact (ih h).imp_left (List.mem_cons_of_mem _)

/-- Nothing is in the directory but generated files, and no file stands on the way to it. -/
def Ready (here : List String) (folder : Folder) : Prop :=
  ∀ entry ∈ folder, (¬ entry.1 <+: here ∧ ¬ here <+: entry.1) ∨
    ∃ path, Kcl.IsFilePath path ∧ entry.1 = here ++ path

/-- A file in the way of a directory below that of the generated files is none of these. -/
theorem Ready.not_prefix (h : folder.Ready here) {path : List String} (hpath : Kcl.IsFilePath path)
    {entry : List String × String} (he : entry ∈ folder) :
    ¬ entry.1 <+: (here ++ path).dropLast := by
  intro hprefix
  rw [List.dropLast_append_of_ne_nil ?_] at hprefix
  · rcases h entry he with ⟨hno, hno'⟩ | ⟨path', hpath', heq⟩
    · rcases List.prefix_or_prefix_of_prefix hprefix (List.prefix_append here path.dropLast) with
        hp | hp
      · exact hno hp
      · exact hno' hp
    · rw [heq, List.prefix_append_right_inj] at hprefix
      exact hpath'.not_prefix_dropLast hpath hprefix
  · obtain ⟨dirs, file, rfl, -⟩ := hpath.split
    simp

/-- A generated file is not on the way to a file of the directory. -/
theorem Ready.not_above (h : folder.Ready here) {path : List String} (hpath : Kcl.IsFilePath path)
    {entry : List String × String} (he : entry ∈ folder)
    (hlen : (here ++ path).length < entry.1.length) : ¬ here ++ path <+: entry.1 := by
  intro hprefix
  rcases h entry he with ⟨-, hno⟩ | ⟨path', hpath', heq⟩
  · exact hno ((List.prefix_append here path).trans hprefix)
  · rw [heq, List.prefix_append_right_inj] at hprefix
    obtain ⟨dirs, file, rfl, hpoint, -⟩ := hpath.split
    obtain ⟨dirs', file', rfl, -, hplain⟩ := hpath'.split
    have hlen : (dirs ++ [file]).length < (dirs' ++ [file']).length := by
      simp only [heq, List.length_append] at hlen ⊢
      omega
    rcases List.prefix_concat_iff.mp hprefix with hsame | hbelow
    · rw [hsame] at hlen
      exact absurd hlen (Nat.lt_irrefl _)
    · exact hplain file (hbelow.subset (List.mem_append_right _ (List.mem_singleton_self file)))
        hpoint

/-- **A generated file can be written**, and the directory stays ready for more. -/
theorem Ready.write (h : folder.Ready here) {path : List String} (hpath : Kcl.IsFilePath path)
    {text : String} (hlocate : locate text = some (here ++ path)) (content : String) :
    folder.write text content = .ok (folder.put (here ++ path) content) ∧
      (folder.put (here ++ path) content).Ready here := by
  refine ⟨?_, fun entry he => ?_⟩
  · rw [Folder.write, hlocate]
    dsimp only
    rw [if_neg, if_neg, if_neg]
    · rw [List.any_eq_true]
      rintro ⟨entry, he, hblock⟩
      rw [Bool.and_eq_true, decide_eq_true_eq, List.isPrefixOf_iff_prefix] at hblock
      -- no file lies below the path
      exact h.not_above hpath he hblock.1 hblock.2
    · intro hsome
      obtain ⟨old, hold⟩ := Option.isSome_iff_exists.mp hsome
      obtain ⟨before, after, heq, -⟩ := List.lookup_eq_some_iff.mp hold
      -- the directory that holds the file is no file
      have he : ((here ++ path).dropLast, old) ∈ folder := heq ▸ by simp
      exact h.not_prefix hpath he (List.prefix_refl _)
    · rw [blocks, List.any_eq_true]
      rintro ⟨entry, he, hblock⟩
      rw [Bool.and_eq_true, List.isPrefixOf_iff_prefix] at hblock
      -- and none of the directories above it
      exact h.not_prefix hpath he hblock.2
  · rcases mem_put he with he | heq
    · exact h entry he
    · exact Or.inr ⟨path, hpath, heq⟩

/-! ### All files -/

/-- What is done to write files below a directory. -/
def writes (output : String) (files : List Kcl.SourceFile) : List Event :=
  files.map fun file => .write (below output (Kcl.pathText file.path)) file.content

variable {output : String} {files : List Kcl.SourceFile} {o : Outcome} (time : String)

/-- A generated file that is written is put at its place. -/
theorem perform_write (houtput : output.toList ≠ []) (hlocate : locate output = some here)
    (ho : o.folder.Ready here) {file : Kcl.SourceFile} (hfile : Kcl.IsFilePath file.path)
    (rest : List Kcl.SourceFile) :
    perform time o (writes output (file :: rest)) =
        perform time { o with folder := o.folder.put (here ++ file.path) file.content }
          (writes output rest) ∧
      (o.folder.put (here ++ file.path) file.content).Ready here := by
  obtain ⟨hwrite, hready⟩ := ho.write hfile (locate_below houtput hfile.names hlocate) file.content
  refine ⟨?_, hready⟩
  rw [writes, List.map_cons, perform, hwrite]
  rfl

/-- Files are written without a failure, and what is found elsewhere is as before. -/
theorem perform_writes (houtput : output.toList ≠ []) (hlocate : locate output = some here)
    (hfiles : ∀ file ∈ files, Kcl.IsFilePath file.path) : ∀ {o : Outcome}, o.folder.Ready here →
    (perform time o (writes output files)).exitCode = o.exitCode ∧
      ∀ place, (∀ file ∈ files, place ≠ here ++ file.path) →
        (perform time o (writes output files)).folder.lookup place = o.folder.lookup place := by
  induction files with
  | nil => exact fun _ => ⟨rfl, fun _ _ => rfl⟩
  | cons file rest ih =>
    intro o ho
    obtain ⟨hstep, hready⟩ := perform_write time houtput hlocate ho
      (hfiles file List.mem_cons_self) rest
    obtain ⟨hcode, hsame⟩ := ih (fun f hf => hfiles f (List.mem_cons_of_mem file hf))
      (o := { o with folder := o.folder.put (here ++ file.path) file.content }) hready
    rw [hstep]
    refine ⟨hcode, fun place hplace => ?_⟩
    rw [hsame place fun f hf => hplace f (List.mem_cons_of_mem file hf), lookup_put,
      if_neg (hplace file List.mem_cons_self)]

/-- **Files at different places are all there in the end**, each as it was written. -/
theorem lookup_writes (houtput : output.toList ≠ []) (hlocate : locate output = some here)
    (hfiles : ∀ file ∈ files, Kcl.IsFilePath file.path) (hnodup : (files.map (·.path)).Nodup) :
    ∀ {o : Outcome}, o.folder.Ready here → ∀ file ∈ files,
      (perform time o (writes output files)).folder.lookup (here ++ file.path) =
        some file.content := by
  induction files with
  | nil => exact fun _ file hf => absurd hf List.not_mem_nil
  | cons first rest ih =>
    intro o ho file hf
    obtain ⟨hfirst, hrest⟩ := List.nodup_cons.mp hnodup
    have hfiles' : ∀ f ∈ rest, Kcl.IsFilePath f.path :=
      fun f hf => hfiles f (List.mem_cons_of_mem first hf)
    obtain ⟨hstep, hready⟩ := perform_write time houtput hlocate ho
      (hfiles first List.mem_cons_self) rest
    rw [hstep]
    rcases List.mem_cons.mp hf with rfl | hf
    · -- what is written later lies elsewhere
      obtain ⟨-, hsame⟩ := perform_writes time houtput hlocate hfiles'
        (o := { o with folder := o.folder.put (here ++ file.path) file.content }) hready
      rw [hsame, lookup_put, if_pos rfl]
      intro f hf heq
      exact hfirst (List.mem_map.mpr ⟨f, hf, (List.append_cancel_left heq).symm⟩)
    · exact ih hfiles' hrest hready file hf

theorem read_writes (houtput : output.toList ≠ []) (hlocate : locate output = some here)
    (hfiles : ∀ file ∈ files, Kcl.IsFilePath file.path) (hnodup : (files.map (·.path)).Nodup)
    (ho : o.folder.Ready here) {file : Kcl.SourceFile} (hf : file ∈ files) :
    (perform time o (writes output files)).folder.read
      (below output (Kcl.pathText file.path)) = .ok file.content := by
  rw [Folder.read, locate_below houtput (hfiles file hf).names hlocate]
  dsimp only
  rw [lookup_writes time houtput hlocate hfiles hnodup ho file hf]

end Cli.Folder

end KclModels
