import KclModels.Kcl.Declaration

/-!
# Files

The text of a file and the place where it goes.
-/

namespace KclModels.Kcl

variable [Text.Transliteration]

/-- A file, with its path below the output directory as the names of directories and file. -/
structure SourceFile where
  path : List String
  content : String
deriving DecidableEq, Inhabited, Repr

/-- The text of a path. -/
def pathText (path : List String) : String := "/".intercalate path

/-- What every file starts with. -/
def notice : String :=
  "\"\"\"\n" ++
  "This file was generated by the KCL auto-gen tool. DO NOT EDIT.\n" ++
  "Editing this file might prove futile when you re-run the KCL auto-gen generate command.\n" ++
  "\"\"\""

/-- The line that imports a package. -/
def importLine (i : Import) : String :=
  if i.renamed then "import " ++ i.path ++ " as " ++ i.asName else "import " ++ i.path

/-- What stands above the declarations. -/
def preamble (f : ModelFile) : List Block :=
  let regex := (f.model :: f.extras).any declarationUsesRegex
  [.line notice] ++ (if regex then [.line "import regex"] else []) ++
    f.imports.map fun i => .line (importLine i)

/-- The declarations of a file. -/
def body (f : ModelFile) : List Block :=
  declaration f.model ++ f.extras.flatMap fun m => [.blank, .line ""] ++ declaration m

/-- The text of a file. -/
def fileText (f : ModelFile) : String := layout (preamble f) ++ "\n" ++ layout (body f)

/-- The directories of a package: one for each segment that has anything to name it by. -/
def directories (package : String) : List String :=
  ((Text.split '.' package).map Naming.sanitize).filter (!·.isEmpty)

/-- The path of a file: the directories of its package, and a file named after the definition. -/
def outputPath (f : ModelFile) : List String :=
  directories f.package ++
    [Naming.fileStem (Naming.shortName f.model.documentName) ++ ".k"]

/-- The file of a definition. -/
def render (f : ModelFile) : SourceFile where
  path := outputPath f
  content := fileText f

end KclModels.Kcl
