import KclModels.Cli.Arguments
import KclModels.Cli.Script
import KclModels.Load
import KclModels.Run

/-!
# The command `generate`

The files of a document are written below a directory, and what was done is said on the way.
-/

namespace KclModels.Cli

variable [Text.Transliteration]

/-! ## Paths -/

/-- The names that a path consists of. -/
def pathNames (path : String) : List String :=
  (Text.split '/' path).filter fun name => !name.isEmpty && name != "."

/--
The extension of a file: what follows the last point of its name, unless that begins the name.
-/
def extensionOf (path : String) : String :=
  match (pathNames path).getLast? with
  | some name =>
    if name = ".." then ""
    else match Text.cutLast? '.' name with
      | some (stem, ext) => if stem.isEmpty then "" else ext
      | none => ""
  | none => ""

/-- A path below a directory. -/
def below (directory path : String) : String :=
  if directory.toList.getLast? = some '/' then directory ++ path else directory ++ "/" ++ path

/-! ## Loading the document -/

/-- Why a file is not opened, as the system says it. -/
structure OpenError where
  reason : String
deriving DecidableEq, Inhabited, Repr

/-- The texts of an error, outermost first. -/
def OpenError.chain (path : String) (e : OpenError) : List String :=
  ["failed to open " ++ path, path ++ ": unable to open file: " ++ e.reason ++ ": IO error",
    e.reason ++ ": IO error", e.reason]

/-- The texts of an error in the file of a document, outermost first. -/
def loadChain (path : String) (crd : Bool) (e : LoadError) : List String :=
  if !crd then ("failed to parse Swagger document " ++ path) :: e.chain
  else match e with
    | .crd _ => ("failed to convert CRD " ++ path) :: e.chain
    | _ => e.chain

/-- Loads a document from a file with some content. -/
def loadDocument (path : String) (crd : Bool) (content : Except OpenError String) :
    Script Swagger := do
  let text ← Script.orFail (OpenError.chain path) content
  let format := TextFormat.ofExtension (extensionOf path)
  Script.orFail (loadChain path crd) (if crd then format.parseCrds text else format.parse text)

/-! ## What is said -/

/-- Digits with a comma after each group of three, counted from the end; given last first. -/
def groupDigits : List Char → List Char
  | a :: b :: c :: d :: rest => a :: b :: c :: ',' :: groupDigits (d :: rest)
  | digits => digits

/-- The text of a count. -/
def countText (n : Nat) : String :=
  String.ofList (groupDigits (toString n).toList.reverse).reverse

/-- How much is said, and in which colors. -/
structure Voice where
  colors : Colors
  verbose : Bool
  quiet : Bool

namespace Voice

/-- Says what is done next. -/
def announce (v : Voice) (message : String) : Script Unit := do
  unless v.quiet do Script.emit (.stamped v.colors (v.colors.paint .primary message))

/-- The line of a number or text with a label. -/
def statLine (v : Voice) (label value : String) : Event :=
  .print ("".pushn ' ' 12 ++ v.colors.paint .label label ++ " " ++ v.colors.paint .value value)

/-- Says a number or text with a label. -/
def stat (v : Voice) (label value : String) : Script Unit := do
  unless v.quiet do Script.emit (v.statLine label value)

/-- Says what is generated. -/
def announceRun (v : Voice) (r : Run) : Script Unit := do
  let about := r.about
  let title := if about.title.isEmpty then "" else " for " ++ about.title ++ " " ++ about.version
  v.announce ("Generating KCL schemas" ++ title ++ "...")
  if v.verbose then
    let description := Text.trim (about.description.getD "")
    unless description.isEmpty do
      v.stat "Description:" ((Text.lines description).headD "")
    v.stat "Definitions in input:" (countText r.definitions.length)

/-- The lines of the groups of definitions that need each other. -/
def cycleLines (v : Voice) (cycles : List (List String)) : List Event :=
  cycles.zipIdx.map fun (cycle, i) =>
    .print ("".pushn ' ' 14 ++ v.colors.paint .accent ("Cycle " ++ toString (i + 1)) ++ ": " ++
      v.colors.paint .info (" -> ".intercalate cycle))

/-- The line of a warning. -/
def warningLine (v : Voice) (w : Warning) : Event :=
  .complain (v.colors.paint .warning "Warning:" ++ " " ++ v.colors.paint .primary w.message)

/-- Says the statistics. Warnings that lose nothing are for a verbose run. -/
def summarize (v : Voice) (s : Statistics) : Script Unit := do
  unless v.quiet do
    v.stat "Schemas generated:" (countText s.total)
    v.stat "" (countText s.definitions ++ " definitions")
    v.stat "" (countText s.extraSchemas ++ " hoisted schemas")
    v.stat "" (countText s.typeAliases ++ " type aliases")
    if 0 < s.bases || 0 < s.subtypes then
      v.stat "Polymorphic:" (toString s.bases ++ " bases, " ++ toString s.subtypes ++ " subtypes")
    v.stat "Imports:" (countText s.imports)
    unless s.warnings.isEmpty do v.stat "Warnings:" (toString s.warnings.length)
    unless s.cycles.isEmpty do
      v.stat "Cycles:" (toString s.cycles.length)
      if v.verbose then Script.emitAll (v.cycleLines s.cycles)
    let shown := s.warnings.filter fun w => w.isLossy || v.verbose
    unless shown.isEmpty do
      Script.emit (.print "")
      Script.emitAll (shown.map v.warningLine)

/-- Says that all is written. -/
def announceEnd (v : Voice) (count : Nat) : Script Unit := do
  unless v.quiet do
    let message := "Successfully generated " ++ countText count ++ " KCL files"
    Script.emitAll [.print "", .stamped v.colors (v.colors.paint .success message)]

end Voice

/-- Generates the files of a document below `output`. -/
def Script.generate (v : Voice) (input output : String) (crd : Bool) (options : Options)
    (content : Except OpenError String) : Script Unit := do
  v.announce ("Loading " ++ (if crd then "CRD" else "Swagger document") ++ " from: " ++ input)
  let document ← loadDocument input crd content
  let run ← Script.orFail RunError.chain (Run.prepare document options)
  v.announceRun run
  let (files, stats) ← Script.orFail RunError.chain run.render
  v.summarize stats
  v.announce ("Writing to: " ++ output)
  let files := files.map fun f => (below output (Kcl.pathText f.path), f.content)
  Script.emitAll (files.map fun (path, content) => .write path content)
  if v.verbose then
    for (path, _) in files do v.stat "" path
  v.announceEnd files.length

end KclModels.Cli
