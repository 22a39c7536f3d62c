import KclModels.Cli.Color

/-!
# Flags and commands

The commands of the program, the flags that each of them knows, and what is remembered of the flags
that were given to one of them.
-/

namespace KclModels.Cli

/-- Why the arguments are not accepted, or ask for a text in place of a command. -/
inductive UsageError
  | missingRequired
  /-- A value that is not allowed, or none where one is needed. -/
  | invalidValue
  | unknownArgument
  /-- A flag that may be given once only. -/
  | repeated
  /-- A value for a flag that takes none. -/
  | superfluousValue
  | unknownCommand
  | missingCommand
  /-- No arguments at all where a command is needed. -/
  | nothingGiven
  | help
  | version
deriving DecidableEq, Inhabited, Repr

/-- The exit code; asking for help or the version is no failure. -/
def UsageError.exitCode : UsageError → Nat
  | .help | .version => 0
  | _ => 2

/-- A flag. -/
inductive Flag
  | color
  | theme
  | input
  | output
  | crd
  | model
  | disableKeepOrder
  | strictAdditionalProperties
  | package
  | modelPackage
  | verbose
  | quiet
  | help
  | version
deriving DecidableEq, Inhabited, Repr

namespace Flag

/-- The long name of a flag. -/
def long : Flag → String
  | .color => "color"
  | .theme => "theme"
  | .input => "input"
  | .output => "output"
  | .crd => "crd"
  | .model => "model"
  | .disableKeepOrder => "disable-keep-order"
  | .strictAdditionalProperties => "strict-additional-properties"
  | .package => "package"
  | .modelPackage => "model-package"
  | .verbose => "verbose"
  | .quiet => "quiet"
  | .help => "help"
  | .version => "version"

/-- The letter of a flag. -/
def letter? : Flag → Option Char
  | .input => some 'i'
  | .output => some 'o'
  | .model => some 'm'
  | .verbose => some 'v'
  | .quiet => some 'q'
  | .help => some 'h'
  | .version => some 'V'
  | _ => none

/-- Whether a flag takes a value. -/
def takesValue : Flag → Bool
  | .color | .theme | .input | .output | .model | .package | .modelPackage => true
  | _ => false

end Flag

/-- A command, or the program itself. -/
inductive Level
  | program
  | list
  | listDefinitions
  | generate
deriving DecidableEq, Inhabited, Repr

namespace Level

/-- The flags of a command. -/
def flags : Level → List Flag
  | .program => [.color, .theme, .help, .version]
  | .list => [.color, .theme, .help]
  | .listDefinitions => [.input, .crd, .color, .theme, .help]
  | .generate =>
    [.input, .output, .crd, .model, .disableKeepOrder, .strictAdditionalProperties, .package,
      .modelPackage, .verbose, .quiet, .color, .theme, .help]

/-- The commands below a command. -/
def commands : Level → List (String × Level)
  | .program => [("list", .list), ("generate", .generate)]
  | .list => [("definitions", .listDefinitions)]
  | _ => []

/-- Whether one of the commands below has to be given. -/
def needsCommand (l : Level) : Bool := !l.commands.isEmpty

def findLong? (l : Level) (name : String) : Option Flag := l.flags.find? (·.long == name)

def findLetter? (l : Level) (c : Char) : Option Flag := l.flags.find? (·.letter? == some c)

end Level

/-- What was given to a command. -/
structure Given where
  color : Option ColorMode := none
  theme : Option ThemeMode := none
  input : Option String := none
  output : Option String := none
  crd : Bool := false
  models : List String := []
  disableKeepOrder : Bool := false
  strictAdditionalProperties : Bool := false
  packages : List String := []
  modelPackage : Option String := none
  verbose : Bool := false
  quiet : Bool := false
deriving DecidableEq, Inhabited, Repr

namespace Given

/-- A value that may be given once. -/
def once {α : Type} (old : Option α) (value : Option α) : Except UsageError (Option α) :=
  if old.isSome then .error .repeated
  else match value with
    | some a => .ok (some a)
    | none => .error .invalidValue

/-- A path, which is not empty. -/
def path? (s : String) : Option String := if s.isEmpty then none else some s

/-- Takes a flag with its value. Whether the flag was given before is looked at first. -/
def setValue (g : Given) (f : Flag) (value : String) : Except UsageError Given :=
  match f with
  | .color => (once g.color (ColorMode.ofWord? value)).map fun v => { g with color := v }
  | .theme => (once g.theme (ThemeMode.ofWord? value)).map fun v => { g with theme := v }
  | .input => (once g.input (path? value)).map fun v => { g with input := v }
  | .output => (once g.output (path? value)).map fun v => { g with output := v }
  | .modelPackage => (once g.modelPackage (some value)).map fun v => { g with modelPackage := v }
  | .model => .ok { g with models := g.models ++ [value] }
  | .package => .ok { g with packages := g.packages ++ [value] }
  | _ => .error .superfluousValue

/-- A switch that may be given once. -/
def switch (old : Bool) : Except UsageError Bool := if old then .error .repeated else .ok true

/-- Takes a flag without value. -/
def set (g : Given) (f : Flag) : Except UsageError Given :=
  match f with
  | .crd => (switch g.crd).map fun v => { g with crd := v }
  | .disableKeepOrder => (switch g.disableKeepOrder).map fun v => { g with disableKeepOrder := v }
  | .strictAdditionalProperties =>
    (switch g.strictAdditionalProperties).map fun v => { g with strictAdditionalProperties := v }
  | .verbose => (switch g.verbose).map fun v => { g with verbose := v }
  | .quiet => (switch g.quiet).map fun v => { g with quiet := v }
  | .help => .error .help
  | .version => .error .version
  | _ => .error .invalidValue

end Given

end KclModels.Cli
