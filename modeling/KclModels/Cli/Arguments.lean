import KclModels.Cli.Flag
import KclModels.Options

/-!
# Reading arguments

The arguments of the program are read from left to right, command by command. The value of a flag is
looked at when the next flag comes or the arguments of the command end, so the first fault in this
order is the error; the faults of a command come before those of the commands above it.
-/

namespace KclModels.Cli

/-- What the program is asked to do. -/
inductive Command
  | generate (input output : String) (crd verbose quiet : Bool) (options : Options)
  | listDefinitions (input : String) (crd : Bool)
deriving DecidableEq, Inhabited, Repr

/-- A command, and how its output looks. -/
structure Invocation where
  color : ColorMode
  theme : ThemeMode
  command : Command
deriving DecidableEq, Inhabited, Repr

/-- Why the program is not run. -/
inductive ArgumentError
  | usage (e : UsageError)
  | badMapping (e : BadMapping)
deriving DecidableEq, Repr

/-- How far the arguments of a command are read. -/
structure Progress where
  given : Given := {}
  /-- The last flag with a value, which is not looked at yet, or still has to come. -/
  pending : Option (Flag × Option String) := none

namespace Progress

/-- Looks at the value of the last flag. -/
def settle (p : Progress) : Except UsageError Progress :=
  match p.pending with
  | none => .ok p
  | some (_, none) => .error .invalidValue
  | some (f, some value) => (p.given.setValue f value).map fun given => { given }

/-- Whether a value has to come. -/
def isWaiting (p : Progress) : Bool := p.pending.any fun (_, value) => value.isNone

/-- Takes the value that has to come. -/
def giveValue (p : Progress) (value : String) : Progress :=
  { p with pending := p.pending.map fun (f, _) => (f, some value) }

/-- Takes a flag, perhaps with a value attached to it. -/
def take (p : Progress) (f : Flag) (attached : Option String) : Except UsageError Progress := do
  if f.takesValue then
    let p ← p.settle
    match attached with
    | some value => return { given := ← p.given.setValue f value }
    | none => return { p with pending := some (f, none) }
  else if attached.isSome then throw .superfluousValue
  else
    let p ← p.settle
    return { given := ← p.given.set f }

/-- Takes an argument with a long name, after its two hyphens. -/
def takeLong (level : Level) (p : Progress) (body : String) : Except UsageError Progress :=
  let (name, attached) := match Text.cutFirst? '=' body with
    | some (name, value) => (name, some value)
    | none => (body, none)
  match level.findLong? name with
  | some f => p.take f attached
  | none => .error .unknownArgument

/-- The value that is attached to a letter; an equals sign before it does not belong to it. -/
def attachedTo : List Char → Option String
  | [] => none
  | '=' :: value => some (String.ofList value)
  | value => some (String.ofList value)

/-- Takes the letters of an argument, of which the first that takes a value takes the others. -/
def takeLetters (level : Level) (p : Progress) : List Char → Except UsageError Progress
  | [] => .ok p
  | c :: rest =>
    match level.findLetter? c with
    | none => .error .unknownArgument
    | some f =>
      if f.takesValue then p.take f (attachedTo rest)
      else do takeLetters level (← p.take f none) rest

/-- Ends the arguments of a command, below which `below` says whether another one was given. -/
def finish (level : Level) (p : Progress) (below : Bool) : Except UsageError Given := do
  let p ← p.settle
  if level.needsCommand && !below then
    throw (if p.given = {} then .nothingGiven else .missingCommand)
  if level.flags.contains .input && p.given.input.isNone then throw .missingRequired
  return p.given

end Progress

/-- The error of a superfluous argument. -/
def superfluous (level : Level) : UsageError :=
  if level.needsCommand then .unknownCommand else .unknownArgument

/-- The error of the first argument behind a lone `--`, where no command may stand any more. -/
def superfluousBehind (level : Level) (arg : String) : UsageError :=
  if arg = "help" || (level.commands.lookup arg).isSome then .unknownArgument else superfluous level

/-- Follows the commands that help is asked for. -/
def helpFor (level : Level) : List String → UsageError
  | [] => .help
  | arg :: rest =>
    match level.commands.lookup arg with
    | some below => helpFor below rest
    | none => if level.needsCommand && arg = "help" && rest.isEmpty then .help else .unknownCommand

/--
Reads the arguments of a command: what was given to it and to those below it, outermost first.
-/
def readLevel (level : Level) (p : Progress) :
    List String → Except UsageError (List (Level × Given))
  | [] => do return [(level, ← p.finish level false)]
  | arg :: rest => do
    if !p.isWaiting then
      if level.needsCommand && arg = "help" then throw (helpFor level rest)
      if let some below := level.commands.lookup arg then
        let inner ← readLevel below {} rest
        return (level, ← p.finish level true) :: inner
    if arg = "--" then
      match rest with
      | [] => return [(level, ← p.finish level false)]
      | next :: _ => throw (superfluousBehind level next)
    match Text.after? "--" arg, arg.toList with
    | some body, _ => readLevel level (← p.takeLong level body) rest
    | none, '-' :: c :: letters => readLevel level (← p.takeLetters level (c :: letters)) rest
    | none, _ =>
      if p.isWaiting then readLevel level (p.giveValue arg) rest
      else throw (superfluous level)

/-- The command that was given. -/
def commandOf (level : Level) (g : Given) : Except BadMapping Command :=
  let input := g.input.getD ""
  match level with
  | .generate => do
    let packageMap ← readMappings g.packages
    return .generate input (g.output.getD ".") g.crd g.verbose g.quiet {
      keepOrder := !g.disableKeepOrder
      strictAdditionalProperties := g.strictAdditionalProperties
      modelPackage := g.modelPackage.getD Options.defaultPackage
      packageMap
      names := g.models }
  | _ => return .listDefinitions input g.crd

/--
Reads the arguments of the program, without its name. Flags for the look of the output may be given
to each command; the innermost counts.
-/
def Invocation.read (args : List String) : Except ArgumentError Invocation := do
  let levels ← (readLevel .program {} args).mapError .usage
  let given := levels.reverse.map Prod.snd
  match levels.getLast? with
  | none => throw (.usage .nothingGiven)
  | some (level, g) =>
    let command ← (commandOf level g).mapError .badMapping
    return {
      color := (given.findSome? (·.color)).getD .auto
      theme := (given.findSome? (·.theme)).getD .auto
      command }

end KclModels.Cli
