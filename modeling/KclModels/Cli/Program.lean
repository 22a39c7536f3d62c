import KclModels.Cli.Listing
import KclModels.Text.AsciiTable

/-!
# The program

From the arguments of the program to what it does. Which file it reads follows from the arguments
alone, so that what it does is a function of the arguments, that file and the terminal.
-/

namespace KclModels.Cli

/-- What the program may know about the terminal. -/
structure Terminal where
  /-- Whether the output goes to a terminal. -/
  attached : Bool := false
  /-- What the terminal says of its colors. -/
  colors : Option String := none

/-- What the program does, and the code it ends with. -/
structure Plan where
  events : List Event
  exitCode : Nat

/-- The file that a command reads. -/
def Command.input : Command → String
  | .generate input _ _ _ _ _ => input
  | .listDefinitions input _ => input

/-- What a command does, given the content of the file that it reads. -/
def Command.script (c : Command) (colors : Colors) (content : Except OpenError String) :
    Script Unit :=
  match c with
  | .generate input output crd verbose quiet options =>
    Script.generate { colors, verbose, quiet } input output crd options content
  | .listDefinitions input crd => Script.listDefinitions input crd content

/-- The name and version of the program. -/
def versionText : String := "kcl-openapi 0.1.0"

/-- How the program is used. -/
def helpText : String :=
  "Swagger 2.0 and Kubernetes CRD to KCL schema generator\n\n" ++
  "Usage: kcl-openapi [OPTIONS] <COMMAND>\n\n" ++
  "Commands:\n" ++
  "  list definitions  List every definition with its KCL category and polymorphic role\n" ++
  "  generate          Generate KCL schemas from a Swagger document or CRD\n"

/-- The text of an error in the usage. -/
def UsageError.message : UsageError → String
  | .missingRequired => "error: a required argument is missing"
  | .invalidValue => "error: a value is missing or not allowed"
  | .unknownArgument => "error: unexpected argument"
  | .repeated => "error: an argument is given more than once"
  | .superfluousValue => "error: unexpected value"
  | .unknownCommand => "error: unrecognized subcommand"
  | .missingCommand => "error: a subcommand is required"
  | .nothingGiven | .help => helpText
  | .version => versionText

/-- What is done when the arguments ask for no command. -/
def UsageError.plan (e : UsageError) : Plan where
  events := [if e.exitCode = 0 then .print e.message else .complain e.message]
  exitCode := e.exitCode

/-- What is done in place of a command. -/
def ArgumentError.plan : ArgumentError → Plan
  | .usage e => e.plan
  | .badMapping e => ⟨[.complain (report [e.message])], 1⟩

/-- What the program does with a command. -/
def Invocation.plan (i : Invocation) (terminal : Terminal) (content : Except OpenError String) :
    Plan :=
  let colors := Colors.choose i.color i.theme terminal.attached terminal.colors
  match (i.command.script colors content).run [] with
  | (.ok _, events) => ⟨events, 0⟩
  | (.error chain, events) => ⟨events ++ [.complain (report chain)], 1⟩

end KclModels.Cli
