import KclModels.Cli.Program

/-!
# The program on a real system

Reads the file that the arguments name and does what the plan says.
-/

namespace KclModels.Cli

/-- A number with two digits at least. -/
def twoDigits (n : Nat) : String := if n < 10 then "0" ++ toString n else toString n

/-- The time of day of a second since 1970, in universal time. -/
def timeOfDay (second : Int) : String :=
  let s := (second % 86400).toNat
  "[" ++ twoDigits (s / 3600) ++ ":" ++ twoDigits (s / 60 % 60) ++ ":" ++ twoDigits (s % 60) ++ "]"

/-- The time of day, which is that of a file made just now. -/
def now : IO String := do
  let (_, path) ← IO.FS.createTempFile
  let second := (← path.metadata).modified.sec
  IO.FS.removeFile path
  return timeOfDay second

/-- Reads a file. -/
def readInput (path : String) : IO (Except OpenError String) := do
  try
    return .ok (← IO.FS.readFile path)
  catch e => return .error ⟨toString e⟩

/-- Writes a file, with the directories on the way to it. -/
def writeOutput (path content : String) : IO Unit := do
  if let some (directory, _) := Text.cutLast? '/' path then
    unless directory.isEmpty do IO.FS.createDirAll directory
  IO.FS.writeFile path content

/-- Does something that is to be done. -/
def Event.perform : Event → IO Unit
  | .stamped colors line => do IO.println (stampedLine colors (← now) line)
  | .print line => IO.println line
  | .complain line => IO.eprintln line
  | .write path content => writeOutput path content

/--
Does what is to be done and gives the code to end with. A file that cannot be written ends it.
-/
def Plan.perform (p : Plan) : IO UInt32 := do
  try
    p.events.forM Event.perform
    return p.exitCode.toUInt32
  catch e =>
    IO.eprintln (report [toString e])
    return 1

end KclModels.Cli

/-- Runs the program. -/
def main (args : List String) : IO UInt32 := do
  match KclModels.Cli.Invocation.read args with
  | .error e => e.plan.perform
  | .ok i =>
    let terminal : KclModels.Cli.Terminal := {
      attached := ← (← IO.getStdout).isTty
      colors := ← IO.getEnv "COLORFGBG" }
    let content ← KclModels.Cli.readInput i.command.input
    (i.plan terminal content).perform
