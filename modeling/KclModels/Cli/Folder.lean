import KclModels.Cli.Program

/-!
# The program in a directory

A directory held in memory, and what a run of the program makes of it.
-/

namespace KclModels.Cli

/-- The files of a directory, each by the names on the way to it. -/
abbrev Folder := List (List String × String)

namespace Folder

/-- Goes along names, back where a name is `..`; none if that leads out of the directory. -/
def walk (here : List String) : List String → Option (List String)
  | [] => some here
  | ".." :: rest => if here.isEmpty then none else walk here.dropLast rest
  | name :: rest => walk (here ++ [name]) rest

/-- The place of a path in the directory, if it is there. -/
def locate (path : String) : Option (List String) :=
  if path.toList.head? = some '/' then none else walk [] (pathNames path)

/-- What the system says of a file that is not there. -/
def missing : OpenError := ⟨"No such file or directory (os error 2)"⟩

/-- What the system says of a file where a directory should be. -/
def notDirectory : OpenError := ⟨"Not a directory (os error 20)"⟩

/-- What the system says of a file in the place of a new directory. -/
def fileExists : OpenError := ⟨"File exists (os error 17)"⟩

/-- What the system says of a directory in the place of a new file. -/
def isDirectory : OpenError := ⟨"Is a directory (os error 21)"⟩

/-- Whether a file stands on the way to a place. -/
def blocks (folder : Folder) (place : List String) : Bool :=
  folder.any fun (names, _) => names.length < place.length && names.isPrefixOf place

/-- Reads a file. -/
def read (folder : Folder) (path : String) : Except OpenError String :=
  match locate path with
  | none => .error missing
  | some place =>
    match folder.lookup place with
    | some content => .ok content
    | none => .error (if folder.blocks place then notDirectory else missing)

/-- Puts a file into a directory, in the place of one that is there. -/
def put : Folder → List String → String → Folder
  | [], place, content => [(place, content)]
  | (names, old) :: rest, place, content =>
    if names = place then (names, content) :: rest else (names, old) :: put rest place content

/--
Writes a file, with the directories on the way to it. What is written elsewhere changes nothing
here.
-/
def write (folder : Folder) (path content : String) : Except OpenError Folder :=
  match locate path with
  | none => .ok folder
  | some place =>
    if folder.blocks place.dropLast then .error notDirectory
    else if (folder.lookup place.dropLast).isSome then .error fileExists
    else if folder.any fun (names, _) => place.length < names.length && place.isPrefixOf names then
      .error isDirectory
    else .ok (folder.put place content)

/-- The files that are not in another directory. -/
def without (folder other : Folder) : Folder :=
  folder.filter fun (names, _) => (other.lookup names).isNone

/-- The files in the order of their names, directory by directory. -/
def sorted (folder : Folder) : Folder := sortBy (fun a b => !decide (b.1 < a.1)) folder

end Folder

/-- What a run leaves behind. -/
structure Outcome where
  exitCode : Nat
  /-- What was printed. -/
  printed : String := ""
  /-- What was printed as errors and warnings. -/
  complaints : String := ""
  folder : Folder
deriving Inhabited

/-- Does what is to be done at a time of day. A file that cannot be written ends it. -/
def perform (time : String) (o : Outcome) : List Event → Outcome
  | [] => o
  | .stamped colors line :: rest =>
    perform time { o with printed := o.printed ++ stampedLine colors time line ++ "\n" } rest
  | .print line :: rest => perform time { o with printed := o.printed ++ line ++ "\n" } rest
  | .complain line :: rest =>
    perform time { o with complaints := o.complaints ++ line ++ "\n" } rest
  | .write path content :: rest =>
    match o.folder.write path content with
    | .ok folder => perform time { o with folder } rest
    | .error e => { o with exitCode := 1, complaints := o.complaints ++ report [e.reason] ++ "\n" }

/-- Runs the program with arguments in a directory. -/
def runIn (folder : Folder) (terminal : Terminal) (time : String) (args : List String) : Outcome :=
  let plan := match Invocation.read args with
    | .error e => e.plan
    | .ok i => i.plan terminal (folder.read i.command.input)
  perform time { exitCode := plan.exitCode, folder } plan.events

end KclModels.Cli
