import KclModels.Cli.Color

/-!
# What the program does

A run of the program is worked out first, as a list of things to do, and done afterwards. What was
to be done before a failure is done too.
-/

namespace KclModels.Cli

/-- Something to do. -/
inductive Event
  /-- Print a line with the time of day in front. -/
  | stamped (colors : Colors) (line : String)
  | print (line : String)
  /-- Print a line for errors and warnings. -/
  | complain (line : String)
  | write (path content : String)
deriving DecidableEq, Repr

/-- The line that a stamped one is at a time of day. -/
def stampedLine (colors : Colors) (time line : String) : String :=
  colors.paint .timestamp time ++ " " ++ line

/-- A part of a run, which fails with the texts of an error, outermost first. -/
abbrev Script := ExceptT (List String) (StateM (List Event))

namespace Script

/-- Adds something to do. -/
def emit (e : Event) : Script Unit := modify (· ++ [e])

/-- Adds several things to do. -/
def emitAll (es : List Event) : Script Unit := modify (· ++ es)

/-- Goes on with a result, or fails with the texts of its error. -/
def orFail {ε α : Type} (chain : ε → List String) (r : Except ε α) : Script α :=
  match r with
  | .ok a => return a
  | .error e => throw (chain e)

end Script

/-! ## Reports of errors -/

/-- The lines of a cause, all but the first indented like the text of the first. -/
def indented (first rest text : String) : String :=
  first ++ ("\n" ++ rest).intercalate (Text.split '\n' text)

/--
The report of an error: its outermost text, and below it what caused it, numbered if there are
several causes.
-/
def report : List String → String
  | [] => "Error: "
  | [text] => "Error: " ++ text
  | [text, cause] => "Error: " ++ text ++ "\n\nCaused by:\n" ++ indented "    " "    " cause
  | text :: causes =>
    let numbered := causes.zipIdx.map fun (cause, i) =>
      let number := toString i
      indented ("".pushn ' ' (5 - number.length) ++ number ++ ": ") "       " cause
    "Error: " ++ text ++ "\n\nCaused by:\n" ++ "\n".intercalate numbered

end KclModels.Cli
