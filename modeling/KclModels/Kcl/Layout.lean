/-!
# Layout of a file

The text of a file is laid out from lines and indented blocks of lines, four blanks a level.
-/

namespace KclModels.Kcl

/-- A part of a file. -/
inductive Block
  | line (text : String)
  /-- An empty line, unless there is one already or nothing stands before it. -/
  | blank
  | indented (body : List Block)
deriving Inhabited

/-- Whether a text ends in an empty line. -/
def endsBlank (out : String) : Bool :=
  match out.toList.reverse with
  | '\n' :: '\n' :: _ => true
  | _ => false

/-- The blanks before a line at a level. -/
def indentation (level : Nat) : String := String.ofList (List.replicate (4 * level) ' ')

/-- A line at a level; an empty one has no blanks. -/
def lineAt (level : Nat) (text : String) : String :=
  if text.isEmpty then "\n" else indentation level ++ text ++ "\n"

mutual

/-- Adds a block at a level to a text. -/
def Block.addTo (level : Nat) (out : String) : Block → String
  | .line text => out ++ lineAt level text
  | .blank => if out.isEmpty || endsBlank out then out else out ++ "\n"
  | .indented body => addBlocks (level + 1) out body

/-- Adds blocks at a level to a text, one after the other. -/
def addBlocks (level : Nat) (out : String) : List Block → String
  | [] => out
  | b :: rest => addBlocks level (b.addTo level out) rest

end

/-- A reversed text without the empty lines it ends in. -/
def dropBlankEnd : List Char → List Char
  | '\n' :: '\n' :: rest => dropBlankEnd ('\n' :: rest)
  | cs => cs

/-- The text of blocks, without empty lines at the end. -/
def layout (blocks : List Block) : String :=
  String.ofList (dropBlankEnd (addBlocks 0 "" blocks).toList.reverse).reverse

end KclModels.Kcl
