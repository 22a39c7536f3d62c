import KclModels.Document.Scalar
import KclModels.Yaml.Tag

/-!
# Tokens of YAML

What a YAML text is made of once its indentation is known: block collections have a beginning and an
end like flow collections do, and keys are marked as such.
-/

namespace KclModels.Yaml

/-- A token. -/
inductive Token
  /-- The directive of the version. -/
  | version (major minor : Nat)
  /-- The directive that says what a handle stands for. -/
  | handle (handle meaning : String)
  | documentStart
  | documentEnd
  | blockSeqStart
  | blockMapStart
  | blockEnd
  | flowSeqStart
  | flowSeqEnd
  | flowMapStart
  | flowMapEnd
  | blockEntry
  | flowEntry
  | key
  | value
  | anchor (name : String)
  /-- The repetition of what an anchor marks. -/
  | mention (name : String)
  | tag (t : Tag)
  | scalar (text : String) (style : ScalarStyle)
deriving DecidableEq, Inhabited, Repr

namespace Token

/-- Reads an anchor or a mention, of which `make` makes the token. -/
def readName (make : String → Token) (c : Cursor) : Option (Token × Cursor) :=
  let (name, c) := (c.skip 1).takeWhile isNameChar
  let ends := atWordEnd c.rest || c.rest.head?.any fun d => "?:,]\x7d%@`".toList.contains d
  if name.isEmpty || !ends then none else some (make (String.ofList name), c)

/-- Reads a number of at most nine digits. -/
def readNumber (c : Cursor) : Option (Nat × Cursor) :=
  let (digits, c) := c.takeWhile Char.isDigit
  if digits.isEmpty || 9 < digits.length then none
  else some (digits.foldl (fun n d => 10 * n + (d.toNat - '0'.toNat)) 0, c)

/-- Reads what a version directive says. -/
def readVersion (c : Cursor) : Option (Token × Cursor) := do
  let (major, c) ← readNumber (c.skipWhile isGap)
  if c.rest.head? != some '.' then none
  let (minor, c) ← readNumber (c.skip 1)
  return (.version major minor, c)

/-- Reads what a tag directive says. -/
def readTagDirective (c : Cursor) : Option (Token × Cursor) := do
  let c := c.skipWhile isGap
  if c.rest.head? != some '!' then none
  let (sign, c) := Tag.readHandle c
  if sign.getLast? != some '!' then none
  if !c.rest.head?.any isGap then none
  let (meaning, c) ← Tag.readUri true (c.skipWhile isGap)
  if meaning.isEmpty || !atWordEnd c.rest then none
  return (.handle (String.ofList sign) (String.ofList meaning), c)

/-- Reads a directive with its line. -/
def readDirective (c : Cursor) : Option (Token × Cursor) := do
  let (name, c) := (c.skip 1).takeWhile isNameChar
  if !atWordEnd c.rest then none
  let (token, c) ←
    if name = "YAML".toList then readVersion c
    else if name = "TAG".toList then readTagDirective c
    else none
  return (token, ← c.skipLineEnd?)

end Token

end KclModels.Yaml
