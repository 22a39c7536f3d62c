import KclModels.Document.Scalar
import KclModels.Yaml.Cursor

/-!
# Tags

A tag is written as a handle and a suffix. The handle stands for the beginning of the tag, which a
directive of the document may set.
-/

namespace KclModels.Yaml

/-- A tag as it is written. The handle of a tag in angle brackets is empty. -/
structure Tag where
  handle : String
  suffix : String
deriving DecidableEq, Inhabited, Repr

namespace Tag

/-- The number of octets of a character whose first octet is given. -/
def octets? (first : Nat) : Option Nat :=
  if first < 0x80 then some 1
  else if first < 0xC0 then none
  else if first < 0xE0 then some 2
  else if first < 0xF0 then some 3
  else if first < 0xF8 then some 4
  else none

/-- The payload of the first octet of a character of `n` octets. -/
def payload (first n : Nat) : Nat := if n = 1 then first else first % twoPow (7 - n)

/-- Whether a character may stand in a tag as it is. -/
def isUriChar (verbatim : Bool) (c : Char) : Bool :=
  isNameChar c || ";/?:@&=+$.!~*'()".toList.contains c || (verbatim && ",[]".toList.contains c)

/--
Reads the characters of a tag, the escaped ones octet by octet: `left` more octets belong to the
character whose code point so far is `code`.
-/
def uri (verbatim : Bool) (left code : Nat) (acc : List Char) (p : Place) :
    List Char → Option (List Char × Cursor)
  | '%' :: a :: b :: rest =>
    match Scalar.digitIn? 16 a, Scalar.digitIn? 16 b with
    | some x, some y =>
      let octet := 16 * x + y
      match left with
      | 0 =>
        match octets? octet with
        | none => none
        | some 1 => uri verbatim 0 0 (Char.ofNat octet :: acc) (p.right 3) rest
        | some n => uri verbatim (n - 1) (payload octet n) acc (p.right 3) rest
      | left + 1 =>
        if octet / 64 = 2 then
          let code := 64 * code + octet % 64
          if left = 0 then uri verbatim 0 0 (Char.ofNat code :: acc) (p.right 3) rest
          else uri verbatim left code acc (p.right 3) rest
        else none
    | _, _ => none
  | c :: rest =>
    if left != 0 || c = '%' then none
    else if isUriChar verbatim c then uri verbatim 0 0 (c :: acc) (p.right 1) rest
    else some (acc.reverse, ⟨p, c :: rest⟩)
  | [] => if left = 0 then some (acc.reverse, ⟨p, []⟩) else none

/-- Reads the characters of a tag from a cursor on. -/
def readUri (verbatim : Bool) (c : Cursor) : Option (List Char × Cursor) :=
  uri verbatim 0 0 [] c.place c.rest

/-- Reads a handle: an exclamation mark, and perhaps a name and a second one. -/
def readHandle (c : Cursor) : List Char × Cursor :=
  let (name, c) := (c.skip 1).takeWhile isNameChar
  if c.rest.head? = some '!' then ('!' :: name ++ ['!'], c.skip 1) else ('!' :: name, c)

/-- Reads a tag; it has to end with a word or, in flow collections, before a comma. -/
def read (inFlow : Bool) (c : Cursor) : Option (Tag × Cursor) := do
  let (tag, c) ←
    if (c.rest.drop 1).head? = some '<' then do
      let (suffix, c) ← readUri true (c.skip 2)
      if suffix.isEmpty || c.rest.head? != some '>' then none
      else pure (⟨"", String.ofList suffix⟩, c.skip 1)
    else
      let (handle, c) := readHandle c
      if 1 < handle.length && handle.getLast? = some '!' then do
        let (suffix, c) ← readUri false c
        if suffix.isEmpty then none else pure (⟨String.ofList handle, String.ofList suffix⟩, c)
      else do
        let (more, c) ← readUri false c
        let suffix := handle.drop 1 ++ more
        pure (if suffix.isEmpty then ⟨"", "!"⟩ else ⟨"!", String.ofList suffix⟩, c)
  if atWordEnd c.rest || (inFlow && c.rest.head? = some ',') then return (tag, c) else none

/-- Where the tags of the YAML types are. -/
def home : String := "tag:yaml.org,2002:"

/-- The handles that every document knows. -/
def handles : List (String × String) := [("!", "!"), ("!!", home)]

/--
The full text of a tag, given what the handles stand for; none if the handle stands for nothing.
-/
def resolve? (handles : List (String × String)) (t : Tag) : Option String :=
  if t.handle.isEmpty then some t.suffix else (handles.lookup t.handle).map (· ++ t.suffix)

/-- What a full tag says about a scalar. -/
def scalarTag (full : String) : ScalarTag :=
  if full = home ++ "null" then .null
  else if full = home ++ "bool" then .bool
  else if full = home ++ "int" then .int
  else if full = home ++ "float" then .float
  else if full.toList.head? = some '!' then .own
  else .other

end Tag

end KclModels.Yaml
