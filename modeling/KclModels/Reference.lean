import KclModels.Text.Cut

/-!
# References

A reference is a text. One that names a definition is `#/definitions/` and the name; any other text
that starts with `#/` is a pointer into the document, and the rest point outside of it.
-/

namespace KclModels.Reference

/-- How every reference to a definition begins. -/
def definitionsHead : String := "#/definitions/"

/-- The reference to a definition. -/
def toDefinition (name : String) : String := definitionsHead ++ name

/-- Each definition has a reference of its own. -/
@[simp]
theorem toDefinition_inj {name name' : String} : toDefinition name = toDefinition name' ↔ name = name' :=
  String.append_right_inj definitionsHead

/--
The definition that a reference names; none for pointers into definitions and remote references.
-/
def name? (reference : String) : Option String :=
  match Text.after? definitionsHead reference with
  | some name => if name.isEmpty || name.toList.contains '/' then none else some name
  | none => none

theorem eq_of_name?_toDefinition {name n : String} (h : name? (toDefinition name) = some n) :
    n = name := by
  unfold name? toDefinition at h
  rw [Text.after?_append] at h
  simp only at h
  split at h
  · simp at h
  · exact (Option.some.inj h).symm

/-- A name without slashes can be referred to. -/
theorem name?_toDefinition {name : String} (hempty : name ≠ "") (hslash : '/' ∉ name.toList) :
    name? (toDefinition name) = some name := by
  unfold name? toDefinition
  rw [Text.after?_append]
  simp [hempty, hslash]

/-- A name with a slash cannot: its reference is a pointer into the document. -/
theorem name?_toDefinition_of_slash {name : String} (hslash : '/' ∈ name.toList) :
    name? (toDefinition name) = none := by
  unfold name? toDefinition
  rw [Text.after?_append]
  simp [hslash]

/-- Whether a reference points into the document. -/
def isLocal (reference : String) : Bool := Text.begins "#/" reference

/-- Undoes the escape `~1` of a slash in a token of a pointer. -/
def unescapeSlash : List Char → List Char
  | '~' :: '1' :: cs => '/' :: unescapeSlash cs
  | c :: cs => c :: unescapeSlash cs
  | [] => []

/-- Undoes the escape `~0` of a tilde in a token of a pointer. -/
def unescapeTilde : List Char → List Char
  | '~' :: '0' :: cs => '~' :: unescapeTilde cs
  | c :: cs => c :: unescapeTilde cs
  | [] => []

/-- A token of a pointer without escapes. -/
def unescape (token : List Char) : String := String.ofList (unescapeTilde (unescapeSlash token))

/-- The tokens of a pointer: what stands between the slashes after `#`, unescaped. -/
def tokens (reference : String) : List String :=
  let body := reference.toList.dropWhile (· = '#')
  ((Text.splitChars '/' body).filter (!·.isEmpty)).map unescape

end KclModels.Reference
