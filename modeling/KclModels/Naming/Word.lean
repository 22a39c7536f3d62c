import KclModels.Text.Ascii
import KclModels.Text.Capital
import KclModels.Text.Cut

/-!
# Words and the shapes of names

Names are put together from ASCII words. This module holds the two shapes a name can be brought
into, `PascalCase` for types and `snake_case` for files and packages.
-/

namespace KclModels.Naming

variable [Text.Transliteration]

/-- Whether a character is an ASCII letter or digit. -/
def isWordChar (c : Char) : Bool := c.isAlpha || c.isDigit

/-- Whether a character can stand in an identifier. -/
def isIdentChar (c : Char) : Bool := isWordChar c || c = '_'

/--
A type name from any text: its words, each with a capital first letter, without what stands between
them. A name never starts with a digit and is never empty.
-/
def pascalize (name : String) : String :=
  let words := Text.runs isWordChar (Text.toAscii name).toList
  let ident := words.flatMap fun w => (Text.capitalize (String.ofList w)).toList
  match ident with
  | [] => "Unnamed"
  | c :: _ => if c.isDigit then String.ofList ('N' :: 'r' :: ident) else String.ofList ident

/-- Whether words are joined by this character. -/
def isSeparator (c : Char) : Bool := c = ' ' || c = '-' || c = '_'

/-- Puts an underscore between a small letter and a capital that follows it. -/
def partCapitals : List Char → List Char
  | c :: d :: cs =>
    if c.isLower && d.isUpper then c :: '_' :: partCapitals (d :: cs)
    else c :: partCapitals (d :: cs)
  | cs => cs

/-- An ASCII text in `snake_case`. -/
def snakeCase (s : String) : String :=
  let parts := s.toList.map fun c => if isSeparator c then '_' else c
  String.ofList ((partCapitals parts).map Char.toLower)

/-- The stem of the file of a model, such as `cron_tab_spec` for `CronTabSpec`. -/
def fileStem (name : String) : String := snakeCase (pascalize name)

end KclModels.Naming
