/-!
# Blank characters

The characters with the Unicode property `White_Space`, and what is defined through them: cutting
blanks off the ends of a text, and the lines of a text.
-/

namespace KclModels.Text

/-- The ranges of the Unicode property `White_Space`. -/
def blankRanges : List (Nat × Nat) :=
  [(0x09, 0x0D), (0x20, 0x20), (0x85, 0x85), (0xA0, 0xA0), (0x1680, 0x1680), (0x2000, 0x200A),
    (0x2028, 0x2029), (0x202F, 0x202F), (0x205F, 0x205F), (0x3000, 0x3000)]

/-- Whether a character is white space. -/
def isBlank (c : Char) : Bool :=
  blankRanges.any fun r => r.1 ≤ c.toNat && c.toNat ≤ r.2

/-- A text without the blanks it ends in. -/
def trimRight (s : String) : String :=
  String.ofList (s.toList.reverse.dropWhile isBlank).reverse

/-- A text without the blanks around it. -/
def trim (s : String) : String :=
  trimRight (String.ofList (s.toList.dropWhile isBlank))

/-- A line without the carriage return that may close it. -/
def dropReturn (line : List Char) : List Char :=
  if line.getLast? = some '\r' then line.dropLast else line

/-- The lines among `cs`, the characters of the current one in `line` last first. -/
def splitLines (line : List Char) : List Char → List String
  | [] => if line.isEmpty then [] else [String.ofList line.reverse]
  | '\n' :: cs => String.ofList (dropReturn line.reverse) :: splitLines [] cs
  | c :: cs => splitLines (c :: line) cs

/--
The lines of a text: what line feeds end, each without a carriage return before its line feed. A
last line that no line feed ends counts when it is not empty, and keeps its carriage return.
-/
def lines (s : String) : List String := splitLines [] s.toList

end KclModels.Text
