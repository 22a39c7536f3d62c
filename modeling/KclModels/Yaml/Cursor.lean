/-!
# Places in a YAML text

The classes of characters that YAML distinguishes, a cursor that knows where in the text it stands,
and what is kept of the gap between two words. Indentation is a matter of columns, and keys have to
stand on one line, so each step of the cursor keeps its line and column.
-/

namespace KclModels.Yaml

/-! ## Classes of characters -/

/-- Whether a character may stand in a text at all. -/
def isAllowed (c : Char) : Bool :=
  c = '\t' || c = '\n' || c = '\r' || c = '\u0085' || (' ' ≤ c && c ≤ '~') ||
    ('\u00A0' ≤ c && c != '\uFFFE' && c != '\uFFFF')

/-- Whether a character ends a line. -/
def isBreak (c : Char) : Bool :=
  c = '\n' || c = '\r' || c = '\u0085' || c = '\u2028' || c = '\u2029'

/-- Whether a character separates words on a line. -/
def isGap (c : Char) : Bool := c = ' ' || c = '\t'

/-- Whether a character separates words. -/
def isSpacing (c : Char) : Bool := isGap c || isBreak c

/-- Whether a character may stand in the name of an anchor, a handle or a directive. -/
def isNameChar (c : Char) : Bool := c.isAlphanum || c = '_' || c = '-'

/-- Whether a word ends before `cs`. -/
def atWordEnd : List Char → Bool
  | [] => true
  | c :: _ => isSpacing c

/-- Whether a line ends before `cs`. -/
def atLineEnd : List Char → Bool
  | [] => true
  | c :: _ => isBreak c

/-- The text that a line break stands for: a line feed, except for the two separators of Unicode. -/
def breakText (c : Char) : Char := if c = '\u2028' || c = '\u2029' then c else '\n'

/-- Whether `cs` begins with the mark of a document, `---` or `...`, as a word. -/
def atMark (c : Char) (cs : List Char) : Bool :=
  cs.take 3 = [c, c, c] && atWordEnd (cs.drop 3)

/-! ## Places -/

/-- A place in a text, each part counted from zero. -/
structure Place where
  index : Nat := 0
  line : Nat := 0
  column : Nat := 0
deriving DecidableEq, Inhabited, Repr

/-- The place after `n` characters of a line. -/
def Place.right (p : Place) (n : Nat) : Place :=
  { p with index := p.index + n, column := p.column + n }

/-- The place after a line break of `n` characters. -/
def Place.below (p : Place) (n : Nat) : Place := ⟨p.index + n, p.line + 1, 0⟩

/-- A place and the text from there on. -/
structure Cursor where
  place : Place := {}
  rest : List Char
deriving Inhabited, Repr

namespace Cursor

/-- Goes past `n` characters of a line. -/
def skip (c : Cursor) (n : Nat) : Cursor := ⟨c.place.right n, c.rest.drop n⟩

/-- Takes the characters of a line that satisfy `p`. -/
def takeWhile (c : Cursor) (p : Char → Bool) : List Char × Cursor :=
  let taken := c.rest.takeWhile p
  (taken, ⟨c.place.right taken.length, c.rest.drop taken.length⟩)

/-- Goes past the characters of a line that satisfy `p`. -/
def skipWhile (c : Cursor) (p : Char → Bool) : Cursor := (c.takeWhile p).2

/-- Goes past a line break if there is one. -/
def skipBreak (c : Cursor) : Cursor :=
  match c.rest with
  | '\r' :: '\n' :: rest => ⟨c.place.below 2, rest⟩
  | d :: rest => if isBreak d then ⟨c.place.below 1, rest⟩ else c
  | [] => c

/-- Goes past what may follow on a line, gaps and a comment; none if there is anything else. -/
def skipLineEnd? (c : Cursor) : Option Cursor :=
  let c := c.skipWhile isGap
  let c := if c.rest.head? = some '#' then c.skipWhile (!isBreak ·) else c
  if atLineEnd c.rest then some c.skipBreak else none

end Cursor

/-! ## Gaps between words

Inside a plain or quoted scalar, what separates two words is kept as it is while it is on one line.
Line breaks are folded: a single one becomes a space, and of several the first is dropped.
-/

/-- What separates two words of a scalar. -/
structure Gap where
  /-- The blanks before any line break, last first. -/
  blanks : List Char := []
  /-- Whether there was a line break. -/
  broken : Bool := false
  /-- The first line break; none if it was escaped. -/
  first : Option Char := none
  /-- The line breaks after the first, last first. -/
  more : List Char := []
deriving Inhabited

namespace Gap

/-- The gap after an escaped line break. -/
def escaped : Gap := { broken := true }

/-- Takes a blank, which counts only before the first line break. -/
def pushBlank (g : Gap) (c : Char) : Gap :=
  if g.broken then g else { g with blanks := c :: g.blanks }

/-- Takes a line break. -/
def pushBreak (g : Gap) (c : Char) : Gap :=
  if g.broken then { g with more := breakText c :: g.more }
  else { broken := true, first := some (breakText c) }

/-- What a gap becomes, last character first. -/
def folded (g : Gap) : List Char :=
  if !g.broken then g.blanks
  else if g.first = some '\n' then if g.more.isEmpty then [' '] else g.more
  else g.more ++ g.first.toList

end Gap

end KclModels.Yaml
