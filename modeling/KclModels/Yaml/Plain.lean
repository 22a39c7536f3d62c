import KclModels.Yaml.Cursor

/-!
# Plain scalars

A plain scalar is a row of words without quotes. It goes on over lines as long as they are indented
deeper than what holds it.
-/

namespace KclModels.Yaml

/-- Whether a character ends words inside of flow collections. -/
def isFlowMark (c : Char) : Bool := c = ',' || c = '[' || c = ']' || c = '\x7b' || c = '\x7d'

/-- What is read of a plain scalar. -/
structure Plain where
  text : String
  /-- Whether a line ended after the last word. -/
  broken : Bool
  cursor : Cursor

namespace Plain

/-- Whether a word that would begin with `cs` is no part of the scalar any more. -/
def isOver (inFlow : Bool) (margin : Int) (gap : Gap) (p : Place) (cs : List Char) : Bool :=
  cs.head? = some '#' ||
    (p.column = 0 && (atMark '-' cs || atMark '.' cs)) ||
    (gap.broken && !inFlow && decide ((p.column : Int) < margin))

/-- The scalar that ends at a place, behind a gap or right behind its last word. -/
def ending (text : List Char) (gap : Option Gap) (p : Place) (rest : List Char) : Plain :=
  ⟨String.ofList text.reverse, gap.any (·.broken), ⟨p, rest⟩⟩

/--
Reads the words from a place on: `words` is the text so far, last character first, and `gap` what
separates it from the word that comes next, none inside of a word. Lines have to reach `margin`.
-/
def words (inFlow : Bool) (margin : Int) (text : List Char) (gap : Option Gap) (p : Place) :
    List Char → Option Plain
  | [] => some (ending text gap p [])
  | '\r' :: '\n' :: rest =>
    words inFlow margin text (some ((gap.getD {}).pushBreak '\n')) (p.below 2) rest
  | c :: rest =>
    if isBreak c then
      words inFlow margin text (some ((gap.getD {}).pushBreak c)) (p.below 1) rest
    else if isGap c then
      if c = '\t' && gap.any (·.broken) && decide ((p.column : Int) < margin) then none
      else words inFlow margin text (some ((gap.getD {}).pushBlank c)) (p.right 1) rest
    else if gap.any fun g => isOver inFlow margin g p (c :: rest) then
      some (ending text gap p (c :: rest))
    else if inFlow && c = ':' && rest.head?.any (fun d => isFlowMark d || d = '?') then none
    else if (c = ':' && atWordEnd rest) || (inFlow && isFlowMark c) then
      some (ending text gap p (c :: rest))
    else words inFlow margin (c :: ((gap.map Gap.folded).getD [] ++ text)) none (p.right 1) rest

/-- Reads a plain scalar inside of a collection at `indent`. -/
def read (inFlow : Bool) (indent : Int) (c : Cursor) : Option Plain :=
  words inFlow (indent + 1) [] (some {}) c.place c.rest

end Plain

end KclModels.Yaml
