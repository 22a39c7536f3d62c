import KclModels.Yaml.Cursor

/-!
# Block scalars

A block scalar is the lines below its header that are indented deeper than what holds it. A literal
one keeps its line breaks; a folded one joins lines with a space, except next to lines that begin
with a blank.
-/

namespace KclModels.Yaml.Block

/-- What becomes of the line breaks at the end. -/
inductive Chomp
  | clip
  | strip
  | keep
deriving DecidableEq

/--
The header of a block scalar: what becomes of the end, and how deep it is indented if it says so.
-/
structure Header where
  chomp : Chomp := .clip
  depth : Option Nat := none

/-- The chomping that a sign stands for. -/
def chomp? : Char → Option Chomp
  | '-' => some .strip
  | '+' => some .keep
  | _ => none

/-- Reads the sign and the digit of a header, in either order, each at most once. -/
def Header.read (c : Cursor) : Option (Header × Cursor) :=
  let digit? (c : Cursor) : Option (Option Nat × Cursor) :=
    match c.rest with
    | d :: _ =>
      if d = '0' then none
      else if d.isDigit then some (some (d.toNat - '0'.toNat), c.skip 1)
      else some (none, c)
    | [] => some (none, c)
  match c.rest.head?.bind chomp? with
  | some chomp => (digit? (c.skip 1)).map fun (depth, c) => (⟨chomp, depth⟩, c)
  | none =>
    match digit? c with
    | none => none
    | some (none, c) => some ({}, c)
    | some (depth, c) =>
      match c.rest.head?.bind chomp? with
      | some chomp => some (⟨chomp, depth⟩, c.skip 1)
      | none => some (⟨.clip, depth⟩, c)

/-- What is read of a block scalar. -/
structure Lines where
  literal : Bool
  /-- The column of the lines, none until it is known. -/
  indent : Option Nat
  /-- The column that the lines have to reach if the header does not say it. -/
  least : Nat
  /-- The text so far, last character first. -/
  text : List Char := []
  /-- The line break after the last line. -/
  last : Option Char := none
  /-- The line breaks of the empty lines after it, last first. -/
  empty : List Char := []
  /-- Whether the last line began with a blank. -/
  blank : Bool := false
  /-- The deepest column of the empty lines at the beginning. -/
  deepest : Nat := 0
  /-- Whether the reader is inside of a line. -/
  inLine : Bool := false

namespace Lines

/-- Whether a column is left of the lines, as far as that is known. -/
def isLeft (l : Lines) (column : Nat) : Bool := l.indent.all (column < ·)

/-- The lines when their column has to be known, at a first line that begins in `column`. -/
def settled (l : Lines) (column : Nat) : Lines × Nat :=
  let indent := l.indent.getD (max (max l.deepest column) l.least)
  ({ l with indent := some indent }, indent)

/-- Begins a line with the character `c`: what was pending is joined. -/
def startLine (l : Lines) (c : Char) : Lines :=
  let folds := !l.literal && l.last = some '\n' && !l.blank && !isGap c
  let join := if folds then if l.empty.isEmpty then [' '] else [] else l.last.toList
  { l with
    text := l.empty ++ join ++ l.text
    last := none
    empty := []
    blank := isGap c
    inLine := true }

/-- Takes a line break. -/
def pushBreak (l : Lines) (column : Nat) (c : Char) : Lines :=
  if l.inLine then { l with last := some (breakText c), inLine := false }
  else { l with empty := breakText c :: l.empty, deepest := max l.deepest column }

/-- The text of the lines. -/
def finish (l : Lines) (chomp : Chomp) : String :=
  let ending := match chomp with
    | .strip => []
    | .clip => l.last.toList
    | .keep => l.empty ++ l.last.toList
  String.ofList (ending ++ l.text).reverse

/-- Reads the lines of a scalar from a place on. -/
def read (l : Lines) (p : Place) : List Char → Option (Lines × Cursor)
  | [] => some (l, ⟨p, []⟩)
  | '\r' :: '\n' :: rest => read (l.pushBreak p.column '\n') (p.below 2) rest
  | c :: rest =>
    if isBreak c then read (l.pushBreak p.column c) (p.below 1) rest
    else if l.inLine then read { l with text := c :: l.text } (p.right 1) rest
    else if c = ' ' && l.isLeft p.column then read l (p.right 1) rest
    else if c = '\t' && l.isLeft p.column then none
    else
      let (l, indent) := l.settled p.column
      if p.column = indent then
        let l := l.startLine c
        read { l with text := c :: l.text } (p.right 1) rest
      else some (l, ⟨p, c :: rest⟩)

end Lines

/-- Reads a block scalar from its `|` or `>` on, inside of a collection at `indent`. -/
def read (literal : Bool) (indent : Int) (c : Cursor) : Option (String × Cursor) := do
  let (header, c) ← Header.read (c.skip 1)
  let c ← c.skipLineEnd?
  let lines : Lines :=
    { literal
      indent := header.depth.map ((max indent 0).toNat + ·)
      least := (indent + 1).toNat.max 1 }
  let (lines, c) ← lines.read c.place c.rest
  return (lines.finish header.chomp, c)

end KclModels.Yaml.Block
