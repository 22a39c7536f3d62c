import KclModels.Text.Cut
import KclModels.Text.Width

/-!
# Tables on a terminal

A table has a heading and rows of cells. Its columns are as wide as what they hold, unless the
terminal is not: then columns that need no more than their share keep their width, and the texts of
the others are wrapped.
-/

namespace KclModels

/-- A column of a table. -/
structure Column where
  title : String
  rightAligned : Bool := false
deriving DecidableEq, Repr

/-- A table; each row has a cell for each column. -/
structure Table where
  columns : List Column
  rows : List (List String)
deriving Repr

namespace Table

/-! ## Wrapping a text -/

/-- A line with this much room is not added to any more. -/
def leastRoom : Nat := 2

/-- Ends a line that has no room for more. -/
def endIfFull (width : Nat) (line : String) : List String × String :=
  if width - leastRoom < Text.width line then ([line], "") else ([], line)

/-- The characters that fit into a width, and the others. -/
def fitting (room : Nat) : List Char → List Char × List Char
  | [] => ([], [])
  | c :: cs =>
    if room < Text.charWidth c then ([], c :: cs)
    else
      let (taken, left) := fitting (room - Text.charWidth c) cs
      (c :: taken, left)

/-- Cuts a word at a width. At the beginning of a line at least one character is taken. -/
def cutWord (room : Nat) (fresh : Bool) (word : String) : String × String :=
  match fitting room word.toList, word.toList with
  | ([], _), c :: cs =>
    if fresh then (String.singleton c, String.ofList cs) else ("", word)
  | (taken, left), _ => (String.ofList taken, String.ofList left)

/--
Adds a word to a line: the lines that this ends, and the line that is left. A word that is too long
for any line is cut, which makes it shorter, and a line without room is ended first.
-/
def addWord (width : Nat) (line word : String) : (fuel : Nat) → List String × String
  | 0 => ([line], word)
  | fuel + 1 =>
    let fresh := line.isEmpty
    let space := if fresh then "" else " "
    let room := width - Text.width line - space.length
    if Text.width line + space.length + Text.width word ≤ width then
      endIfFull width (line ++ space ++ word)
    else if !fresh && room ≤ leastRoom then
      let (lines, rest) := addWord width "" word fuel
      (line :: lines, rest)
    else if width < Text.width word then
      let (part, left) := cutWord room fresh word
      let (lines, rest) := addWord width "" left fuel
      ((line ++ space ++ part) :: lines, rest)
    else
      let (lines, rest) := endIfFull width word
      (line :: lines, rest)

/-- Adds words to a line one after the other. -/
def addWords (width : Nat) (line : String) : List String → List String
  | [] => if line.isEmpty then [] else [line]
  | word :: rest =>
    let (lines, line) := addWord width line word (2 * word.length + 2)
    lines ++ addWords width line rest

/-- The lines of a text in a column. -/
def wrap (width : Nat) (text : String) : List String :=
  (Text.split '\n' text).flatMap fun line =>
    if Text.width line ≤ width then [line] else addWords width "" (Text.split ' ' line)

/-! ## The widths of the columns -/

/-- The width of the longest of some lines. -/
def longest (lines : List String) : Nat := (lines.map Text.width).foldl max 0

/-- The columns that have no width yet share what is left. -/
structure Share where
  left : Nat
  columns : Nat

/-- What each of them would get. -/
def Share.each (s : Share) : Nat := s.left / s.columns

/-- Gives a column a width. -/
def Share.take (s : Share) (width : Nat) : Share := ⟨s.left - width, s.columns - 1⟩

/-- Gives the columns for which `choose` finds a width in their share this width, in order. -/
def settle (choose : Nat → List String → Option Nat) (s : Share) :
    List (List String × Option Nat) → Share × List (List String × Option Nat)
  | [] => (s, [])
  | (cells, some width) :: rest =>
    let (s, rest) := settle choose s rest
    (s, (cells, some width) :: rest)
  | (cells, none) :: rest =>
    match choose s.each cells with
    | some width =>
      let (s, rest) := settle choose (s.take width) rest
      (s, (cells, some width) :: rest)
    | none =>
      let (s, rest) := settle choose s rest
      (s, (cells, none) :: rest)

/-- Settles columns until no more can be, which takes at most a pass for each column. -/
def settleAll (choose : Nat → List String → Option Nat) (s : Share)
    (columns : List (List String × Option Nat)) : Share × List (List String × Option Nat) :=
  columns.foldl (fun (s, columns) _ => settle choose s columns) (s, columns)

/-- The width of a column whose texts need no wrapping. -/
def natural (cells : List String) : Nat := longest (cells.flatMap (Text.split '\n'))

/-- The natural width of a column if it is within its share. -/
def chooseNatural (share : Nat) (cells : List String) : Option Nat :=
  if natural cells ≤ share then some (natural cells) else none

/-- The width of a column wrapped to its share, if that leaves at least three columns free. -/
def chooseWrapped (share : Nat) (cells : List String) : Option Nat :=
  let width := longest (cells.flatMap (wrap share))
  if width + 3 ≤ share then some width else none

/-- Gives the columns without width the rest in equal parts; the first get what does not divide. -/
def divide (each extra : Nat) : List (List String × Option Nat) → List Nat
  | [] => []
  | (_, some width) :: rest => width :: divide each extra rest
  | (_, none) :: rest => (if 0 < extra then each + 1 else each) :: divide each (extra - 1) rest

/-- The widths of columns that may take `available` together. -/
def arrange (available : Nat) (columns : List (List String)) : List Nat :=
  let undecided := columns.map fun cells => (cells, none)
  let (s, settled) := settleAll chooseNatural ⟨available, columns.length⟩ undecided
  let (s, settled) := settleAll chooseWrapped s settled
  let left := max s.left s.columns
  divide (left / s.columns) (left % s.columns) settled

/-! ## Lines -/

/-- The texts of each column, the title first. -/
def contents (t : Table) : List (List String) :=
  t.columns.zipIdx.map fun (column, i) => column.title :: t.rows.filterMap (·[i]?)

/-- The widths of the columns on a terminal of some width, or without wrapping. -/
def widths (t : Table) (terminal : Option Nat) : List Nat :=
  match terminal with
  | none => t.contents.map natural
  | some width =>
    arrange (width - (t.columns.length - 1) - 2 * t.columns.length) t.contents

/-- A text filled up to a width, with a blank on both sides. -/
def padded (column : Column) (width : Nat) (text : String) : String :=
  let fill := "".pushn ' ' (width - Text.width text)
  if column.rightAligned then " " ++ fill ++ text ++ " " else " " ++ text ++ fill ++ " "

/-- The lines of a row. -/
def rowLines (columns : List (Column × Nat)) (cells : List String) : List String :=
  let wrapped := (columns.zip cells).map fun ((column, width), cell) =>
    (column, width, wrap width cell)
  let height := (wrapped.map fun (_, _, lines) => lines.length).foldl max 0
  (List.range height).map fun i =>
    " ".intercalate (wrapped.map fun (column, width, lines) => padded column width (lines[i]?.getD ""))

/-- A rule of some width. -/
def rule (width : Nat) : String := "".pushn '─' width

/-- The lines of a table on a terminal of some width, or without wrapping. -/
def lines (t : Table) (terminal : Option Nat) : List String :=
  let widths := t.widths terminal
  let columns := t.columns.zip widths
  let edge := " ".intercalate (widths.map fun w => rule (w + 2))
  let title := rowLines columns (t.columns.map (·.title))
  [edge] ++ title ++ [rule edge.length] ++ t.rows.flatMap (rowLines columns) ++ [edge]

end Table

end KclModels
