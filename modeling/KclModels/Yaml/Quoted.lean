import KclModels.Document.Scalar
import KclModels.Yaml.Cursor

/-!
# Quoted scalars

In single quotes, only the quote itself is written in a special way: twice. In double quotes a
backslash begins an escape, and one at the end of a line hides the line break.
-/

namespace KclModels.Yaml.Quoted

/-- The character that a letter after a backslash stands for. -/
def escape? : Char → Option Char
  | '0' => some '\x00'
  | 'a' => some '\x07'
  | 'b' => some '\x08'
  | 't' | '\t' => some '\t'
  | 'n' => some '\n'
  | 'v' => some '\x0b'
  | 'f' => some '\x0c'
  | 'r' => some '\r'
  | 'e' => some '\x1b'
  | ' ' => some ' '
  | '"' => some '"'
  | '/' => some '/'
  | '\\' => some '\\'
  | 'N' => some '\u0085'
  | '_' => some '\u00A0'
  | 'L' => some '\u2028'
  | 'P' => some '\u2029'
  | _ => none

/-- The number of hexadecimal digits that follow a letter after a backslash. -/
def hexDigits? : Char → Option Nat
  | 'x' => some 2
  | 'u' => some 4
  | 'U' => some 8
  | _ => none

/-- The character of a code point that is no surrogate. -/
def charOf? (n : Nat) : Option Char := if h : n.isValidChar then some (Char.ofNatAux n h) else none

/-- Where in a scalar the reader stands. -/
inductive Mode
  /-- Inside of a word. -/
  | word
  /-- Behind a gap. -/
  | gap (g : Gap)
  /-- Behind a backslash. -/
  | backslash
  /-- Inside an escape with `left` more digits. -/
  | hex (left value : Nat)

/-- The text so far with the gap that the mode holds, last character first. -/
def Mode.join (m : Mode) (text : List Char) : List Char :=
  match m with
  | .gap g => g.folded ++ text
  | _ => text

/-- The mode behind a line break. -/
def Mode.pushBreak (m : Mode) (c : Char) : Option Mode :=
  match m with
  | .word => some (.gap (Gap.pushBreak {} c))
  | .gap g => some (.gap (g.pushBreak c))
  | .backslash => some (.gap .escaped)
  | .hex _ _ => none

/-- Reads a scalar after its opening quote; `text` is what was read, last character first. -/
def body (double : Bool) (mode : Mode) (text : List Char) (p : Place) :
    List Char → Option (String × Cursor)
  | [] => none
  | '\r' :: '\n' :: rest =>
    match mode.pushBreak '\n' with
    | some mode => body double mode text (p.below 2) rest
    | none => none
  | '\'' :: '\'' :: rest =>
    if double then
      match mode with
      | .backslash | .hex _ _ => none
      | mode => body double .word ('\'' :: '\'' :: mode.join text) (p.right 2) rest
    else body double .word ('\'' :: mode.join text) (p.right 2) rest
  | c :: rest =>
    if isBreak c then
      match mode.pushBreak c with
      | some mode => body double mode text (p.below 1) rest
      | none => none
    else
      match mode with
      | .backslash =>
        match escape? c, hexDigits? c with
        | some d, _ => body double .word (d :: text) (p.right 1) rest
        | none, some n => body double (.hex n 0) text (p.right 1) rest
        | none, none => none
      | .hex left value =>
        match Scalar.digitIn? 16 c with
        | none => none
        | some d =>
          let value := 16 * value + d
          if 1 < left then body double (.hex (left - 1) value) text (p.right 1) rest
          else
            match charOf? value with
            | some e => body double .word (e :: text) (p.right 1) rest
            | none => none
      | .word =>
        if c = (if double then '"' else '\'') then
          some (String.ofList text.reverse, ⟨p.right 1, rest⟩)
        else if isGap c then body double (.gap (Gap.pushBlank {} c)) text (p.right 1) rest
        else if double && c = '\\' then body double .backslash text (p.right 1) rest
        else body double .word (c :: text) (p.right 1) rest
      | .gap g =>
        if isGap c then body double (.gap (g.pushBlank c)) text (p.right 1) rest
        else if p.column = 0 && (atMark '-' (c :: rest) || atMark '.' (c :: rest)) then none
        else
          let text := g.folded ++ text
          if c = (if double then '"' else '\'') then
            some (String.ofList text.reverse, ⟨p.right 1, rest⟩)
          else if double && c = '\\' then body double .backslash text (p.right 1) rest
          else body double .word (c :: text) (p.right 1) rest

/-- Reads a scalar from its opening quote on. -/
def read (double : Bool) (c : Cursor) : Option (String × Cursor) :=
  body double .word [] (c.place.right 1) (c.rest.drop 1)

end KclModels.Yaml.Quoted
