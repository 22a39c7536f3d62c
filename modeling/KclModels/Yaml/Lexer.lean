import KclModels.Yaml.Block
import KclModels.Yaml.Plain
import KclModels.Yaml.Quoted
import KclModels.Yaml.Token

/-!
# From a YAML text to its tokens

Indentation opens and closes block collections. That a scalar or a flow collection is a key shows
only at the colon behind it, so the place of the last possible key is kept for each open flow
collection, and its token is put in later.
-/

namespace KclModels.Yaml

/-- A place where a key may have begun. -/
structure PossibleKey where
  /-- Whether something else than a key would not be well formed there. -/
  required : Bool
  /-- The number of tokens before it. -/
  position : Nat
  place : Place
deriving Inhabited

/-- What is known while a text is read. -/
structure Lexer where
  cursor : Cursor
  /-- The tokens so far, last first. -/
  tokens : List Token := []
  /-- The number of tokens. -/
  count : Nat := 0
  /-- The column of the innermost block collection; -1 outside of all. -/
  indent : Int := -1
  /-- The columns of the block collections around it. -/
  outer : List Int := []
  /-- Whether a key may begin here. -/
  keyAllowed : Bool := true
  /-- The possible key in the innermost flow collection, or outside of all. -/
  key : Option PossibleKey := none
  /-- The possible keys around the open flow collections, one for each of them. -/
  outerKeys : List (Option PossibleKey) := []

namespace Lexer

/-- Whether a flow collection is open. -/
def inFlow (l : Lexer) : Bool := !l.outerKeys.isEmpty

/-- Appends a token. -/
def push (l : Lexer) (t : Token) : Lexer :=
  { l with tokens := t :: l.tokens, count := l.count + 1 }

/-- Puts a token behind the first `position` ones. -/
def insert (l : Lexer) (position : Nat) (t : Token) : Lexer :=
  let behind := l.count - position
  { l with tokens := l.tokens.take behind ++ t :: l.tokens.drop behind, count := l.count + 1 }

/-! ## Indentation -/

/-- Begins a block collection at a column that is deeper than what is open. -/
def roll (l : Lexer) (column position : Nat) (t : Token) : Lexer :=
  if l.inFlow || decide ((column : Int) ≤ l.indent) then l
  else { l.insert position t with outer := l.indent :: l.outer, indent := column }

/--
The innermost block collection that is not deeper than a column, and the ends of the deeper ones.
-/
def closed (column indent : Int) : List Int → Nat × Int × List Int
  | [] => (0, indent, [])
  | i :: is =>
    if column < indent then
      let (n, indent, outer) := closed column i is
      (n + 1, indent, outer)
    else (0, indent, i :: is)

/-- Ends the block collections that are deeper than a column. -/
def unroll (l : Lexer) (column : Int) : Lexer :=
  if l.inFlow then l
  else
    let (n, indent, outer) := closed column l.indent l.outer
    { l with
      tokens := List.replicate n .blockEnd ++ l.tokens, count := l.count + n, indent, outer }

/-! ## Possible keys -/

/-- Gives a possible key up; none if it was required. -/
def dropKey? (l : Lexer) : Option Lexer :=
  if l.key.any (·.required) then none else some { l with key := none }

/--
A key that is still possible at a place: keys stand on one line and have at most 1024 characters.
-/
def PossibleKey.at? (p : Place) (k : Option PossibleKey) : Option (Option PossibleKey) :=
  match k with
  | none => some none
  | some k =>
    if k.place.line < p.line || k.place.index + 1024 < p.index then
      if k.required then none else some none
    else some (some k)

/-- Gives up the keys that are not possible any more. -/
def dropStale? (l : Lexer) : Option Lexer := do
  let key ← PossibleKey.at? l.cursor.place l.key
  let outerKeys ← l.outerKeys.mapM (PossibleKey.at? l.cursor.place)
  return { l with key, outerKeys }

/-- Remembers that a key may begin here. -/
def saveKey? (l : Lexer) : Option Lexer :=
  if l.keyAllowed then do
    let l ← l.dropKey?
    let required := !l.inFlow && l.indent = l.cursor.place.column
    return { l with key := some ⟨required, l.count, l.cursor.place⟩ }
  else some l

/-! ## Tokens -/

/-- Goes past white space, comments and line breaks, behind which a key may begin. -/
def skipSpacing (inFlow keyAllowed inComment : Bool) (p : Place) : List Char → Bool × Cursor
  | '\r' :: '\n' :: rest => skipSpacing inFlow (keyAllowed || !inFlow) false (p.below 2) rest
  | c :: rest =>
    if isBreak c then skipSpacing inFlow (keyAllowed || !inFlow) false (p.below 1) rest
    else if inComment || c = ' ' || (c = '\t' && (inFlow || !keyAllowed)) ||
        (c = '\uFEFF' && p.index = 0) then
      skipSpacing inFlow keyAllowed inComment (p.right 1) rest
    else if c = '#' then skipSpacing inFlow keyAllowed true (p.right 1) rest
    else (keyAllowed, ⟨p, c :: rest⟩)
  | [] => (keyAllowed, ⟨p, []⟩)

/-- Goes on to the next token. -/
def advance? (l : Lexer) : Option Lexer := do
  let (keyAllowed, cursor) :=
    skipSpacing l.inFlow l.keyAllowed false l.cursor.place l.cursor.rest
  let l ← { l with keyAllowed, cursor }.dropStale?
  return l.unroll cursor.place.column

/-- Appends the token of `n` characters that comes next. -/
def punctuation (l : Lexer) (n : Nat) (t : Token) : Lexer :=
  { l.push t with cursor := l.cursor.skip n }

/-- The beginning or end of a document. -/
def mark? (l : Lexer) (t : Token) : Option Lexer := do
  let l ← (l.unroll (-1)).dropKey?
  return { l with keyAllowed := false }.punctuation 3 t

/-- A directive. -/
def directive? (l : Lexer) : Option Lexer := do
  let l ← (l.unroll (-1)).dropKey?
  let (t, cursor) ← Token.readDirective l.cursor
  return { l.push t with cursor, keyAllowed := false }

/-- The beginning of a flow collection. -/
def openFlow? (l : Lexer) (t : Token) : Option Lexer := do
  let l ← l.saveKey?
  return { l with outerKeys := l.key :: l.outerKeys, key := none, keyAllowed := true }.punctuation 1 t

/-- The end of a flow collection. -/
def closeFlow? (l : Lexer) (t : Token) : Option Lexer := do
  let l ← l.dropKey?
  let l := match l.outerKeys with
    | k :: ks => { l with key := k, outerKeys := ks }
    | [] => l
  return { l with keyAllowed := false }.punctuation 1 t

/-- The comma in a flow collection. -/
def flowEntry? (l : Lexer) : Option Lexer := do
  let l ← l.dropKey?
  return { l with keyAllowed := true }.punctuation 1 .flowEntry

/-- Begins the block collection of a sign that stands here; none if none may begin. -/
def startBlock? (l : Lexer) (t : Token) : Option Lexer :=
  if l.inFlow then some l
  else if l.keyAllowed then some (l.roll l.cursor.place.column l.count t)
  else none

/-- The hyphen before an item. -/
def blockEntry? (l : Lexer) : Option Lexer := do
  let l ← (← l.startBlock? .blockSeqStart).dropKey?
  return { l with keyAllowed := true }.punctuation 1 .blockEntry

/-- The question mark before a key. -/
def explicitKey? (l : Lexer) : Option Lexer := do
  let l ← (← l.startBlock? .blockMapStart).dropKey?
  return { l with keyAllowed := !l.inFlow }.punctuation 1 .key

/-- The colon before a value, which makes a key of the possible one. -/
def value? (l : Lexer) : Option Lexer := do
  let l ← match l.key with
    | some k =>
      let l := (l.insert k.position .key).roll k.place.column k.position .blockMapStart
      pure { l with key := none, keyAllowed := false }
    | none => do
      let l ← l.startBlock? .blockMapStart
      pure { l with keyAllowed := !l.inFlow }
  return l.punctuation 1 .value

/-- A token that may be a key or belong to one, as `read` reads it. -/
def content? (l : Lexer) (read : Cursor → Option (Token × Cursor)) : Option Lexer := do
  let l ← l.saveKey?
  let (t, cursor) ← read l.cursor
  return { l.push t with cursor, keyAllowed := false }

/-- A plain scalar. A key may begin behind it if it ends with a line. -/
def plain? (l : Lexer) : Option Lexer := do
  let l ← l.saveKey?
  let s ← Plain.read l.inFlow l.indent l.cursor
  return { l.push (.scalar s.text .plain) with cursor := s.cursor, keyAllowed := s.broken }

/-- A block scalar. -/
def block? (l : Lexer) (literal : Bool) : Option Lexer := do
  let l ← l.dropKey?
  let (text, cursor) ← Block.read literal l.indent l.cursor
  let token := Token.scalar text (if literal then .literal else .folded)
  return { l.push token with cursor, keyAllowed := true }

/-- A quoted scalar. -/
def readQuoted (double : Bool) (c : Cursor) : Option (Token × Cursor) :=
  (Quoted.read double c).map fun (text, c) => (.scalar text .quoted, c)

/-- Whether a plain scalar may begin with `c`, and `next` behind it. -/
def startsPlain (inFlow : Bool) (c : Char) (next : List Char) : Bool :=
  if c = '-' then !next.head?.any isGap
  else if c = '?' || c = ':' then !inFlow && !atWordEnd next
  else !isSpacing c && !",[]\x7b\x7d#&*!|>'\"%@`".toList.contains c

/-- Takes the token that begins with `c`. -/
def token? (l : Lexer) (c : Char) (next : List Char) : Option Lexer :=
  let first := l.cursor.place.column = 0
  if first && c = '%' then l.directive?
  else if first && atMark '-' (c :: next) then l.mark? .documentStart
  else if first && atMark '.' (c :: next) then l.mark? .documentEnd
  else if c = '[' then l.openFlow? .flowSeqStart
  else if c = '\x7b' then l.openFlow? .flowMapStart
  else if c = ']' then l.closeFlow? .flowSeqEnd
  else if c = '\x7d' then l.closeFlow? .flowMapEnd
  else if c = ',' then l.flowEntry?
  else if c = '-' && atWordEnd next then l.blockEntry?
  else if c = '?' && (l.inFlow || atWordEnd next) then l.explicitKey?
  else if c = ':' && (l.inFlow || atWordEnd next) then l.value?
  else if c = '*' then l.content? (Token.readName .mention)
  else if c = '&' then l.content? (Token.readName .anchor)
  else if c = '!' then l.content? fun cur => (Tag.read l.inFlow cur).map fun (t, cur) => (.tag t, cur)
  else if c = '|' && !l.inFlow then l.block? true
  else if c = '>' && !l.inFlow then l.block? false
  else if c = '\'' then l.content? (readQuoted false)
  else if c = '"' then l.content? (readQuoted true)
  else if startsPlain l.inFlow c next then l.plain?
  else none

/-- The tokens when the text ends. -/
def finish? (l : Lexer) : Option (List Token) := do
  let l ← (l.unroll (-1)).dropKey?
  return l.tokens.reverse

/-- Takes tokens up to the end of the text. -/
def run? (l : Lexer) : (steps : Nat) → Option (List Token)
  | 0 => none
  | steps + 1 => do
    let l ← l.advance?
    match l.cursor.rest with
    | [] => l.finish?
    | c :: next => run? (← l.token? c next) steps

end Lexer

/-- The tokens of a text. Each takes a character at least, so the length bounds their number. -/
def tokens? (s : String) : Option (List Token) :=
  let cs := s.toList
  if cs.all isAllowed then Lexer.run? { cursor := { rest := cs } } (cs.length + 1) else none

end KclModels.Yaml
