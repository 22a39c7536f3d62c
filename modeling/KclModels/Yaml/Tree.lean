import KclModels.Yaml.Lexer

/-!
# From tokens to trees

The documents of a YAML text as trees. An anchor is a name for a part, and a mention of the name
stands for that part. Parts are numbered for this by how many names are known: a name that is used
again takes a number that a later name may take too, and then the later part counts.
-/

namespace KclModels.Yaml

/-- A part of a document. The first argument is the number of its anchor. -/
inductive Tree
  | scalar (anchor : Option Nat) (text : String) (style : ScalarStyle) (tag : Option ScalarTag)
  /-- A sequence; `own` if it has a tag of the document's own. -/
  | seq (anchor : Option Nat) (own : Bool) (items : List Tree)
  /-- A mapping; `own` if it has a tag of the document's own. -/
  | map (anchor : Option Nat) (own : Bool) (fields : List (Tree × Tree))
  | mention (anchor : Nat)
deriving Inhabited

/-- What is known while tokens are read. -/
structure Composer where
  tokens : List Token
  /-- The numbers of the anchors. -/
  anchors : List (String × Nat) := []
  /-- What the handles of tags stand for. -/
  handles : List (String × String) := Tag.handles

/-- A step of reading tokens, which fails where the text is not well formed. -/
abbrev Compose := StateT Composer Option

namespace Compose

/-! ## Single tokens -/

/-- The token that comes next; none at the end. -/
def peek : Compose (Option Token) := do return (← get).tokens.head?

/-- Goes past `n` tokens. -/
def skip (n : Nat) : Compose Unit := modify fun s => { s with tokens := s.tokens.drop n }

/-- Goes past a token if it comes next. -/
def accept (t : Token) : Compose Bool := do
  if (← peek) = some t then
    skip 1
    return true
  else return false

/-- Goes past a token that has to come next. -/
def expect (t : Token) : Compose Unit := do
  unless ← accept t do failure

/-! ## Properties -/

/-- Gives a part the number of its anchor. -/
def declare (name : String) : Compose Nat :=
  modifyGet fun s =>
    let n := s.anchors.length
    (n, { s with anchors := (name, n) :: s.anchors.filter (·.1 != name) })

/-- The number of the part that a name stands for. -/
def number (name : String) : Compose Nat := do
  match (← get).anchors.lookup name with
  | some n => return n
  | none => failure

/-- Reads an anchor and a tag, in either order and each at most once. -/
def anchorAndTag : Compose (Option String × Option Tag) := do
  match (← get).tokens with
  | .anchor a :: .tag t :: _ => skip 2; return (some a, some t)
  | .tag t :: .anchor a :: _ => skip 2; return (some a, some t)
  | .anchor a :: _ => skip 1; return (some a, none)
  | .tag t :: _ => skip 1; return (none, some t)
  | _ => return (none, none)

/-- The full text of a tag. -/
def fullTag (t : Tag) : Compose String := do
  match Tag.resolve? (← get).handles t with
  | some full => return full
  | none => failure

/-- What stands before the content of a part. -/
structure Properties where
  anchor : Option Nat
  tag : Option String

/-- Reads the properties of a part. -/
def properties : Compose Properties := do
  let (name, tag) ← anchorAndTag
  let tag ← tag.mapM fullTag
  return ⟨← name.mapM declare, tag⟩

/-- Whether the tag is one of the document's own. -/
def Properties.own (p : Properties) : Bool := p.tag.any fun t => t.toList.head? = some '!'

/-- A scalar; a lone exclamation mark is no tag of it. -/
def Properties.scalar (p : Properties) (text : String) (style : ScalarStyle) : Tree :=
  .scalar p.anchor text style ((p.tag.filter (· != "!")).map Tag.scalarTag)

/-- A part that has properties and no content. -/
def Properties.bare (p : Properties) : Compose Tree :=
  if p.anchor.isNone && p.tag.isNone then failure
  else return .scalar p.anchor "" .plain (p.tag.map Tag.scalarTag)

/-! ## Parts -/

/-- Where a part stands. -/
inductive Spot
  /-- In a flow collection. -/
  | flow
  /-- At the top or as an item of a block sequence. -/
  | block
  /-- In a block mapping, where the items of a sequence need not be indented. -/
  | field
deriving DecidableEq

/-- A part that is left out. -/
def absent : Tree := .scalar none "" .plain none

/-- Whether a key or value of a block mapping is left out before a token. -/
def endsField : Option Token → Bool
  | some .key | some .value | some .blockEnd => true
  | _ => false

/-- Whether an item of a block sequence is left out before a token. -/
def endsItem : Option Token → Bool
  | some .blockEntry | some .blockEnd => true
  | _ => false

/-- Whether a part of the flow collection that `close` ends is left out before a token. -/
def endsFlow (close : Token) (t : Option Token) : Bool := t = some .flowEntry || t = some close

mutual

/-- Reads a part. -/
def part (spot : Spot) : (fuel : Nat) → Compose Tree
  | 0 => failure
  | fuel + 1 => do
    if let some (.mention name) ← peek then
      skip 1
      return .mention (← number name)
    let p ← properties
    match ← peek with
    | some (.scalar text style) =>
      skip 1
      return p.scalar text style
    | some .blockEntry =>
      if spot != .field then p.bare else return .seq p.anchor p.own (← flushItems fuel)
    | some .flowSeqStart =>
      skip 1
      return .seq p.anchor p.own (← flowItems true fuel)
    | some .flowMapStart =>
      skip 1
      return .map p.anchor p.own (← flowFields true fuel)
    | some .blockSeqStart =>
      if spot = .flow then p.bare
      else
        skip 1
        return .seq p.anchor p.own (← blockItems fuel)
    | some .blockMapStart =>
      if spot = .flow then p.bare
      else
        skip 1
        return .map p.anchor p.own (← blockFields fuel)
    | _ => p.bare

/-- Reads the items of a block sequence up to its end. -/
def blockItems : (fuel : Nat) → Compose (List Tree)
  | 0 => failure
  | fuel + 1 => do
    if ← accept .blockEnd then return []
    expect .blockEntry
    let item ← if endsItem (← peek) then pure absent else part .block fuel
    return item :: (← blockItems fuel)

/-- Reads the items of a sequence that is not indented in its mapping. -/
def flushItems : (fuel : Nat) → Compose (List Tree)
  | 0 => failure
  | fuel + 1 => do
    if !(← accept .blockEntry) then return []
    let next ← peek
    let item ← if endsItem next || endsField next then pure absent else part .block fuel
    return item :: (← flushItems fuel)

/-- Reads the fields of a block mapping up to its end. -/
def blockFields : (fuel : Nat) → Compose (List (Tree × Tree))
  | 0 => failure
  | fuel + 1 => do
    if ← accept .blockEnd then return []
    expect .key
    let key ← if endsField (← peek) then pure absent else part .field fuel
    let value ←
      if ← accept .value then
        if endsField (← peek) then pure absent else part .field fuel
      else pure absent
    return (key, value) :: (← blockFields fuel)

/-- Reads the items of a flow sequence up to its end. -/
def flowItems (first : Bool) : (fuel : Nat) → Compose (List Tree)
  | 0 => failure
  | fuel + 1 => do
    if ← accept .flowSeqEnd then return []
    if !first then
      expect .flowEntry
      if ← accept .flowSeqEnd then return []
    let item ←
      if ← accept .key then pure (.map none false [← flowPair fuel])
      else part .flow fuel
    return item :: (← flowItems false fuel)

/--
Reads a key and value that are an item of a flow sequence. A colon right behind the sign of the key
is lost.
-/
def flowPair : (fuel : Nat) → Compose (Tree × Tree)
  | 0 => failure
  | fuel + 1 => do
    let next ← peek
    let key ←
      if next = some .value || endsFlow .flowSeqEnd next then do
        skip 1
        pure absent
      else part .flow fuel
    let value ←
      if ← accept .value then
        if endsFlow .flowSeqEnd (← peek) then pure absent else part .flow fuel
      else pure absent
    return (key, value)

/-- Reads the fields of a flow mapping up to its end. -/
def flowFields (first : Bool) : (fuel : Nat) → Compose (List (Tree × Tree))
  | 0 => failure
  | fuel + 1 => do
    if ← accept .flowMapEnd then return []
    if !first then
      expect .flowEntry
      if ← accept .flowMapEnd then return []
    let field ←
      if ← accept .key then do
        let next ← peek
        let key ←
          if next = some .value || endsFlow .flowMapEnd next then pure absent else part .flow fuel
        let value ←
          if ← accept .value then
            if endsFlow .flowMapEnd (← peek) then pure absent else part .flow fuel
          else pure absent
        pure (key, value)
      else do
        let key ← part .flow fuel
        pure (key, absent)
    return field :: (← flowFields false fuel)

end

/-! ## Documents -/

/--
Reads the directives of a document: at most one version, 1.1 or 1.2, and each handle at most once.
-/
def directives (versioned : Bool) (known : List String) : (fuel : Nat) → Compose Unit
  | 0 => failure
  | fuel + 1 => do
    match ← peek with
    | some (.version major minor) =>
      if versioned || major != 1 || (minor != 1 && minor != 2) then failure
      skip 1
      directives true known fuel
    | some (.handle handle meaning) =>
      if known.contains handle then failure
      skip 1
      modify fun s => { s with handles := (handle, meaning) :: s.handles }
      directives versioned (handle :: known) fuel
    | _ => return ()

/-- Whether a token belongs to the beginning of a document. -/
def opensDocument : Option Token → Bool
  | some (.version _ _) | some (.handle _ _) | some .documentStart => true
  | _ => false

/-- Whether a document has no content before a token. -/
def endsDocument (t : Option Token) : Bool := opensDocument t || t = some .documentEnd || t.isNone

/-- Goes past the ends of documents that come next. -/
def skipEnds : Compose Unit :=
  modify fun s => { s with tokens := s.tokens.dropWhile (· = .documentEnd) }

/-- Reads the documents of a text. The first one needs no mark at its beginning. -/
def documents (first : Bool) : (fuel : Nat) → Compose (List Tree)
  | 0 => failure
  | fuel + 1 => do
    modify fun s => { tokens := s.tokens }
    if !first then skipEnds
    match ← peek with
    | none => return []
    | next =>
      let root ←
        if first && !opensDocument next then part .block fuel
        else do
          directives false [] fuel
          expect .documentStart
          if endsDocument (← peek) then pure absent else part .block fuel
      let _ ← accept .documentEnd
      return root :: (← documents false fuel)

end Compose

/--
The documents of a text as trees. A token is read in at most three nested steps, which bounds the
fuel.
-/
def trees? (s : String) : Option (List Tree) := do
  let tokens ← tokens? s
  let (trees, _) ← (Compose.documents true (3 * tokens.length + 8)).run { tokens }
  return trees

end KclModels.Yaml
