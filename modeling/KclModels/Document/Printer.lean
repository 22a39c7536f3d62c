import KclModels.Decimal.Layout
import KclModels.Document.Value

/-!
# The compact text of a value

Values are shown as JSON without blanks. Strings escape what JSON requires and nothing else.
-/

namespace KclModels

/-- The text of a number. -/
def Number.text : Number → String
  | .int n => toString n
  | .float x => x.documentText

namespace Value

/-- One character of a JSON string. -/
def quoteChar (c : Char) : List Char :=
  match c with
  | '"' => ['\\', '"']
  | '\\' => ['\\', '\\']
  | '\x08' => ['\\', 'b']
  | '\x0c' => ['\\', 'f']
  | '\n' => ['\\', 'n']
  | '\r' => ['\\', 'r']
  | '\t' => ['\\', 't']
  | c =>
    if c.toNat < 0x20 then
      ['\\', 'u', '0', '0'] ++ (if c.toNat < 0x10 then ['0'] else []) ++ Nat.toDigits 16 c.toNat
    else [c]

/-- A JSON string. -/
def quote (s : String) : String :=
  String.ofList ('"' :: s.toList.flatMap quoteChar ++ ['"'])

mutual

/-- The compact JSON text of a value. -/
def text : Value → String
  | .null => "null"
  | .bool b => if b then "true" else "false"
  | .num n => n.text
  | .str s => quote s
  | .arr items => "[" ++ ",".intercalate (itemTexts items) ++ "]"
  | .obj fields => "\x7b" ++ ",".intercalate (fieldTexts fields) ++ "\x7d"

def itemTexts : List Value → List String
  | [] => []
  | v :: rest => text v :: itemTexts rest

def fieldTexts : List (String × Value) → List String
  | [] => []
  | (name, v) :: rest => (quote name ++ ":" ++ text v) :: fieldTexts rest

end

end Value

end KclModels
