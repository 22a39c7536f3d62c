import KclModels.Document.Printer

/-!
# Literals

How values of a document are written in the generated language.
-/

namespace KclModels.Kcl

/-- One character of a string literal. -/
def literalChar (c : Char) : List Char :=
  match c with
  | '"' => ['\\', '"']
  | '\\' => ['\\', '\\']
  | '\n' => ['\\', 'n']
  | '\r' => ['\\', 'r']
  | '\t' => ['\\', 't']
  | c => [c]

/-- A string literal. -/
def quote (s : String) : String := String.ofList ('"' :: s.toList.flatMap literalChar ++ ['"'])

mutual

/-- The literal of a value. -/
def literal : Value → String
  | .null => "None"
  | .bool b => if b then "True" else "False"
  | .num n => n.text
  | .str s => quote s
  | .arr items => "[" ++ ", ".intercalate (itemLiterals items) ++ "]"
  | .obj fields => "\x7b" ++ ", ".intercalate (fieldLiterals fields) ++ "\x7d"

def itemLiterals : List Value → List String
  | [] => []
  | v :: rest => literal v :: itemLiterals rest

def fieldLiterals : List (String × Value) → List String
  | [] => []
  | (name, v) :: rest => (quote name ++ ": " ++ literal v) :: fieldLiterals rest

end

/-- The choice between values. -/
def union (values : List Value) : String := " | ".intercalate (values.map literal)

/-- The literal of a pattern: a raw string where a raw string can hold it. -/
def regexLiteral (pattern : String) : String :=
  if pattern.toList.contains '"' || pattern.toList.contains '\n' then quote pattern
  else "r\"" ++ pattern ++ "\""

/-- The literal of a bound: integral numbers below `1e15` are written as integers. -/
def boundLiteral (x : Double) : String :=
  if x.isIntegral && x.toInt.natAbs < tenPow 15 then toString x.toInt else x.plainText

end KclModels.Kcl
