import KclModels.Text.Cut

/-!
# Colors of the output

Each part of the output has a color of its own, on dark and on light terminals. Without color the
texts are still set between codes, all of which ask for the default.
-/

namespace KclModels.Cli

/-- When the output is colored. -/
inductive ColorMode
  | always
  | auto
  | never
deriving DecidableEq, Inhabited, Repr

/-- Which colors the output has. -/
inductive ThemeMode
  | dark
  | light
  | auto
deriving DecidableEq, Inhabited, Repr

/-- The mode that a word asks for. -/
def ColorMode.ofWord? : String → Option ColorMode
  | "always" => some .always
  | "auto" => some .auto
  | "never" => some .never
  | _ => none

/-- The mode that a word asks for. -/
def ThemeMode.ofWord? : String → Option ThemeMode
  | "dark" => some .dark
  | "light" => some .light
  | "auto" => some .auto
  | _ => none

/-- The backgrounds that colors are made for. -/
inductive Theme
  | dark
  | light
deriving DecidableEq, Inhabited, Repr

/-- The parts of the output. -/
inductive Part
  | timestamp
  | primary
  | accent
  | info
  | success
  | warning
  | label
  | value
deriving DecidableEq, Repr

/-- The red, green and blue of a part. -/
def Theme.color : Theme → Part → Nat × Nat × Nat
  | .dark, .timestamp => (118, 166, 166)
  | .dark, .primary => (120, 170, 220)
  | .dark, .accent => (166, 84, 55)
  | .dark, .info => (118, 166, 166)
  | .dark, .success => (120, 190, 120)
  | .dark, .warning => (217, 164, 4)
  | .dark, .label => (150, 190, 230)
  | .dark, .value => (242, 211, 56)
  | .light, .timestamp => (92, 62, 38)
  | .light, .primary => (30, 70, 130)
  | .light, .accent => (211, 99, 70)
  | .light, .info => (40, 111, 170)
  | .light, .success => (34, 142, 90)
  | .light, .warning => (176, 103, 66)
  | .light, .label => (40, 90, 150)
  | .light, .value => (199, 146, 76)

/-- The natural of eight bits that a text spells, perhaps with a plus. -/
def byteOf? (s : String) : Option Nat :=
  let digits := match s.toList with
    | '+' :: rest => rest
    | rest => rest
  if digits.isEmpty || !digits.all Char.isDigit then none
  else
    let n := digits.foldl (fun n c => 10 * n + (c.toNat - '0'.toNat)) 0
    if n < 256 then some n else none

/--
The theme for a terminal that says its colors as numbers between semicolons, of which the last is
the background: from 8 on it is light.
-/
def Theme.ofTerminal (colors : Option String) : Theme :=
  match colors.bind fun s => byteOf? (Text.afterLast ';' s) with
  | some n => if 8 ≤ n then .light else .dark
  | none => .dark

/-- How the output is colored. -/
structure Colors where
  enabled : Bool := false
  theme : Theme := .dark
deriving DecidableEq, Inhabited, Repr

namespace Colors

/--
The colors that the modes ask for, on a terminal or not, given what the terminal says of its colors.
-/
def choose (color : ColorMode) (theme : ThemeMode) (isTerminal : Bool) (terminal : Option String) :
    Colors where
  enabled := match color with
    | .always => true
    | .never => false
    | .auto => isTerminal
  theme := match theme with
    | .dark => .dark
    | .light => .light
    | .auto => Theme.ofTerminal terminal

/-- A text between the code of its color and the code of the default one. -/
def paint (c : Colors) (part : Part) (text : String) : String :=
  let start :=
    if c.enabled then
      let (r, g, b) := c.theme.color part
      "38;2;" ++ toString r ++ ";" ++ toString g ++ ";" ++ toString b
    else "39"
  "\x1b[" ++ start ++ "m" ++ text ++ "\x1b[39m"

end Colors

end KclModels.Cli
