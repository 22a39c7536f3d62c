/-!
# Cutting texts

Where a text is cut at a separator, and the runs of characters of one class in it. Each function
works on the characters and is stated on `List Char`; the ones on `String` wrap them.
-/

namespace KclModels.Text

/-- The pieces between the separators, one more than there are separators. -/
def splitChars (sep : Char) : List Char → List (List Char)
  | [] => [[]]
  | c :: cs =>
    if c = sep then [] :: splitChars sep cs
    else
      match splitChars sep cs with
      | [] => [[c]]
      | piece :: pieces => (c :: piece) :: pieces

theorem splitChars_ne_nil (sep : Char) (cs : List Char) : splitChars sep cs ≠ [] := by
  induction cs with
  | nil => simp [splitChars]
  | cons c cs ih =>
    unfold splitChars
    split
    · simp
    · cases h : splitChars sep cs with
      | nil => exact absurd h ih
      | cons piece pieces => simp

/-- The pieces of a text between the separators. -/
def split (sep : Char) (s : String) : List String :=
  (splitChars sep s.toList).map String.ofList

/-- What stands before the first separator and what stands after it. -/
def cutChars (sep : Char) : List Char → Option (List Char × List Char)
  | [] => none
  | c :: cs =>
    if c = sep then some ([], cs)
    else (cutChars sep cs).map fun (before, after) => (c :: before, after)

/-- Cuts a text at its first separator. -/
def cutFirst? (sep : Char) (s : String) : Option (String × String) :=
  (cutChars sep s.toList).map fun (before, after) => (String.ofList before, String.ofList after)

/-- Cuts a text at its last separator. -/
def cutLast? (sep : Char) (s : String) : Option (String × String) :=
  (cutChars sep s.toList.reverse).map fun (after, before) =>
    (String.ofList before.reverse, String.ofList after.reverse)

/-- What follows the last separator, the whole text if there is none. -/
def afterLast (sep : Char) (s : String) : String :=
  match cutLast? sep s with
  | some (_, after) => after
  | none => s

/-- What follows `head` in a text that begins with it. -/
def after? (head s : String) : Option String :=
  (head.toList.isPrefixOf? s.toList).map String.ofList

/-- Whether a text begins with `head`. -/
def begins (head s : String) : Bool := (after? head s).isSome

theorem isPrefixOf?_append {α : Type} [BEq α] [LawfulBEq α] (l r : List α) :
    l.isPrefixOf? (l ++ r) = some r := by
  induction l with
  | nil => rfl
  | cons a l ih =>
    change (if a == a then l.isPrefixOf? (l ++ r) else none) = some r
    rw [if_pos (beq_self_eq_true a), ih]

theorem after?_append (head s : String) : after? head (head ++ s) = some s := by
  rw [after?, String.toList_append, isPrefixOf?_append, Option.map_some, String.ofList_toList]

theorem begins_append (head s : String) : begins head (head ++ s) = true := by
  rw [begins, after?_append, Option.isSome_some]

/-- Replaces one character by a text. -/
def replaceChar (c : Char) (filler : List Char) (s : String) : String :=
  String.ofList (s.toList.flatMap fun d => if d = c then filler else [d])

/-- The maximal runs of characters that satisfy `p`. -/
def runs (p : Char → Bool) : List Char → List (List Char)
  | [] => []
  | c :: cs =>
    if p c then
      match cs, runs p cs with
      | d :: _, run :: more => if p d then (c :: run) :: more else [c] :: run :: more
      | _, more => [c] :: more
    else runs p cs

/-- Puts one `filler` in place of every maximal run of characters that do not satisfy `p`. -/
def replaceOthers (p : Char → Bool) (filler : Char) : List Char → List Char
  | [] => []
  | c :: cs =>
    if p c then c :: replaceOthers p filler cs
    else
      match cs with
      | d :: _ => if p d then filler :: replaceOthers p filler cs else replaceOthers p filler cs
      | [] => [filler]

end KclModels.Text
