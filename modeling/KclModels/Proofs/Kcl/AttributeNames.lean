import Mathlib.Data.List.Nodup
import KclModels.Proofs.Kcl.Places
import KclModels.Proofs.Kcl.Quoted
import KclModels.Proofs.Naming.Stem

/-!
# Attribute names tell properties apart

An attribute is named by the name of its property as it is, behind a `$` if that is a reserved word,
or in quotes if that is no identifier. The first character tells which: no identifier begins with
`$` or a quote. In quotes a character stands for itself also behind a backslash, and every quote and
every backslash of the name has one before it, so the quote that closes the name is found. The name
of the property is therefore read back from the attribute, whatever follows it on the line, and
different properties are never one attribute.
-/

namespace KclModels.Kcl

open Naming

variable {name : String} {cs rest : List Char} {m : Model} {parent : Option Nat}

/-! ## Quoted names -/

/-- The quotes of a name are those of a text in which first the backslashes are escaped. -/
theorem quoteAttribute_eq_replaceChar (name : String) : String.ofList (quoteAttribute name) =
    Text.replaceChar '"' ['\\', '"'] (Text.replaceChar '\\' ['\\', '\\'] name) := by
  rw [Text.replaceChar, Text.replaceChar, String.toList_ofList, List.flatMap_assoc, quoteAttribute]
  refine congrArg String.ofList (List.flatMap_congr fun c _ => ?_)
  by_cases hslash : c = '\\'
  · subst hslash
    rfl
  · by_cases hquote : c = '"' <;> simp [hslash, hquote]

/--
Reads a quoted name after its opening quote: the name, and what follows the closing quote. A
character behind a backslash stands for itself.
-/
def readQuotedName : List Char → Option (List Char × List Char)
  | [] => none
  | '"' :: rest => some ([], rest)
  | '\\' :: c :: rest => (readQuotedName rest).map fun (name, rest) => (c :: name, rest)
  | c :: rest => (readQuotedName rest).map fun (name, rest) => (c :: name, rest)

theorem readQuotedName_attributeChar (c : Char) (rest : List Char) :
    readQuotedName (attributeChar c ++ rest) =
      (readQuotedName rest).map fun (name, rest) => (c :: name, rest) := by
  unfold attributeChar
  by_cases hslash : c = '\\'
  · rw [if_pos hslash, hslash]
    rfl
  · rw [if_neg hslash]
    by_cases hquote : c = '"'
    · rw [if_pos hquote, hquote]
      rfl
    · rw [if_neg hquote, List.singleton_append, readQuotedName]
      · exact hquote
      · exact fun _ _ hcontra => absurd hcontra hslash

theorem readQuotedName_append (cs rest : List Char) :
    readQuotedName (cs.flatMap attributeChar ++ '"' :: rest) = some (cs, rest) := by
  induction cs with
  | nil => rfl
  | cons c cs ih =>
    rw [List.flatMap_cons, List.append_assoc, readQuotedName_attributeChar, ih]
    rfl

/-! ## Names of all forms -/

/-- Reads the name of a property from a text that begins with its attribute name. -/
def readName : List Char → Option (List Char × List Char)
  | '"' :: rest => readQuotedName rest
  | '$' :: rest => some (rest.takeWhile isIdentChar, rest.dropWhile isIdentChar)
  | cs => some (cs.takeWhile isIdentChar, cs.dropWhile isIdentChar)

/-- An identifier ends where a character follows that no identifier has. -/
theorem takeWhile_dropWhile_append (hcs : ∀ c ∈ cs, isIdentChar c = true)
    (hrest : ∀ c ∈ rest.head?, isIdentChar c = false) :
    (cs ++ rest).takeWhile isIdentChar = cs ∧ (cs ++ rest).dropWhile isIdentChar = rest := by
  rw [List.takeWhile_append_of_pos hcs, List.dropWhile_append_of_pos hcs]
  cases rest with
  | nil => exact ⟨List.append_nil cs, rfl⟩
  | cons c rest =>
    have hc := hrest c rfl
    rw [List.takeWhile_cons_of_neg (by simp [hc]), List.dropWhile_cons_of_neg (by simp [hc])]
    exact ⟨List.append_nil cs, rfl⟩

/-- **An attribute name is read back**, whatever follows it that continues no identifier. -/
theorem readName_append (name : String) (hrest : ∀ c ∈ rest.head?, isIdentChar c = false) :
    readName ((attributeName name).toList ++ rest) = some (name.toList, rest) := by
  by_cases hident : isIdentifier name = true
  · obtain ⟨hall, c, cs, hcons, hdigit⟩ := isIdentifier_iff.mp hident
    obtain ⟨htake, hdrop⟩ := takeWhile_dropWhile_append hall hrest
    rw [attributeName, if_pos hident, escapeReserved]
    by_cases hreserved : isReserved name = true
    · rw [if_pos hreserved, String.toList_append]
      show some ((name.toList ++ rest).takeWhile isIdentChar,
        (name.toList ++ rest).dropWhile isIdentChar) = _
      rw [htake, hdrop]
    · -- the first character is that of an identifier, so it opens none of the other forms
      have hc : isIdentChar c = true := hall c (hcons ▸ List.mem_cons_self)
      have hquote : c ≠ '"' := fun heq => absurd (heq ▸ hc) (by decide)
      have hdollar : c ≠ '$' := fun heq => absurd (heq ▸ hc) (by decide)
      rw [if_neg hreserved, hcons, List.cons_append, readName, ← List.cons_append, ← hcons, htake,
        hdrop]
      · exact fun _ heq => absurd (List.cons.inj heq).1 hquote
      · exact fun _ heq => absurd (List.cons.inj heq).1 hdollar
  · rw [attributeName_toList (Bool.not_eq_true _ ▸ hident), quotedBy, List.append_assoc]
    exact readQuotedName_append name.toList rest

/-- **Different properties have different attribute names.** -/
theorem attributeName_injective : Function.Injective attributeName := by
  intro a b heq
  have hread : ∀ name, readName (attributeName name).toList = some (name.toList, []) := by
    intro name
    have happend : readName ((attributeName name).toList ++ []) = some (name.toList, []) :=
      readName_append name (by simp)
    rwa [List.append_nil] at happend
  have hboth := (hread a).symm.trans (heq ▸ hread b)
  exact String.toList_inj.mp (Prod.mk.inj (Option.some.inj hboth)).1

example : ["size", "type", "$type", "a\\\"b"].map attributeName =
    ["size", "$type", "\"$type\"", "\"a\\\\\\\"b\""] := by decide

/-- The line that declares an attribute tells the property. -/
theorem readName_attributeLine (m : Model) :
    (readName (attributeLine m).toList).map Prod.fst = some m.name.toList := by
  have hline : ∃ rest, (attributeLine m).toList = (attributeName m.name).toList ++ rest ∧
      ∀ c ∈ rest.head?, isIdentChar c = false := by
    unfold attributeLine
    dsimp only
    rw [String.append_assoc, String.append_assoc, String.append_assoc, String.toList_append]
    refine ⟨_, rfl, fun c hc => ?_⟩
    -- the mark of an optional attribute follows the name, or the colon
    cases hrequired : m.required <;> simp [hrequired] at hc <;> subst hc <;> decide
  obtain ⟨rest, hline, hrest⟩ := hline
  rw [hline, readName_append m.name hrest]
  rfl

/-! ## The attributes of a schema -/

theorem nodup_firstOfEachName (l : List Model) :
    ∀ seen, ((firstOfEachName seen l).map (·.name)).Nodup := by
  induction l with
  | nil => exact fun _ => .nil
  | cons m rest ih =>
    intro seen
    rw [firstOfEachName]
    split
    · exact ih seen
    · refine List.nodup_cons.mpr ⟨fun hmem => ?_, ih _⟩
      exact (mem_names_firstOfEachName.mp hmem).2 List.mem_cons_self

/--
**Attribute names never collide.** No two names of properties, of whatever characters, give one
attribute name; so the properties that a schema declares attributes for, one for each name, stay
apart, and the line of each attribute tells the property.
-/
theorem attribute_names_distinct (m : Model) (parent : Option Nat) :
    Function.Injective attributeName ∧
      ((ownAttributes m parent).map fun a => attributeName a.name).Nodup ∧
      ∀ a : Model, (readName (attributeLine a).toList).map Prod.fst = some a.name.toList := by
  refine ⟨attributeName_injective, ?_, readName_attributeLine⟩
  have hnames : ((ownAttributes m parent).map (·.name)).Nodup := nodup_firstOfEachName _ []
  have hmapped := List.Nodup.map attributeName_injective hnames
  rwa [List.map_map] at hmapped

end KclModels.Kcl
