import KclModels.Proofs.Kcl.Literals
import KclModels.Proofs.Naming.Stem
import KclModels.Proofs.Run.Composition
import KclModels.Text.AsciiTable

/-!
# Attributes on one line

The type and the default of an attribute are put together of texts without line breaks, whatever the
values are, since literals escape theirs. The quotes of an attribute name leave line breaks and tabs
as they are: the line of an attribute is broken just if its name is, and a quoted name is a literal
just if it has no character that only literals escape.
-/

namespace KclModels.Kcl

/-- A text without line breaks. -/
def Unbroken (s : String) : Prop := '\n' ∉ s.toList ∧ '\r' ∉ s.toList

instance (s : String) : Decidable (Unbroken s) :=
  inferInstanceAs (Decidable ('\n' ∉ s.toList ∧ '\r' ∉ s.toList))

variable {s t name : String} {m : Model} {c : Char}

theorem unbroken_append : Unbroken (s ++ t) ↔ Unbroken s ∧ Unbroken t := by
  simp only [Unbroken, String.toList_append, List.mem_append, not_or]
  exact and_and_and_comm

/-- Line breaks and tabs do not stand in a literal as they are. -/
theorem notMem_quote (hc : c = '\n' ∨ c = '\r' ∨ c = '\t') (s : String) : c ∉ (quote s).toList := by
  have hquote : c ≠ '"' := by
    rcases hc with rfl | rfl | rfl <;> decide
  simpa [quote_toList, quotedBy, hquote] using fun d _ => notMem_literalChar hc d

theorem unbroken_spliced : Spliced Unbroken where
  inert h := ⟨h.notMem (by decide), h.notMem (by decide)⟩
  quoted s := ⟨notMem_quote (by decide) s, notMem_quote (by decide) s⟩
  join _ hsep ha hb := by
    refine unbroken_append.mpr ⟨unbroken_append.mpr ⟨ha, ?_⟩, hb⟩
    exact ⟨hsep.notMem (by decide), hsep.notMem (by decide)⟩

/-! ## Names -/

theorem attributeChar_of_ne (hquote : c ≠ '"') (hslash : c ≠ '\\') : attributeChar c = [c] := by
  rw [attributeChar, if_neg hslash, if_neg hquote]

/-- The quotes of a name leave a character as it is, unless it is a quote or a backslash. -/
theorem mem_quotedName_iff (hname : Naming.isIdentifier name = false) (hquote : c ≠ '"')
    (hslash : c ≠ '\\') : c ∈ (Naming.attributeName name).toList ↔ c ∈ name.toList := by
  have hchar : ∀ d, c ∈ attributeChar d ↔ c = d := by
    intro d
    unfold attributeChar
    split
    · rename_i hd
      simp [hd, hslash]
    · split
      · rename_i hd
        simp [hd, hslash, hquote]
      · exact List.mem_singleton
  simp [attributeName_toList hname, quotedBy, hquote, List.mem_flatMap, hchar]

/-- **The name of an attribute keeps its line breaks.** -/
theorem attributeName_unbroken_iff :
    Unbroken (Naming.attributeName name) ↔ Unbroken name := by
  by_cases h : Naming.isIdentifier name = true
  · have hident := (Naming.isIdentifier_iff.mp h).1
    have hname : Unbroken name := ⟨fun hc => absurd (hident _ hc) (by decide),
      fun hc => absurd (hident _ hc) (by decide)⟩
    refine iff_of_true ?_ hname
    rw [Naming.attributeName, if_pos h, Naming.escapeReserved]
    split
    · exact unbroken_append.mpr ⟨by decide, hname⟩
    · exact hname
  · rw [Bool.not_eq_true] at h
    rw [Unbroken, mem_quotedName_iff h (by decide) (by decide),
      mem_quotedName_iff h (by decide) (by decide), Unbroken]

/-- A quoted name is a literal if it has nothing that only literals escape. -/
theorem attributeName_eq_quote_iff (h : Naming.isIdentifier name = false) :
    Naming.attributeName name = quote name ↔
      ∀ c ∈ name.toList, c ≠ '\n' ∧ c ≠ '\r' ∧ c ≠ '\t' := by
  constructor
  · intro heq c hc
    rw [← not_or, ← not_or]
    intro hspecial
    -- such a character stands in the quoted name as it is, and in no literal
    have hne : c ≠ '"' ∧ c ≠ '\\' := by
      rcases hspecial with rfl | rfl | rfl <;> decide
    rw [← mem_quotedName_iff h hne.1 hne.2, heq] at hc
    exact notMem_quote hspecial name hc
  · intro hall
    rw [← String.toList_inj, attributeName_toList h, quote_toList, quotedBy, quotedBy]
    -- quotes and backslashes are escaped alike by both
    have hchars : ∀ c ∈ name.toList, attributeChar c = literalChar c := by
      intro c hc
      obtain ⟨hfeed, hreturn, htab⟩ := hall c hc
      by_cases hslash : c = '\\'
      · rw [hslash]
        rfl
      by_cases hquote : c = '"'
      · rw [hquote]
        rfl
      rw [attributeChar_of_ne hquote hslash,
        literalChar_of_ne hquote hslash hfeed hreturn htab]
    rw [List.flatMap_congr hchars]

/-! ## Lines -/

/-- **The line of an attribute is broken just if its name is.** -/
theorem attributeLine_unbroken_iff (h : Unbroken m.type.kclType) :
    Unbroken (attributeLine m) ↔ Unbroken m.name := by
  have hmark : Unbroken (if m.required then "" else "?") := by
    split <;> decide
  have hcolon : Unbroken ": " := by decide
  unfold attributeLine
  dsimp only
  simp only [unbroken_append, attributeName_unbroken_iff, hmark, hcolon,
    unbroken_spliced.attributeType h, and_true]
  refine and_iff_left ?_
  split
  · exact unbroken_append.mpr ⟨by decide, unbroken_spliced.literal _⟩
  · decide

end KclModels.Kcl

namespace KclModels.Run

open Kcl

/--
**An attribute stays on its line just if its name does**, whatever its default and its enum values
are; and the quotes of a name are those of a literal just if the name has no line break and no tab.
-/
theorem attributes_on_one_line_iff (m : Model) (name : String) :
    (Unbroken m.type.kclType → (Unbroken (attributeLine m) ↔ Unbroken m.name)) ∧
      (Naming.isIdentifier name = false →
        (Naming.attributeName name = quote name ↔
          ∀ c ∈ name.toList, c ≠ '\n' ∧ c ≠ '\r' ∧ c ≠ '\t')) :=
  ⟨attributeLine_unbroken_iff, attributeName_eq_quote_iff⟩

/-- An attribute whose name has to be quoted and whose default has two lines. -/
def greeting : Model :=
  { name := "first \"word\"", type := { kclType := "str" }, defaultValue := some (.str "a\r\nb") }

theorem greeting_on_one_line :
    attributeLine greeting = "\"first \\\"word\\\"\"?: str = \"a\\r\\nb\"" ∧
      Unbroken greeting.type.kclType ∧ Naming.isIdentifier greeting.name = false ∧
      Unbroken (attributeLine greeting) ∧
      Naming.attributeName greeting.name = quote greeting.name :=
  ⟨by decide +kernel, by decide, by decide,
    ((attributes_on_one_line_iff greeting greeting.name).1 (by decide)).mpr (by decide),
    ((attributes_on_one_line_iff greeting greeting.name).2 (by decide)).mpr (by simp [greeting])⟩

/-- A note whose property has a name of two lines. -/
def notes : Run := ofDefinitions [
  ("Note", { types := ["object"], properties := [("a\nb", .typed "string")] })]

/-- The name of the attribute is quoted, but with its line break. -/
theorem note_attribute_broken :
    (∃ file s', notes.buildFile "Note" [] = (.ok file, s') ∧
      ∃ a ∈ attributes file.model file.model.parentBranch, Unbroken a.type.kclType ∧
        attributeLine a = "\"a\nb\"?: str" ∧ ¬Unbroken (attributeLine a)) ∧
      Naming.isIdentifier "a\nb" = false ∧ Naming.attributeName "a\nb" ≠ quote "a\nb" := by
  obtain ⟨file, s', h, hattribute⟩ := exists_built_of_any notes "Note" []
    (p := fun file _ => (attributes file.model file.model.parentBranch).any fun a =>
      a.type.kclType == "str" && attributeLine a == "\"a\nb\"?: str") (by decide +kernel)
  obtain ⟨a, ha, hfacts⟩ := List.any_eq_true.mp hattribute
  rw [Bool.and_eq_true, beq_iff_eq, beq_iff_eq] at hfacts
  refine ⟨⟨file, s', h, a, ha, ?_, hfacts.2, ?_⟩, by decide, by decide⟩
  · rw [hfacts.1]
    decide
  · rw [hfacts.2]
    decide

end KclModels.Run
