import KclModels.Text.Ascii

/-!
# A table of characters

The transliteration that the program runs with goes character by character: one outside ASCII is
replaced by an ASCII text that sounds or means the same, and one that has none is dropped. The table
is a small part of that for all of Unicode. It says what becomes of the characters in it, and of
none besides; what holds of names holds for every `Transliteration`.
-/

namespace KclModels.Text

/-- The ASCII text for some characters outside ASCII. -/
def asciiTable : List (Char × String) := [
    ('\u0085', ""), ('\u00A0', " "), ('µ', "u"), ('É', "E"), ('ß', "ss"), ('é', "e"), ('ï', "i"),
    ('ñ', "n"), ('ö', "o"), ('ü', "u"), ('İ', "I"), ('ı', "i"), ('Ω', "O"), ('К', "K"), ('л', "l"),
    ('ч', "ch"), ('ю', "yu"), ('\u200B', ""), ('\u2028', " "), ('日', "Ri"), ('本', "Ben"),
    ('語', "Yu"), ('ﬁ', "fi"), ('\uFEFF', ""), ('😀', ":grinning:")]

/-- The ASCII text of one character. -/
def asciiOf (c : Char) : List Char :=
  if c.toNat < 128 then [c] else ((asciiTable.lookup c).getD "").toList

theorem isAscii_asciiTable : ∀ entry ∈ asciiTable, ∀ c ∈ entry.2.toList, c.toNat < 128 := by
  have hall : (asciiTable.all fun entry => entry.2.toList.all (·.toNat < 128)) = true := by decide
  simpa only [List.all_eq_true, decide_eq_true_eq] using hall

theorem isAscii_asciiOf {c d : Char} (h : d ∈ asciiOf c) : d.toNat < 128 := by
  rw [asciiOf] at h
  split at h
  · next hc => exact List.mem_singleton.mp h ▸ hc
  · cases hentry : asciiTable.lookup c with
    | none => simp [hentry] at h
    | some text =>
      obtain ⟨before, after, htable, -⟩ := List.lookup_eq_some_iff.mp hentry
      rw [hentry, Option.getD_some] at h
      exact isAscii_asciiTable (c, text) (by simp [htable]) d h

/-- Characters in ASCII are kept. -/
theorem flatMap_asciiOf {cs : List Char} (h : ∀ c ∈ cs, c.toNat < 128) :
    cs.flatMap asciiOf = cs := by
  induction cs with
  | nil => rfl
  | cons c cs ih =>
    rw [List.flatMap_cons, asciiOf, if_pos (h c List.mem_cons_self),
      ih fun d hd => h d (List.mem_cons_of_mem c hd), List.singleton_append]

/-- Spells characters by the table. -/
instance tableTransliteration : Transliteration where
  toAscii s := String.ofList (s.toList.flatMap asciiOf)
  isAscii_toAscii s d hd := by
    rw [String.toList_ofList] at hd
    obtain ⟨c, -, hc⟩ := List.mem_flatMap.mp hd
    exact isAscii_asciiOf hc
  toAscii_of_isAscii s hs := by rw [flatMap_asciiOf hs, String.ofList_toList]

end KclModels.Text
