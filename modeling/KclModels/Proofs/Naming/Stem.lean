import Mathlib.Data.List.Basic
import KclModels.Proofs.Naming.Pascal

/-!
# Names of files

The stem of a file has the letters and digits of the name it stands for, all small, with underscores
between them. So two names with one stem are put together of the same letters and digits; they may
differ in which are capital and in what stands between the words.
-/

namespace KclModels.Naming

variable {tr : Text.Transliteration}

/-- Whether a character is a small letter, a digit or an underscore. -/
def isSmallChar (c : Char) : Bool := c.isLower || c.isDigit || c = '_'

theorem isIdentChar_of_isSmallChar {c : Char} (h : isSmallChar c = true) :
    isIdentChar c = true := by
  unfold isIdentChar isWordChar Char.isAlpha
  rw [isSmallChar, Bool.or_eq_true, Bool.or_eq_true] at h
  rcases h with (h | h) | h
  · rw [h, Bool.or_true]
    rfl
  · rw [h, Bool.or_true]
    rfl
  · rw [h, Bool.or_true]

/-- The small form of a letter or digit is one. -/
theorem toLower_of_isWordChar {c : Char} (h : isWordChar c = true) :
    isSmallChar c.toLower = true ∧ c.toLower ≠ '_' ∧ isSeparator c = false := by
  have hc := of_isIdentChar (p := fun c => !isWordChar c ||
    (isSmallChar c.toLower && c.toLower != '_' && !isSeparator c)) (by decide +kernel)
    (isIdentChar_of_isWordChar h)
  rw [h, Bool.not_true, Bool.false_or] at hc
  simpa [and_assoc] using hc

theorem mem_partCapitals {cs : List Char} {c : Char} (h : c ∈ partCapitals cs) :
    c = '_' ∨ c ∈ cs := by
  induction cs with
  | nil => exact absurd h (by simp [partCapitals])
  | cons a rest ih =>
    cases rest with
    | nil => exact Or.inr (by simpa [partCapitals] using h)
    | cons b rest =>
      rw [partCapitals] at h
      split at h
      · rcases List.mem_cons.mp h with rfl | h
        · exact Or.inr List.mem_cons_self
        · rcases List.mem_cons.mp h with rfl | h
          · exact Or.inl rfl
          · exact (ih h).imp_right (List.mem_cons_of_mem a)
      · rcases List.mem_cons.mp h with rfl | h
        · exact Or.inr List.mem_cons_self
        · exact (ih h).imp_right (List.mem_cons_of_mem a)

/-- Without the underscores that part them the letters and digits are as before, but small. -/
theorem filter_partCapitals {cs : List Char} (h : ∀ c ∈ cs, isWordChar c = true) :
    ((partCapitals cs).map Char.toLower).filter (· ≠ '_') = cs.map Char.toLower := by
  have hkept : ∀ (c : Char) (l : List Char), isWordChar c = true →
      (c.toLower :: l).filter (· ≠ '_') = c.toLower :: l.filter (· ≠ '_') := fun c l hc =>
    List.filter_cons_of_pos (by simpa using (toLower_of_isWordChar hc).2.1)
  induction cs with
  | nil => simp [partCapitals]
  | cons a rest ih =>
    have ha := h a List.mem_cons_self
    have hrest := ih fun c hc => h c (List.mem_cons_of_mem a hc)
    cases rest with
    | nil => exact hkept a [] ha
    | cons b rest =>
      rw [partCapitals]
      split
      · rw [List.map_cons, hkept a _ ha, List.map_cons, List.filter_cons_of_neg (by decide), hrest]
        rfl
      · rw [List.map_cons, hkept a _ ha, hrest]
        rfl

variable {word name : String} {c : Char}

/-- Nothing in a word is a separator. -/
theorem snakeCase_toList (h : ∀ c ∈ word.toList, isWordChar c = true) :
    (snakeCase word).toList = (partCapitals word.toList).map Char.toLower := by
  have hsame : word.toList.map (fun c => if isSeparator c then '_' else c) =
      word.toList.map id := by
    refine List.map_congr_left fun c hc => ?_
    rw [(toLower_of_isWordChar (h c hc)).2.2]
    rfl
  rw [snakeCase, String.toList_ofList, hsame, List.map_id]

theorem filter_snakeCase (h : ∀ c ∈ word.toList, isWordChar c = true) :
    (snakeCase word).toList.filter (· ≠ '_') = word.toList.map Char.toLower := by
  rw [snakeCase_toList h, filter_partCapitals h]

/-- **A word in snake case** is made of small letters, digits and underscores. -/
theorem isSmallChar_of_snakeCase (h : ∀ c ∈ word.toList, isWordChar c = true)
    (hc : c ∈ (snakeCase word).toList) : isSmallChar c = true := by
  rw [snakeCase_toList h] at hc
  obtain ⟨d, hd, rfl⟩ := List.mem_map.mp hc
  rcases mem_partCapitals hd with rfl | hd
  · decide
  · exact (toLower_of_isWordChar (h d hd)).1

theorem snakeCase_ne_nil (h : ∀ c ∈ word.toList, isWordChar c = true) (hne : word.toList ≠ []) :
    (snakeCase word).toList ≠ [] := by
  intro hnil
  have hletters := filter_snakeCase h
  rw [hnil, List.filter_nil] at hletters
  exact hne (List.map_eq_nil_iff.mp hletters.symm)

/-- **The letters and digits of a stem** are those of the name. -/
theorem filter_fileStem (name : String) : (fileStem name).toList.filter (· ≠ '_') =
    (pascalize name).toList.map Char.toLower :=
  filter_snakeCase (pascalize_plain name).chars

/-- **Names with one stem have the same letters and digits**, apart from which are capital. -/
theorem letters_eq_of_fileStem_eq {a b : String} (h : fileStem a = fileStem b) :
    (pascalize a).toList.map Char.toLower = (pascalize b).toList.map Char.toLower := by
  rw [← filter_fileStem, ← filter_fileStem, h]

theorem Plain.ne_nil (h : Plain name) : name.toList ≠ [] := by
  obtain ⟨c, cs, hcons, -⟩ := h.head
  exact hcons ▸ List.cons_ne_nil c cs

theorem fileStem_ne_nil (name : String) : (fileStem name).toList ≠ [] :=
  snakeCase_ne_nil (pascalize_plain name).chars (pascalize_plain name).ne_nil

theorem isIdentChar_of_fileStem (hc : c ∈ (fileStem name).toList) : isIdentChar c = true :=
  isIdentChar_of_isSmallChar (isSmallChar_of_snakeCase (pascalize_plain name).chars hc)

/-! ## Names of directories -/

theorem replaceOthers_all {p : Char → Bool} {filler : Char} (hfiller : p filler = true)
    {cs : List Char} : ∀ c ∈ Text.replaceOthers p filler cs, p c = true := by
  induction cs with
  | nil => exact fun c hc => absurd hc (by simp [Text.replaceOthers])
  | cons a rest ih =>
    intro c hc
    unfold Text.replaceOthers at hc
    split at hc
    · rename_i ha
      rcases List.mem_cons.mp hc with rfl | hc
      · exact ha
      · exact ih c hc
    · split at hc
      · split at hc
        · rcases List.mem_cons.mp hc with rfl | hc
          · exact hfiller
          · exact ih c hc
        · exact ih c hc
      · rw [List.mem_singleton.mp hc]
        exact hfiller

/-- The name of a directory in place of a text in ASCII. -/
def directoryName (ascii : String) : String :=
  let cleaned := String.ofList (Text.replaceOthers isIdentChar '_' ascii.toList)
  match cleaned.toList with
  | c :: _ => if c.isDigit then "_" ++ cleaned else cleaned
  | [] => cleaned

theorem isIdentChar_of_directoryName {ascii : String} (hc : c ∈ (directoryName ascii).toList) :
    isIdentChar c = true := by
  unfold directoryName at hc
  have hclean : ∀ d ∈ (String.ofList (Text.replaceOthers isIdentChar '_' ascii.toList)).toList,
      isIdentChar d = true := by
    intro d hd
    rw [String.toList_ofList] at hd
    exact replaceOthers_all (by decide) d hd
  dsimp only at hc
  split at hc
  · split at hc
    · rw [String.toList_append] at hc
      rcases List.mem_append.mp hc with hc | hc
      · rw [show c = '_' by simpa using hc]
        decide
      · exact hclean c hc
    · exact hclean c hc
  · exact hclean c hc

theorem sanitize_eq (name : String) : sanitize name = directoryName (Text.toAscii name) := by
  unfold sanitize cleanIdentifier
  generalize Text.toAscii name = ascii
  rfl

theorem isIdentChar_of_sanitize (hc : c ∈ (sanitize name).toList) : isIdentChar c = true := by
  rw [sanitize_eq] at hc
  exact isIdentChar_of_directoryName hc

/-- Of the characters of identifiers only the digits cannot be first. -/
theorem isDigit_eq_of_isIdentChar {c : Char} (h : isIdentChar c = true) :
    (c.isAlpha || c = '_') = !c.isDigit :=
  eq_of_beq (of_isIdentChar (p := fun c => (c.isAlpha || c = '_') == !c.isDigit)
    (by decide +kernel) h)

theorem replaceOthers_of_all {p : Char → Bool} {filler : Char} {cs : List Char}
    (h : ∀ c ∈ cs, p c = true) : Text.replaceOthers p filler cs = cs := by
  induction cs with
  | nil => rfl
  | cons c cs ih =>
    unfold Text.replaceOthers
    rw [if_pos (h c List.mem_cons_self), ih fun d hd => h d (List.mem_cons_of_mem c hd)]

/-- A text of characters of identifiers has nothing to clean. -/
theorem cleanIdentifier_of_all {name : String} (h : ∀ c ∈ name.toList, isIdentChar c = true) :
    cleanIdentifier name = name := by
  have hascii : Text.toAscii name = name :=
    Text.Transliteration.toAscii_of_isAscii name fun c hc => toNat_lt_of_isIdentChar (h c hc)
  rw [cleanIdentifier, hascii, replaceOthers_of_all h, String.ofList_toList]

theorem sanitize_empty [Text.Transliteration] : sanitize "" = "" := by
  rw [sanitize, cleanIdentifier_of_all (by simp)]
  rfl

theorem isIdentifier_iff {name : String} : isIdentifier name = true ↔
    (∀ d ∈ name.toList, isIdentChar d = true) ∧
      ∃ c cs, name.toList = c :: cs ∧ c.isDigit = false := by
  unfold isIdentifier
  cases h : name.toList with
  | nil => simp
  | cons c cs =>
    have hhead : (c.isAlpha || c = '_') = true ↔ isIdentChar c = true ∧ c.isDigit = false := by
      by_cases hc : isIdentChar c = true
      · rw [isDigit_eq_of_isIdentChar hc, Bool.not_eq_true']
        exact (and_iff_right hc).symm
      · refine ⟨fun hfirst => absurd ?_ hc, fun hfirst => absurd hfirst.1 hc⟩
        rw [isIdentChar, isWordChar, Bool.or_right_comm, hfirst, Bool.true_or]
    dsimp only
    rw [Bool.and_eq_true, hhead, List.forall_mem_cons, List.all_eq_true]
    constructor
    · rintro ⟨⟨hc, hdigit⟩, hcs⟩
      exact ⟨⟨hc, hcs⟩, c, cs, rfl, hdigit⟩
    · rintro ⟨⟨hc, hcs⟩, _, _, heq, hdigit⟩
      obtain ⟨rfl, -⟩ := List.cons.inj heq
      exact ⟨⟨hc, hdigit⟩, hcs⟩

/-- **What a directory is named by unchanged** is an identifier. -/
theorem sanitize_eq_self_iff {name : String} (hne : name ≠ "") :
    sanitize name = name ↔ isIdentifier name = true := by
  rw [isIdentifier_iff]
  constructor
  · intro h
    have hall : ∀ d ∈ name.toList, isIdentChar d = true := by
      intro d hd
      rw [← h] at hd
      exact isIdentChar_of_sanitize hd
    have hnil : name.toList ≠ [] := fun hnil => hne (String.toList_eq_nil_iff.mp hnil)
    obtain ⟨c, cs, hcons⟩ := List.exists_cons_of_ne_nil hnil
    refine ⟨hall, c, cs, hcons, ?_⟩
    -- a first digit would have an underscore put before it
    by_contra hdigit
    rw [Bool.not_eq_false] at hdigit
    have hlen := congrArg (fun s => s.toList.length) h
    simp [sanitize, cleanIdentifier_of_all hall, hcons, hdigit] at hlen
  · rintro ⟨hall, c, cs, hcons, hdigit⟩
    simp [sanitize, cleanIdentifier_of_all hall, hcons, hdigit]

end KclModels.Naming
