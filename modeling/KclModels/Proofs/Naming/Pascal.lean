import KclModels.Fresh
import KclModels.Naming.Identifier
import KclModels.Proofs.Text.Cut

/-!
# Pascal names as schema names

A name that was given out is a number after words put together. Nothing in it has to be escaped or
replaced when it becomes the name of a schema, so a schema without a name of its own is declared
under the very name it was given, and two of them never share one.
-/

namespace KclModels

variable {tr : Text.Transliteration}

namespace Text

theorem afterLast_of_notMem {sep : Char} {s : String} (h : sep ∉ s.toList) :
    afterLast sep s = s := by
  rw [afterLast, cutLast?, cutChars_eq_none (by simpa using h), Option.map_none]

theorem replaceChar_of_notMem {c : Char} {filler : List Char} {s : String} (h : c ∉ s.toList) :
    replaceChar c filler s = s := by
  have hkeep : ∀ cs : List Char, c ∉ cs →
      (cs.flatMap fun d => if d = c then filler else [d]) = cs := by
    intro cs hcs
    induction cs with
    | nil => rfl
    | cons d cs ih =>
      have hne : d ≠ c := fun hc => hcs (hc ▸ List.mem_cons_self)
      rw [List.flatMap_cons, if_neg hne, ih fun hm => hcs (List.mem_cons_of_mem _ hm),
        List.singleton_append]
  rw [replaceChar, hkeep s.toList h, String.ofList_toList]

theorem runs_all {p : Char → Bool} {cs : List Char} :
    ∀ run ∈ runs p cs, run ≠ [] ∧ ∀ c ∈ run, p c = true := by
  induction cs with
  | nil => exact fun run h => absurd h List.not_mem_nil
  | cons c cs ih =>
    intro run h
    unfold runs at h
    split at h
    · rename_i hc
      -- the character begins a run of its own, or goes before the run that follows it
      have hsingle : ([c] : List Char) ≠ [] ∧ ∀ d ∈ ([c] : List Char), p d = true :=
        ⟨List.cons_ne_nil _ _, fun d hd => List.mem_singleton.mp hd ▸ hc⟩
      split at h
      · rename_i d ds first more hruns
        split at h
        · rcases List.mem_cons.mp h with rfl | h
          · refine ⟨List.cons_ne_nil _ _, fun e he => ?_⟩
            rcases List.mem_cons.mp he with rfl | he
            · exact hc
            · exact (ih first (by rw [hruns]; exact List.mem_cons_self)).2 e he
          · exact ih run (by rw [hruns]; exact List.mem_cons_of_mem _ h)
        · rcases List.mem_cons.mp h with rfl | h
          · exact hsingle
          · exact ih run (by rw [hruns]; exact h)
      · rcases List.mem_cons.mp h with rfl | h
        · exact hsingle
        · exact ih run h
    · exact ih run h

end Text

namespace Naming

/-- A name of letters and digits that does not begin with a small letter. -/
structure Plain (name : String) : Prop where
  chars : ∀ c ∈ name.toList, isWordChar c = true
  head : ∃ c cs, name.toList = c :: cs ∧ c.isLower = false

theorem toNat_lt_of_isWordChar {c : Char} (h : isWordChar c = true) : c.toNat < 128 := by
  unfold isWordChar Char.isAlpha Char.isUpper Char.isLower Char.isDigit at h
  simp only [Bool.or_eq_true, Bool.and_eq_true, decide_eq_true_eq, UInt32.le_iff_toNat_le] at h
  have h₁ : 'Z'.val.toNat = 90 := rfl
  have h₂ : 'z'.val.toNat = 122 := rfl
  have h₃ : '9'.val.toNat = 57 := rfl
  simp at h
  omega

theorem isIdentChar_of_isWordChar {c : Char} (h : isWordChar c = true) : isIdentChar c = true :=
  Bool.or_eq_true_iff.mpr (Or.inl h)

theorem toNat_lt_of_isIdentChar {c : Char} (h : isIdentChar c = true) : c.toNat < 128 := by
  rcases Bool.or_eq_true_iff.mp h with h | h
  · exact toNat_lt_of_isWordChar h
  · rw [decide_eq_true_eq.mp h]
    decide

/-- The characters of identifiers are among the first 128. -/
theorem of_isIdentChar {p : Char → Bool}
    (hall : ((List.range 128).all fun n => !isIdentChar (Char.ofNat n) || p (Char.ofNat n)) = true)
    {c : Char} (h : isIdentChar c = true) : p c = true := by
  have hc := List.all_eq_true.mp hall c.toNat (List.mem_range.mpr (toNat_lt_of_isIdentChar h))
  rwa [Char.ofNat_toNat, h, Bool.not_true, Bool.false_or] at hc

/--
The uppercase form of a character of identifiers is one, a digit only for a digit and an underscore
only for an underscore.
-/
theorem capitals_of_isIdentChar {c : Char} (h : isIdentChar c = true) :
    ∃ d, Text.capitals c = [d] ∧ isIdentChar d = true ∧ d.isDigit = c.isDigit ∧
      d.isLower = false ∧ isWordChar d = isWordChar c := by
  have hc := of_isIdentChar (p := fun c => (Text.capitals c).length == 1 &&
    (Text.capitals c).all fun d => isIdentChar d && d.isDigit == c.isDigit && !d.isLower &&
      isWordChar d == isWordChar c) (by decide +kernel) h
  rw [Bool.and_eq_true, beq_iff_eq] at hc
  obtain ⟨d, hd⟩ := List.length_eq_one_iff.mp hc.1
  rw [hd] at hc
  exact ⟨d, hd, by simpa [and_assoc] using hc.2⟩

/-- The uppercase form of a letter or digit is a letter or digit, and not a small letter. -/
theorem capitals_of_isWordChar {c : Char} (h : isWordChar c = true) :
    ∃ d, Text.capitals c = [d] ∧ isWordChar d = true ∧ d.isLower = false := by
  obtain ⟨d, hd, -, -, hlower, hword⟩ := capitals_of_isIdentChar (isIdentChar_of_isWordChar h)
  exact ⟨d, hd, hword.trans h, hlower⟩

theorem capitalize_plain {run : List Char} (hne : run ≠ []) (h : ∀ c ∈ run, isWordChar c = true) :
    Plain (Text.capitalize (String.ofList run)) := by
  cases run with
  | nil => exact absurd rfl hne
  | cons c rest =>
    obtain ⟨d, hd, hword, hlower⟩ := capitals_of_isWordChar (h c List.mem_cons_self)
    have hlist : (Text.capitalize (String.ofList (c :: rest))).toList = d :: rest := by
      simp [Text.capitalize, hd]
    refine ⟨fun e he => ?_, d, rest, hlist, hlower⟩
    rw [hlist] at he
    rcases List.mem_cons.mp he with rfl | he
    · exact hword
    · exact h e (List.mem_cons_of_mem _ he)

/-- The name that words are put together to, each with a capital first letter. -/
def joinWords (words : List (List Char)) : String :=
  let ident := words.flatMap fun w => (Text.capitalize (String.ofList w)).toList
  match ident with
  | [] => "Unnamed"
  | c :: _ => if c.isDigit then String.ofList ('N' :: 'r' :: ident) else String.ofList ident

/-- **Words put together are a plain name.** -/
theorem joinWords_plain {words : List (List Char)}
    (h : ∀ w ∈ words, w ≠ [] ∧ ∀ c ∈ w, isWordChar c = true) : Plain (joinWords words) := by
  have hwords : ∀ w ∈ words, Plain (Text.capitalize (String.ofList w)) := fun w hw =>
    capitalize_plain (h w hw).1 (h w hw).2
  unfold joinWords
  dsimp only
  have hchars : ∀ c ∈ words.flatMap fun w => (Text.capitalize (String.ofList w)).toList,
      isWordChar c = true := by
    intro c hc
    obtain ⟨w, hw, hc⟩ := List.mem_flatMap.mp hc
    exact (hwords w hw).chars c hc
  have hhead : ∀ c cs, (words.flatMap fun w => (Text.capitalize (String.ofList w)).toList) =
      c :: cs → c.isLower = false := by
    intro c cs hcons
    cases words with
    | nil => simp at hcons
    | cons w rest =>
      obtain ⟨d, ds, hd, hlower⟩ := (hwords w List.mem_cons_self).head
      rw [List.flatMap_cons, hd] at hcons
      exact (List.cons.inj hcons).1 ▸ hlower
  generalize (words.flatMap fun w => (Text.capitalize (String.ofList w)).toList) = ident at *
  cases ident with
  | nil => exact ⟨List.all_eq_true.mp (by decide +kernel), 'U', "nnamed".toList, rfl, rfl⟩
  | cons c cs =>
    dsimp only
    -- a first character that cannot begin a name gets letters before it
    split
    · refine ⟨fun d hd => ?_, 'N', 'r' :: c :: cs, by simp, by decide⟩
      rw [String.toList_ofList] at hd
      rcases List.mem_cons.mp hd with rfl | hd
      · decide
      · rcases List.mem_cons.mp hd with rfl | hd
        · decide
        · exact hchars d hd
    · refine ⟨fun d hd => hchars d (by simpa using hd), c, cs, by simp, hhead c cs rfl⟩

theorem pascalize_eq (name : String) :
    pascalize name = joinWords (Text.runs isWordChar (Text.toAscii name).toList) := by
  unfold pascalize
  generalize Text.runs isWordChar (Text.toAscii name).toList = words
  rfl

theorem pascalize_plain (name : String) : Plain (pascalize name) := by
  rw [pascalize_eq]
  exact joinWords_plain Text.runs_all

theorem numbered_plain {base : String} (h : Plain base) (i : Nat) : Plain (numbered base i) := by
  unfold numbered
  split
  · exact h
  · obtain ⟨c, cs, hcons, hlower⟩ := h.head
    refine ⟨fun d hd => ?_, c, cs ++ (toString i).toList, ?_, hlower⟩
    · rw [String.toList_append] at hd
      rcases List.mem_append.mp hd with hd | hd
      · exact h.chars d hd
      · rw [Nat.toString_eq_repr, Nat.toList_repr] at hd
        rw [isWordChar, Nat.isDigit_of_mem_toDigits (by decide) (by decide) hd, Bool.or_true]
    · rw [String.toList_append, hcons, List.cons_append]

theorem freshFrom_plain {used : String → Bool} {base : String} (h : Plain base) :
    ∀ tries i, Plain (freshFrom used base tries i)
  | 0, _ => h
  | tries + 1, i => by
    unfold freshFrom
    split
    · exact freshFrom_plain h tries (i + 1)
    · exact numbered_plain h i

theorem not_reserved_of_plain {name : String} (h : Plain name) : isReserved name = false := by
  obtain ⟨c, cs, hcons, hlower⟩ := h.head
  rw [isReserved, ← Bool.not_eq_true, List.contains_iff_mem]
  intro hmem
  have hall : ∀ word ∈ reservedWords, word.toList.head?.any Char.isLower = true := by decide
  have hhead := hall name hmem
  rw [hcons, List.head?_cons, Option.any_some, hlower] at hhead
  exact absurd hhead (by decide)

/-- **A plain name is a schema name as it is.** -/
theorem schemaName_of_plain {name : String} (h : Plain name) : schemaName name = name := by
  have hdot : '.' ∉ name.toList := fun hm => absurd (h.chars _ hm) (by decide)
  have hdash : '-' ∉ name.toList := fun hm => absurd (h.chars _ hm) (by decide)
  rw [schemaName, shortName, Text.afterLast_of_notMem hdot, Text.replaceChar_of_notMem hdash,
    escapeReserved, not_reserved_of_plain h]
  rfl

/-! ## Type names -/

/-- A name of letters and digits that begins with a capital letter. -/
structure Capital (name : String) : Prop extends Plain name where
  capital : name.toList.head?.any Char.isUpper = true

/-- Words put together do not begin with a digit. -/
theorem pascalize_head (name : String) : (pascalize name).toList.head?.any Char.isDigit = false := by
  unfold pascalize
  dsimp only
  split
  · decide
  · rename_i c cs hcons
    split
    · rw [String.toList_ofList]
      rfl
    · rename_i hdigit
      rw [String.toList_ofList, hcons, List.head?_cons, Option.any_some]
      simpa using hdigit

theorem capital_of_plain {name : String} (h : Plain name)
    (hdigit : name.toList.head?.any Char.isDigit = false) : Capital name := by
  refine ⟨h, ?_⟩
  obtain ⟨c, cs, hcons, hlower⟩ := h.head
  have hword := h.chars c (hcons ▸ List.mem_cons_self)
  rw [hcons, List.head?_cons, Option.any_some] at hdigit ⊢
  unfold isWordChar Char.isAlpha at hword
  rw [hlower, hdigit, Bool.or_false, Bool.or_false] at hword
  exact hword

theorem pascalize_capital (name : String) : Capital (pascalize name) :=
  capital_of_plain (pascalize_plain name) (pascalize_head name)

theorem numbered_capital {base : String} (h : Capital base) (i : Nat) :
    Capital (numbered base i) := by
  refine ⟨numbered_plain h.toPlain i, ?_⟩
  obtain ⟨c, cs, hcons, -⟩ := h.head
  have hcapital := h.capital
  unfold numbered
  split
  · exact hcapital
  · rw [hcons] at hcapital
    rw [String.toList_append, hcons, List.cons_append]
    exact hcapital

theorem freshFrom_capital {used : String → Bool} {base : String} (h : Capital base) :
    ∀ tries i, Capital (freshFrom used base tries i)
  | 0, _ => h
  | tries + 1, i => by
    unfold freshFrom
    split
    · exact freshFrom_capital h tries (i + 1)
    · exact numbered_capital h i

/-- A name that is declared as it is. -/
structure Declarable (name : String) : Prop where
  ascii : ∀ c ∈ name.toList, c.toNat < 128
  identifier : isIdentifier name = true
  letter : name.toList.head?.any Char.isAlpha = true
  unreserved : isReserved name = false
  unchanged : schemaName name = name

/-- **A capital name is declared as it is.** -/
theorem declarable_of_capital {name : String} (h : Capital name) : Declarable name := by
  obtain ⟨c, cs, hcons, -⟩ := h.head
  have hcapital := h.capital
  rw [hcons, List.head?_cons, Option.any_some] at hcapital
  have halpha : c.isAlpha = true := by
    unfold Char.isAlpha
    rw [hcapital, Bool.true_or]
  refine ⟨fun c hc => toNat_lt_of_isWordChar (h.chars c hc), ?_, ?_,
    not_reserved_of_plain h.toPlain, schemaName_of_plain h.toPlain⟩
  · rw [isIdentifier, hcons]
    dsimp only
    rw [halpha, Bool.true_or, Bool.true_and, List.all_eq_true]
    intro d hd
    rw [isIdentChar, h.chars d (hcons ▸ List.mem_cons_of_mem _ hd), Bool.true_or]
  · rw [hcons, List.head?_cons, Option.any_some, halpha]

end Naming

end KclModels
