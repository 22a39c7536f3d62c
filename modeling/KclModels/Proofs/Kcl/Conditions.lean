import KclModels.Kcl.File

/-!
# Conditions of check blocks

A check is one condition on the value of an attribute, or all conditions on each element of an array
or each value of a map, joined in one line. There is no check for what lies deeper. So what a check
asks for can be told by the parts that lead from the attribute to the values that it is about, which
is one part at most.

A schema ends with the checks on its attributes, and a file imports `regex` if one of them matches a
pattern. A package of that path that the file imports under its own name makes the same line.
-/

namespace KclModels

/-- What may be asked of a value. -/
inductive Condition
  | maxLength (most : Nat)
  | minLength (least : Nat)
  | pattern (pattern : String)
  | maximum (bound : Double) (exclusive : Bool)
  | minimum (bound : Double) (exclusive : Bool)
  | multipleOf (factor : Double)
  | maxItems (most : Nat)
  | minItems (least : Nat)
  | uniqueItems

/-- The conditions that constraints put on a value. Only integral factors can be asked for. -/
def Constraints.conditions (c : Constraints) : List Condition :=
  c.maxLength.toList.map .maxLength ++ c.minLength.toList.map .minLength ++
    c.pattern.toList.map .pattern ++
    c.maximum.toList.map (.maximum · c.exclusiveMaximum) ++
    c.minimum.toList.map (.minimum · c.exclusiveMinimum) ++
    (c.multipleOf.toList.filter (·.isIntegral)).map .multipleOf ++
    c.maxItems.toList.map .maxItems ++ c.minItems.toList.map .minItems ++
    (if c.uniqueItems then [.uniqueItems] else [])

/-- The constraints put the condition on a value. -/
def Constraints.Puts (c : Constraints) : Condition → Prop
  | .maxLength n => c.maxLength = some n
  | .minLength n => c.minLength = some n
  | .pattern p => c.pattern = some p
  | .maximum bound exclusive => c.maximum = some bound ∧ c.exclusiveMaximum = exclusive
  | .minimum bound exclusive => c.minimum = some bound ∧ c.exclusiveMinimum = exclusive
  | .multipleOf x => c.multipleOf = some x ∧ x.isIntegral = true
  | .maxItems n => c.maxItems = some n
  | .minItems n => c.minItems = some n
  | .uniqueItems => c.uniqueItems = true

theorem Constraints.mem_conditions {c : Constraints} {k : Condition} :
    k ∈ c.conditions ↔ c.Puts k := by
  cases k with
  | maximum | minimum =>
    simp only [conditions, Puts, List.mem_append, List.mem_map, Option.mem_toList]
    grind
  | _ => simp [conditions, Puts]

/-- Constraints that are taken over leave those that there are. -/
theorem Constraints.conditions_inherit {c other : Constraints} {k : Condition}
    (h : k ∈ c.conditions) : k ∈ (c.inherit other).conditions := by
  rw [mem_conditions] at h ⊢
  cases k <;> simp_all [Puts, inherit]

/-- What an attribute is made of if it is an array or a map. -/
inductive Part
  | items
  | values
deriving DecidableEq

/-- A line of checks on an attribute: a condition on its value, or those on each of its parts. -/
inductive Check
  | own (condition : Condition)
  | each (part : Part) (conditions : List Condition)

/-- The check asks for the condition of the values that the parts lead to from the attribute. -/
inductive Check.Asks : Check → List Part → Condition → Prop
  | own (k : Condition) : Asks (.own k) [] k
  | each (part : Part) {conditions : List Condition} {k : Condition} : k ∈ conditions →
      Asks (.each part conditions) [part] k

/-- The check on the parts of an attribute, if there are conditions on them. -/
def Check.onParts (part : Part) : Option (List Condition) → List Check
  | none | some [] => []
  | some conditions => [.each part conditions]

/-- The checks on an attribute. -/
def Model.checks (m : Model) : List Check :=
  m.constraints.conditions.map .own ++
    Check.onParts .items (m.items.map (·.constraints.conditions)) ++
    Check.onParts .values (m.additionalProperties.map (·.constraints.conditions))

/-- No check is about values more than one part away. -/
theorem Check.Asks.length_le {check : Check} {path : List Part} {k : Condition}
    (h : check.Asks path k) : path.length ≤ 1 := by
  cases h with
  | own => exact Nat.zero_le 1
  | each => exact Nat.le_refl 1

theorem Check.mem_onParts {part : Part} {conditions : Option (List Condition)} {check : Check} :
    check ∈ onParts part conditions ↔
      ∃ ks, conditions = some ks ∧ ks ≠ [] ∧ check = .each part ks := by
  rcases conditions with _ | ks
  · simp [onParts]
  · cases ks <;> simp [onParts]

/-- The conditions on the parts of an attribute are asked for in one check. -/
theorem Check.exists_of_onParts (part : Part) {ks : List Condition} {k : Condition} (hk : k ∈ ks) :
    ∃ check ∈ onParts part (some ks), check.Asks [part] k :=
  ⟨.each part ks, mem_onParts.mpr ⟨ks, rfl, List.ne_nil_of_mem hk, rfl⟩, .each part hk⟩

namespace Kcl

variable {m a : Model} {check : Check}

/-! ## The text of checks -/

/-- A condition as it is written of a value named `subject`. -/
def conditionText (subject : String) : Condition → String
  | .maxLength n | .maxItems n => "len(" ++ subject ++ ")" ++ " <= " ++ toString n
  | .minLength n | .minItems n => "len(" ++ subject ++ ")" ++ " >= " ++ toString n
  | .pattern p => "regex.match(" ++ subject ++ ", " ++ regexLiteral p ++ ")"
  | .maximum bound exclusive => boundCheck subject " < " " <= " bound exclusive
  | .minimum bound exclusive => boundCheck subject " > " " >= " bound exclusive
  | .multipleOf x => "multiplyof(int(" ++ subject ++ "), " ++ boundLiteral x ++ ")"
  | .uniqueItems => "isunique(" ++ subject ++ ")"

/-- The name that a check gives to each part. -/
def partName : Part → String
  | .items => "item"
  | .values => "value"

/-- How a check goes through the parts: those of a map come with their keys. -/
def partBinder : Part → String
  | .items => "item"
  | .values => "_, value"

/-- A check as it is written of an attribute. -/
def checkText (name : String) : Check → String
  | .own k => conditionText name k
  | .each part ks =>
    "all " ++ partBinder part ++ " in " ++ name ++ " \x7b " ++
      " and ".intercalate (ks.map (conditionText (partName part))) ++ " \x7d"

/-- What is added to the checks on an attribute that may be absent. -/
def guardText (a : Model) : String :=
  if a.required then "" else " if " ++ Naming.attributeName a.name ++ " is not None"

theorem valueChecks_eq (subject : String) (c : Constraints) :
    valueChecks subject c = c.conditions.map (conditionText subject) := by
  simp only [valueChecks, Constraints.conditions, List.map_append, List.map_map]
  congr 1
  split <;> rfl

theorem partCheck_eq (part : Part) (name : String) (m : Option Model) :
    partCheck (partName part) (partBinder part) name m =
      (Check.onParts part (m.map (·.constraints.conditions))).map (checkText name) := by
  rcases m with _ | m
  · rfl
  · rw [partCheck, valueChecks_eq, Option.map_some]
    cases m.constraints.conditions <;> rfl

/-- **The lines for an attribute are its checks**, guarded if it may be absent. -/
theorem attributeChecks_eq (h : isNameable a = true) : attributeChecks a =
    a.checks.map fun check => checkText (Naming.attributeName a.name) check ++ guardText a := by
  have hitems := partCheck_eq .items (Naming.attributeName a.name) a.items
  have hvalues := partCheck_eq .values (Naming.attributeName a.name) a.additionalProperties
  simp only [partName, partBinder] at hitems hvalues
  rw [attributeChecks, h]
  simp only [Bool.not_true, Bool.false_eq_true, if_false, valueChecks_eq, hitems, hvalues,
    Model.checks, List.map_append, List.map_map]
  rfl

/-! ## Check blocks -/

/-- The declaration ends with a block of checks, and the line is one of them. -/
def HasCheck (declaration : List Block) (line : String) : Prop :=
  ∃ (head : String) (front : List Block) (lines : List String), declaration =
    [.line head, .indented (front ++ [.line "", .line "check:", .indented (lines.map .line)])] ∧
    line ∈ lines

/-- The model is declared as a schema, and its block of checks has this one on the attribute. -/
structure Checks (m a : Model) (check : Check) : Prop where
  schema : isAlias m m.declaredName = false
  declared : a ∈ attributes m m.parentBranch
  nameable : isNameable a = true
  check : check ∈ a.checks

theorem schemaBlocks_checkBlock (m : Model) (name : String) : ∃ front,
    schemaBlocks m name = [.line (header m name m.parentBranch),
      .indented (front ++ checkBlock (attributes m m.parentBranch))] :=
  ⟨_, rfl⟩

/-- **The checks on the attributes of a schema are the lines of its block of checks.** -/
theorem Checks.hasCheck (h : Checks m a check) :
    HasCheck (declaration m) (checkText (Naming.attributeName a.name) check ++ guardText a) := by
  have hline : checkText (Naming.attributeName a.name) check ++ guardText a ∈
      checkLines (attributes m m.parentBranch) := by
    refine List.mem_flatMap.mpr ⟨a, h.declared, ?_⟩
    rw [attributeChecks_eq h.nameable]
    exact List.mem_map.mpr ⟨check, h.check, rfl⟩
  obtain ⟨front, hblocks⟩ := schemaBlocks_checkBlock m m.declaredName
  refine ⟨header m m.declaredName m.parentBranch, front, checkLines (attributes m m.parentBranch),
    ?_, hline⟩
  rw [declaration, h.schema, if_neg (by decide), hblocks, checkBlock, if_neg]
  rw [List.isEmpty_iff]
  exact List.ne_nil_of_mem hline

/-! ## Patterns -/

/-- One of the conditions of the check is written as a call of `regex.match`. -/
def MatchesPattern (check : Check) : Prop := ∃ path p, check.Asks path (.pattern p)

theorem pattern_mem_conditions {c : Constraints} {p : String} :
    .pattern p ∈ c.conditions ↔ c.pattern = some p :=
  Constraints.mem_conditions

theorem usesRegex_iff_own {c : Constraints} :
    usesRegex c = true ↔ ∃ check ∈ c.conditions.map Check.own, MatchesPattern check := by
  rw [usesRegex, Option.isSome_iff_exists]
  constructor
  · rintro ⟨p, hp⟩
    exact ⟨.own (.pattern p), List.mem_map_of_mem (pattern_mem_conditions.mpr hp), [], p, .own _⟩
  · rintro ⟨check, hcheck, path, p, hasks⟩
    obtain ⟨k, hk, rfl⟩ := List.mem_map.mp hcheck
    cases hasks
    exact ⟨p, pattern_mem_conditions.mp hk⟩

theorem usesRegex_iff_part (part : Part) {m : Option Model} :
    (m.any (usesRegex ·.constraints) = true) ↔
      ∃ check ∈ Check.onParts part (m.map (·.constraints.conditions)), MatchesPattern check := by
  rcases m with _ | m
  · simp [Check.onParts]
  · rw [Option.any_some, usesRegex, Option.isSome_iff_exists, Option.map_some]
    constructor
    · rintro ⟨p, hp⟩
      obtain ⟨check, hcheck, hasks⟩ :=
        Check.exists_of_onParts part (pattern_mem_conditions.mpr hp)
      exact ⟨check, hcheck, _, p, hasks⟩
    · rintro ⟨check, hcheck, path, p, hasks⟩
      obtain ⟨ks, hks, -, rfl⟩ := Check.mem_onParts.mp hcheck
      obtain rfl := Option.some.inj hks
      cases hasks with
      | each _ hk => exact ⟨p, pattern_mem_conditions.mp hk⟩

/-- The checks on an attribute match a pattern if one of the conditions in them does. -/
theorem attributeUsesRegex_iff : attributeUsesRegex a = true ↔
    isNameable a = true ∧ ∃ check ∈ a.checks, MatchesPattern check := by
  simp only [attributeUsesRegex, Bool.and_eq_true, Bool.or_eq_true, usesRegex_iff_own,
    usesRegex_iff_part .items (m := a.items), usesRegex_iff_part .values (m := a.additionalProperties),
    Model.checks, List.mem_append, or_and_right, exists_or]

theorem declarationUsesRegex_iff : declarationUsesRegex m = true ↔
    ∃ a check, Checks m a check ∧ MatchesPattern check := by
  rw [declarationUsesRegex, Bool.and_eq_true, Bool.not_eq_true', checksUseRegex, List.any_eq_true]
  constructor
  · rintro ⟨hschema, a, ha, huses⟩
    obtain ⟨hname, check, hcheck, hmatches⟩ := attributeUsesRegex_iff.mp huses
    exact ⟨a, check, ⟨hschema, ha, hname, hcheck⟩, hmatches⟩
  · rintro ⟨a, check, h, hmatches⟩
    exact ⟨h.schema, a, h.declared, attributeUsesRegex_iff.mpr ⟨h.nameable, check, h.check, hmatches⟩⟩

/-- The line that imports the library for patterns. -/
def regexLine : Block := .line "import regex"

/-- An import makes the line of the library only if it is of a package with that path. -/
theorem importLine_eq_regex {i : Import} :
    importLine i = "import regex" ↔ i.renamed = false ∧ i.path = "regex" := by
  have hprefix : ∀ text, "import " ++ text = "import regex" ↔ text = "regex" := fun text => by
    rw [show "import regex" = "import " ++ "regex" from rfl, String.append_right_inj]
  rw [importLine]
  cases i.renamed with
  | false => simp only [Bool.false_eq_true, if_false, hprefix, true_and]
  | true =>
    refine iff_of_false (fun h => ?_) (by simp)
    rw [if_pos rfl, String.append_assoc, String.append_assoc, hprefix] at h
    -- there is a blank between the path and the name
    have hblank : ' ' ∈ (i.path ++ (" as " ++ i.asName)).toList := by simp [String.toList_append]
    rw [h] at hblank
    exact absurd hblank (by decide)

/-- **A file imports `regex` if a check matches a pattern**, or if it imports such a package. -/
theorem regexLine_mem_preamble (f : ModelFile) : regexLine ∈ preamble f ↔
    (∃ m ∈ f.model :: f.extras, ∃ a check, Checks m a check ∧ MatchesPattern check) ∨
    ∃ i ∈ f.imports, i.renamed = false ∧ i.path = "regex" := by
  have hnotice : notice ≠ "import regex" := by decide
  have hlibrary : regexLine ∈ (if (f.model :: f.extras).any declarationUsesRegex
      then [.line "import regex"] else []) ↔ ∃ m ∈ f.model :: f.extras,
        declarationUsesRegex m = true := by
    rw [← List.any_eq_true]
    split
    · next h => exact iff_of_true List.mem_cons_self h
    · next h => exact iff_of_false List.not_mem_nil h
  rw [preamble, List.mem_append, List.mem_append, hlibrary]
  simp only [regexLine, List.mem_singleton, Block.line.injEq, hnotice.symm, false_or, List.mem_map,
    importLine_eq_regex, declarationUsesRegex_iff]

end Kcl

end KclModels
