import KclModels.Proofs.Assoc.Sorted
import KclModels.Proofs.Imports.Visits

/-!
# One import for each path

While types are written out, imports are only added, and each under its own path. So the name that a
visit writes is still the name of the package when the file is done, and no other import of the file
has the same path.
-/

namespace KclModels.Imports

open Model

variable {tr : Text.Transliteration}

/-- Each import is kept under its path, and each path once. -/
structure Keyed (i : Imports) : Prop where
  sorted : Assoc.Sorted i.byPath
  path : ∀ entry ∈ i.byPath, entry.2.path = entry.1

/-- The imports `j` come after `i`: what was imported stays, under its path. -/
structure Later (i j : Imports) : Prop where
  stays : ∀ path stmt, i.byPath.lookup path = some stmt → j.byPath.lookup path = some stmt
  keyed : i.Keyed → j.Keyed

variable {target package path : String} {stmt : Import} {i j k : Imports}

theorem keyed_empty : ({} : Imports).Keyed where
  sorted := Assoc.sorted_nil
  path := fun _ h => absurd h List.not_mem_nil

theorem Later.refl (i : Imports) : Later i i := ⟨fun _ _ h => h, fun h => h⟩

theorem Later.trans (h : Later i j) (h' : Later j k) : Later i k where
  stays path stmt hp := h'.stays path stmt (h.stays path stmt hp)
  keyed hi := h'.keyed (h.keyed hi)

/-- The import of a path, among the import statements of the file. -/
theorem Keyed.only (hi : i.Keyed) (h : i.byPath.lookup path = some stmt) :
    stmt ∈ i.statements ∧ stmt.path = path ∧
      ∀ other ∈ i.statements, other.path = path → other = stmt := by
  have hmem := Assoc.mem_of_lookup h
  refine ⟨List.mem_map.mpr ⟨_, hmem, rfl⟩, hi.path _ hmem, fun other hother hpath => ?_⟩
  obtain ⟨entry, hentry, rfl⟩ := List.mem_map.mp hother
  have hkey : entry.1 = path := (hi.path entry hentry).symm.trans hpath
  exact congrArg Prod.snd (List.inj_on_of_nodup_map hi.sorted.nodup hentry hmem hkey)

/-- A package is written with the name that its path is imported under. -/
theorem nameFor_name (i : Imports) (target package : String) : ∃ stmt,
    (i.nameFor target package).2.byPath.lookup (importPath package target) = some stmt ∧
      (i.nameFor target package).1 = stmt.asName := by
  unfold nameFor
  dsimp only
  split
  · rename_i stmt h
    exact ⟨stmt, h, rfl⟩
  · exact ⟨_, (Assoc.lookup_putSorted _ _ _ _).trans (if_pos rfl), rfl⟩

theorem nameFor_later [Text.Transliteration] (i : Imports) (target package : String) :
    Later i (i.nameFor target package).2 := by
  unfold nameFor
  dsimp only
  split
  · exact Later.refl i
  · rename_i hnone
    refine ⟨fun path stmt h => ?_, fun hi => ⟨hi.sorted.putSorted, fun entry hentry => ?_⟩⟩
    · have hne : path ≠ importPath package target := by
        rintro rfl
        rw [hnone] at h
        exact absurd h (by simp)
      rw [Assoc.lookup_putSorted, if_neg hne]
      exact h
    · rcases Assoc.mem_putSorted hentry with rfl | hentry
      · rfl
      · exact hi.path entry hentry

theorem qualify_later (target : String) (t : TypeInfo) (i : Imports) :
    Later i (qualify target t i).2 := by
  unfold qualify
  split
  · exact Later.refl i
  · exact nameFor_later i target t.package

/-! ## Visits only add imports -/

theorem atPosition_later {write : Model → Imports → Model × Imports}
    (hwrite : ∀ m i, Later i (write m i).2) (p : Position) :
    ∀ m i, Later i (atPosition write p m i).2 := by
  induction p with
  | nil => exact hwrite
  | cons e rest ih =>
    intro m i
    rw [atPosition]
    split
    · exact Later.refl i
    · exact ih _ i

theorem run_later (target : String) (visit : Visit) (s : Model × Imports) :
    Later s.2 (visit.run target s).2 := by
  cases visit with
  | whole p =>
    refine atPosition_later (fun m i => ?_) p s.1 s.2
    rw [writeType_eq]
    exact qualify_later _ _ _
  | name p =>
    refine atPosition_later (fun m i => ?_) p s.1 s.2
    rw [writeName_eq]
    exact qualify_later _ _ _

theorem runVisits_later (target : String) (visits : List Visit) (s : Model × Imports) :
    Later s.2 (runVisits target visits s).2 := by
  induction visits generalizing s with
  | nil => exact Later.refl _
  | cons visit rest ih => exact (run_later target visit s).trans (ih _)

theorem collect_later (target : String) (m : Model) (i : Imports) :
    Later i (collect target m i).2 := by
  rw [← collect_eq_runVisits]
  exact runVisits_later target (visitsOf m) (m, i)

theorem collectOption_later (target : String) (o : Option Model) (i : Imports) :
    Later i (collectOption target o i).2 := by
  cases o with
  | none => exact Later.refl i
  | some m => exact collect_later target m i

theorem collectList_later (target : String) (l : List Model) (i : Imports) :
    Later i (collectList target l i).2 := by
  induction l generalizing i with
  | nil => exact Later.refl i
  | cons m rest ih => exact (collect_later target m i).trans (ih _)

theorem collectNew_later [Text.Transliteration] (target : String) (l : List Model)
    (declared : List String) (i : Imports) :
    Later i (collectNew target declared l i).2.2 := by
  induction l generalizing declared i with
  | nil => exact Later.refl i
  | cons m rest ih =>
    rw [collectNew]
    split
    · exact ih declared i
    · exact (collect_later target m i).trans (ih _ _)

theorem collectBranches_later [Text.Transliteration] (target : String) (parent : Option Nat)
    (l : List Model) (declared : List String) (index : Nat) (i : Imports) :
    Later i (collectBranches target parent declared index l i).2 := by
  induction l generalizing declared index i with
  | nil => exact Later.refl i
  | cons branch rest ih =>
    rw [collectBranches]
    split
    · exact (qualify_later target branch.type i).trans (ih _ _ _)
    · exact (collectNew_later target branch.properties declared i).trans (ih _ _ _)

theorem collectRendered_later (target : String) (m : Model) (i : Imports) :
    Later i (collectRendered target m i).2 := by
  rw [← collectRendered_eq_runVisits]
  exact runVisits_later target (visitsOfRendered m) (m, i)

theorem collectAllRendered_later [Text.Transliteration] (target : String) (l : List Model)
    (i : Imports) :
    Later i (collectAllRendered target l i).2 := by
  induction l generalizing i with
  | nil => exact Later.refl i
  | cons m rest ih => exact (collectRendered_later target m i).trans (ih _)

end KclModels.Imports

/-!
## Types as a file writes them

The type of another package is written behind the name of the one import of its path, and the type
of an array or a map out of the type of its part, which is written already. This holds at each
position that is visited, and at the parent of a rendered model as far as names go.
-/

namespace KclModels.Imports

open Model

variable {tr : Text.Transliteration}

/--
The type `t'` is `t` behind the name of the only import of the path of its package, if that is
another one than `target`.
-/
def Qualified (target : String) (imports : List Import) (t t' : TypeInfo) : Prop :=
  t.package ≠ "" → t.package ≠ target → ∃ stmt ∈ imports,
    stmt.path = importPath t.package target ∧
    (∀ other ∈ imports, other.path = stmt.path → other = stmt) ∧
    t'.kclType = stmt.asName ++ "." ++ t.kclType

/-- The model `m'` is `m` with its type as a file of the package `target` writes it. -/
structure WrittenOut (target : String) (imports : List Import) (m m' : Model) : Prop where
  package : m'.type.package = m.type.package
  qualified : Qualified target imports m.type m'.type
  array : m.type.package = "" → m.type.array = true → m.items.isSome →
    ∃ item, m'.items = some item ∧ m'.type.kclType = "[" ++ item.type.kclType ++ "]"
  map : m.type.package = "" → (m.type.array = true → m.items = none) →
    Text.begins "\x7bstr:" m.type.kclType = true → m.additionalProperties.isSome →
    ∃ value, m'.additionalProperties = some value ∧
      m'.type.kclType = "\x7bstr:" ++ value.type.kclType ++ "\x7d"
  /-- A type that is written out of no part stays. -/
  plain : (m.type.package = "" ∨ m.type.package = target) →
    (m.type.package = "" → m.type.array = true → m.items = none) →
    (m.type.package = "" → Text.begins "\x7bstr:" m.type.kclType = true →
      m.additionalProperties = none) →
    m'.type = m.type

variable {target : String} {t : TypeInfo} {i j : Imports} {item value : Option Model}
variable {m m' b c p : Model}

/-! ### One type -/

theorem qualify_own (h : t.package = "" ∨ t.package = target) (i : Imports) :
    qualify target t i = (t, i) := by
  rw [qualify, if_pos]
  simpa using h

theorem qualify_foreign (hsome : t.package ≠ "") (hother : t.package ≠ target) (i : Imports) :
    ∃ stmt, (qualify target t i).2.byPath.lookup (importPath t.package target) = some stmt ∧
      (qualify target t i).1 =
        { t with packageAlias := stmt.asName, kclType := stmt.asName ++ "." ++ t.kclType } := by
  obtain ⟨stmt, hstmt, hname⟩ := nameFor_name i target t.package
  refine ⟨stmt, ?_⟩
  rw [qualify, if_neg (by simp [hsome, hother]), ← hname]
  exact ⟨hstmt, rfl⟩

theorem qualify_package (t : TypeInfo) (i : Imports) :
    (qualify target t i).1.package = t.package := by
  unfold qualify
  split <;> rfl

/-- A type that is qualified on the way to the imports of the file is qualified in the file. -/
theorem qualify_qualified (hlater : Later (qualify target t i).2 j) (hkeyed : j.Keyed) :
    Qualified target j.statements t (qualify target t i).1 := by
  intro hsome hother
  obtain ⟨stmt, hstmt, htype⟩ := qualify_foreign hsome hother i
  obtain ⟨hmem, hpath, honly⟩ := hkeyed.only (hlater.stays _ _ hstmt)
  exact ⟨stmt, hmem, hpath, fun other ho hp => honly other ho (hp.trans hpath), by rw [htype]⟩

/-! ### The type of a container -/

theorem rebracket_foreign (h : t.package ≠ "") (item value : Option Model) :
    rebracket t item value = t := by
  cases item <;> cases value <;> simp [rebracket, h]

theorem rebracket_package (t : TypeInfo) (item value : Option Model) :
    (rebracket t item value).package = t.package := by
  unfold rebracket
  cases item with
  | none =>
    cases value with
    | none => rfl
    | some v => dsimp only; split <;> rfl
  | some p =>
    cases value with
    | none => dsimp only; split <;> rfl
    | some v => dsimp only; split <;> split <;> rfl

theorem rebracket_array (hp : t.package = "") (ha : t.array = true) (p : Model)
    (value : Option Model) :
    (rebracket t (some p) value).kclType = "[" ++ p.type.kclType ++ "]" := by
  have hbegins : ∀ s : String, Text.begins "\x7bstr:" ("[" ++ s ++ "]") = false := by
    intro s
    simp [Text.begins, Text.after?, List.isPrefixOf?]
  cases value <;> simp [rebracket, hp, ha, hbegins]

theorem rebracket_map (hp : t.package = "") (ha : t.array = true → item = none)
    (hb : Text.begins "\x7bstr:" t.kclType = true) (v : Model) :
    (rebracket t item (some v)).kclType = "\x7bstr:" ++ v.type.kclType ++ "\x7d" := by
  cases item with
  | none => simp [rebracket, hp, hb]
  | some p =>
    have ha : t.array = false := by simpa using ha
    simp [rebracket, hp, hb, ha]

theorem rebracket_plain (ha : t.package = "" → t.array = true → item = none)
    (hb : t.package = "" → Text.begins "\x7bstr:" t.kclType = true → value = none) :
    rebracket t item value = t := by
  by_cases hp : t.package = ""
  · cases item <;> cases value <;> simp_all [rebracket]
  · exact rebracket_foreign hp item value

/-- Writing the type of a model out, when the parts are those of `m` with theirs written out. -/
theorem writeType_writtenOut {m₁ : Model} (htype : m₁.type = m.type)
    (hitems : m₁.items.isSome = m.items.isSome)
    (hvalue : m₁.additionalProperties.isSome = m.additionalProperties.isSome)
    (hlater : Later (writeType target m₁ i).2 j) (hkeyed : j.Keyed) :
    WrittenOut target j.statements m (writeType target m₁ i).1 := by
  have hnone : ∀ {o o' : Option Model}, o.isSome = o'.isSome → o' = none → o = none := by
    rintro o _ h rfl
    simpa using h
  have hpackage := rebracket_package m₁.type m₁.items m₁.additionalProperties
  -- where the package is empty nothing is put in front
  have hown : m.type.package = "" →
      (writeType target m₁ i).1.type = rebracket m.type m₁.items m₁.additionalProperties := by
    intro hp
    rw [htype, hp] at hpackage
    simp only [writeType, htype]
    rw [qualify_own (Or.inl hpackage)]
  refine { package := ?_, qualified := ?_, array := ?_, map := ?_, plain := ?_ }
  · simp only [writeType]
    rw [qualify_package, hpackage, htype]
  · intro hsome hother
    have hsame := rebracket_foreign (htype ▸ hsome) m₁.items m₁.additionalProperties
    simp only [writeType, hsame] at hlater ⊢
    rw [← htype] at hsome hother ⊢
    exact qualify_qualified hlater hkeyed hsome hother
  · intro hp ha hsome
    obtain ⟨item, hitem⟩ := Option.isSome_iff_exists.mp (hitems.trans hsome)
    refine ⟨item, hitem, ?_⟩
    rw [hown hp, hitem]
    exact rebracket_array hp ha item _
  · intro hp ha hb hsome
    obtain ⟨value, hv⟩ := Option.isSome_iff_exists.mp (hvalue.trans hsome)
    refine ⟨value, hv, ?_⟩
    rw [hown hp, hv]
    exact rebracket_map hp (fun h => hnone hitems (ha h)) hb value
  · intro hp ha hb
    have hsame : rebracket m₁.type m₁.items m₁.additionalProperties = m.type := by
      rw [htype]
      exact rebracket_plain (fun h h' => hnone hitems (ha h h')) (fun h h' => hnone hvalue (hb h h'))
    simp only [writeType, hsame]
    rw [qualify_own hp]

/-! ### Collected models -/

theorem collectOption_isSome (o : Option Model) (i : Imports) :
    (collectOption target o i).1.isSome = o.isSome := by
  cases o <;> rfl

/-- Collecting ends with writing out the type of the model that has its parts written out. -/
theorem collect_ends (target : String) (m : Model) (i : Imports) : ∃ m₁ i₁,
    collect target m i = writeType target m₁ i₁ ∧ m₁.type = m.type ∧
      m₁.items.isSome = m.items.isSome ∧
      m₁.additionalProperties.isSome = m.additionalProperties.isSome := by
  obtain ⟨facts, items, extraItems, properties, allOf, value⟩ := m
  refine ⟨{ (collect target ⟨facts, items, extraItems, properties, allOf, value⟩ i).1 with
      type := facts.type },
    (collectList target allOf (collectOption target value (collectList target properties
      (collectOption target extraItems (collectOption target items i).2).2).2).2).2, ?_, rfl, ?_, ?_⟩
  · simp only [collect, writeType]
  · simp only [collect, collectOption_isSome]
  · simp only [collect, collectOption_isSome]

theorem collect_writtenOut (hlater : Later (collect target m i).2 j) (hkeyed : j.Keyed) :
    WrittenOut target j.statements m (collect target m i).1 := by
  obtain ⟨m₁, i₁, heq, htype, hitems, hvalue⟩ := collect_ends target m i
  rw [heq] at hlater ⊢
  exact writeType_writtenOut htype hitems hvalue hlater hkeyed

theorem collectOption_some (target : String) {o : Option Model} (h : o = some p) (i : Imports) :
    (collectOption target o i).1 = some (collect target p i).1 ∧
      (collectOption target o i).2 = (collect target p i).2 := by
  subst h
  exact ⟨rfl, rfl⟩

/-- A model in a row is collected on the way. -/
theorem collectList_part (target : String) {l : List Model} {index : Nat}
    (h : l[index]? = some p) :
    ∀ i, ∃ j, (collectList target l i).1[index]? = some (collect target p j).1 ∧
      Later (collect target p j).2 (collectList target l i).2 := by
  induction l generalizing index with
  | nil => exact absurd h (by simp)
  | cons q rest ih =>
    intro i
    rw [collectList]
    cases index with
    | zero =>
      obtain rfl : q = p := Option.some.inj h
      exact ⟨i, rfl, collectList_later target rest _⟩
    | succ n => exact ih h (collect target q i).2

/-- A part of a model is collected on the way. -/
theorem collect_part (target : String) {e : Edge} (h : m.part? e = some p) (i : Imports) :
    ∃ j, (collect target m i).1.part? e = some (collect target p j).1 ∧
      Later (collect target p j).2 (collect target m i).2 := by
  obtain ⟨facts, items, extraItems, properties, allOf, value⟩ := m
  rw [collect]
  -- what comes after each row of parts
  have hlast : ∀ t k, Later k (qualify target t k).2 := fun t k => qualify_later target t k
  have hall : ∀ t k, Later k (qualify target t (collectList target allOf k).2).2 := fun t k =>
    (collectList_later target allOf k).trans (hlast t _)
  have hvalue : ∀ t k, Later k (qualify target t
      (collectList target allOf (collectOption target value k).2).2).2 := fun t k =>
    (collectOption_later target value k).trans (hall t _)
  have hprops : ∀ t k, Later k (qualify target t (collectList target allOf
      (collectOption target value (collectList target properties k).2).2).2).2 := fun t k =>
    (collectList_later target properties k).trans (hvalue t _)
  have hextra : ∀ t k, Later k (qualify target t (collectList target allOf
      (collectOption target value (collectList target properties
        (collectOption target extraItems k).2).2).2).2).2 := fun t k =>
    (collectOption_later target extraItems k).trans (hprops t _)
  cases e with
  | items =>
    obtain ⟨h₁, h₂⟩ := collectOption_some target h i
    exact ⟨i, h₁, h₂ ▸ hextra _ _⟩
  | additionalItems =>
    obtain ⟨h₁, h₂⟩ := collectOption_some target h (collectOption target items i).2
    exact ⟨_, h₁, h₂ ▸ hprops _ _⟩
  | values =>
    obtain ⟨h₁, h₂⟩ := collectOption_some target h
      (collectList target properties (collectOption target extraItems
        (collectOption target items i).2).2).2
    exact ⟨_, h₁, h₂ ▸ hall _ _⟩
  | child row index =>
    cases row with
    | properties =>
      obtain ⟨k, h₁, h₂⟩ := collectList_part target h
        (collectOption target extraItems (collectOption target items i).2).2
      exact ⟨k, h₁, h₂.trans (hvalue _ _)⟩
    | branches =>
      obtain ⟨k, h₁, h₂⟩ := collectList_part target h
        (collectOption target value (collectList target properties
          (collectOption target extraItems (collectOption target items i).2).2).2).2
      exact ⟨k, h₁, h₂.trans (hlast _ _)⟩

/-- **Every model of a collected tree is written out.** -/
theorem collect_at {position : Position} (hkeyed : j.Keyed) : ∀ {m : Model} {i : Imports},
    m.at? position = some b → Later (collect target m i).2 j →
    ∃ b', (collect target m i).1.at? position = some b' ∧ WrittenOut target j.statements b b' := by
  induction position with
  | nil =>
    intro m i h hlater
    obtain rfl := Option.some.inj h
    exact ⟨_, rfl, collect_writtenOut hlater hkeyed⟩
  | cons e rest ih =>
    intro m i h hlater
    obtain ⟨p, hp, hat⟩ := Option.bind_eq_some_iff.mp h
    obtain ⟨k, hpart, hbefore⟩ := collect_part target hp i
    obtain ⟨b', hb', hwritten⟩ := ih hat (hbefore.trans hlater)
    exact ⟨b', by rw [at?, hpart]; exact hb', hwritten⟩

end KclModels.Imports
