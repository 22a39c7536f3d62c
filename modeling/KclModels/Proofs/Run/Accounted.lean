import KclModels.Proofs.Build.FileLinks
import KclModels.Proofs.Imports.Collecting
import KclModels.Proofs.Kcl.Spelled
import KclModels.Run
import KclModels.Text.AsciiTable

/-!
# Spelled types are declared

A type that a file spells is declared in the file, or in the file of a definition that the file
depends on. The exception are the full models of bases that a subtype puts in place of its branches:
what is taken out while a base is built once more is in no file.
-/

namespace KclModels

/-- Every reference in the definitions names one of them. -/
def Definitions.Canonical (definitions : Definitions) : Prop :=
  ∀ n c, definitions.lookup n = some c → c.Everywhere fun t =>
    ∀ reference, t.reference = some reference →
      ∃ m, Reference.name? reference = some m ∧ Assoc.has definitions m = true

/-- Checks that every reference in the definitions names one of them. -/
def Definitions.isCanonical (definitions : Definitions) : Bool :=
  definitions.all fun (_, c) => c.all fun t => t.reference.all fun reference =>
    (Reference.name? reference).any (Assoc.has definitions)

theorem Definitions.canonical_of_check {definitions : Definitions}
    (h : definitions.isCanonical = true) : definitions.Canonical := by
  intro n c hc
  have hall := List.all_eq_true.mp h (n, c) (Assoc.mem_of_lookup hc)
  refine (Schema.everywhere_of_all hall).mono fun t ht reference href => ?_
  rw [href, Option.all_some, Option.any_eq_true] at ht
  exact ht

/-- The references of the definitions to names in `bare` stand alone as that asks. -/
def Definitions.Bare (definitions : Definitions) (bare : String → Option Bool) : Prop :=
  ∀ n c, definitions.lookup n = some c → c.Everywhere fun t =>
    ∀ m, t.referenceName = some m → ∀ valued ∈ bare m, t.Bare valued

theorem Definitions.bare_unasked {definitions : Definitions} : definitions.Bare unasked :=
  fun _ _ _ _ _ _ _ _ hv => absurd hv not_mem_unasked

theorem Definitions.Canonical.known {definitions : Definitions} (h : definitions.Canonical)
    {bare : String → Option Bool} (hb : definitions.Bare bare) {n : String} {c : Schema}
    (hc : definitions.lookup n = some c) :
    c.Known (fun n => (definitions.lookup n).isSome = true) bare := by
  intro t ht
  refine ⟨fun m hm => ?_, hb n c hc t ht⟩
  obtain ⟨reference, href, hname⟩ := Option.bind_eq_some_iff.mp hm
  obtain ⟨m', hm', hhas⟩ := h n c hc t ht reference href
  rw [hname] at hm'
  exact Option.some.inj hm' ▸ hhas

theorem Definitions.Canonical.stored {definitions : Definitions} (h : definitions.Canonical)
    {bare : String → Option Bool} (hb : definitions.Bare bare) {n : String}
    (hn : (definitions.lookup n).isSome = true) : ∃ d, definitions.lookup n = some d ∧
      d.Known (fun n => (definitions.lookup n).isSome = true) bare := by
  obtain ⟨d, hd⟩ := Option.isSome_iff_exists.mp hn
  exact ⟨d, hd, h.known hb hd⟩

section

variable {tr : Text.Transliteration}

namespace Run

variable {r : Run} {name : String} {taken hoisted : List String} {file : ModelFile}
variable {warnings : List Warning}

theorem generateReserving_ok (h : r.generateReserving name taken = .ok (file, warnings, hoisted)) :
    ∃ s', r.buildFile name taken = (.ok file, s') ∧ hoisted = s'.registry.hoisted := by
  unfold generateReserving at h
  split at h
  · rename_i f s hrun
    rw [Except.ok.injEq, Prod.mk.injEq, Prod.mk.injEq] at h
    obtain ⟨rfl, -, rfl⟩ := h
    exact ⟨s, hrun, rfl⟩
  · simp at h

/-- The branches of a definition that the full models of bases are put in place of. -/
def Expands (r : Run) (name : String) (i : Nat) : Prop :=
  (Registry.ofDefinitions r.definitions).Expands r.polymorphism name i

/-- **A file is made of a linked frame.** -/
theorem buildFile_linked {bare : String → Option Bool} {s' : Session}
    (hc : r.definitions.Canonical) (hb : r.definitions.Bare bare)
    (h : r.buildFile name taken = (.ok file, s')) :
    ∃ c f, r.definitions.lookup name = some c ∧
      (r.session taken).registry.Grows s'.registry ∧
      FileLinked (fun n => (r.definitions.lookup n).isSome = true) (r.Expands name)
        (c.reference = none) bare name s'.registry f ∧
      file = (Build.assemble r.setting name s'.registry f).1 := by
  obtain ⟨f, s₁, hf, hreg, hfile⟩ := Build.file_cases h
  obtain ⟨c, -, -, -, -, hget, -⟩ := Build.fileFrame_cases hf
  obtain ⟨hgrows, hlinked, -⟩ := fileFrame_linked hget (hc.known hb hget)
    (fun _ hn => hc.stored hb hn) hf
  refine ⟨c, f, hget, hreg ▸ hgrows, ?_, hreg ▸ hfile⟩
  rw [hreg]
  refine { hlinked with branches := fun i b hi => (hlinked.branches i b hi).imp_right ?_ }
  rintro ⟨⟨hsub, d, branch, reference, base, hd, hbr, href, hleads, hdisc⟩, hg⟩
  exact ⟨⟨hsub, d, branch, reference, base, hd, hbr, href, hleads.mono fun _ _ h => h, hdisc⟩, hg⟩

/-! ## Names that a file accounts for -/

end Run

/-- A name is that of the file's definition, of a schema in the file or of one it depends on. -/
def ModelFile.Accounts (file : ModelFile) (name n : String) : Prop :=
  n = name ∨ n ∈ file.extras.map (·.name) ∨ n ∈ file.dependsOn

section Files

variable {setting : Setting} {known : String → Prop} {noted : Prop} {expands : Nat → Prop}
variable {bare : String → Option Bool}
variable {name : String} {r r' : Registry} {f : Frame}

/-- The names of the models taken out are the names they are kept under. -/
theorem FileLinked.extras_names (h : FileLinked known expands noted bare name r f) :
    f.extras.map (·.2.name) = Assoc.keys f.extras :=
  List.map_congr_left fun e he => (h.extras e.1 e.2 he).name

/-- A name that is known was not given out to a definition that was made. -/
theorem not_hoisted_of_known (hr : r.Grows r') (hnone : r.hoisted = [])
    {n : String} (hn : (r.get? n).isSome = true) : n ∉ r'.hoisted := by
  intro hmade
  rcases hr.made n hmade with hmade | ⟨hfree, -⟩
  · rw [hnone] at hmade
    exact absurd hmade List.not_mem_nil
  · rw [Registry.contains_iff.mpr (Or.inl hn)] at hfree
    exact absurd hfree (by simp)

/-- **What a linked file refers to is accounted for.** -/
theorem FileLinked.accounts (h : FileLinked known expands noted bare name r' f)
    (hfresh : ∀ n, known n → n ∉ r'.hoisted) {n : String} (hn : n ∈ f.dependencies) :
    (Build.assemble setting name r' f).1.Accounts name n := by
  obtain ⟨-, -, hdepends⟩ := Build.assemble_facts setting name r' f
  have hkeys : ∀ n, n ∈ Assoc.keys f.extras →
      n ∈ (Build.assemble setting name r' f).1.extras.map (·.name) := by
    intro n hn
    rw [Build.assemble_extras_names, h.extras_names]
    exact hn
  by_cases hname : n = name
  · exact Or.inl hname
  · rcases h.dependencies n hn with hknown | hkey
    · by_cases hkey : n ∈ Assoc.keys f.extras
      · exact Or.inr (Or.inl (hkeys n hkey))
      · refine Or.inr (Or.inr ?_)
        rw [hdepends, Build.dependsOn, Assoc.mem_nameSet, List.mem_filter]
        have hhas : Assoc.has f.extras n = false := by
          rw [← Bool.not_eq_true, Assoc.has_iff_mem_keys]
          exact hkey
        simp [hn, hname, hhas, hfresh n hknown]
    · exact Or.inr (Or.inl (hkeys n hkey))

/-- References stay when types are written out. -/
theorem carriesOver_reference [Text.Transliteration] (target : String) (S : String → Prop) :
    Imports.CarriesOver target (fun m => ∀ n, m.reference = some n → S n)
      (fun m => ∀ n, m.reference = some n → S n) where
  written _ _ h hw n hn := h n (hw.reference ▸ hn)
  same _ h := h
  qualified _ _ h := h
  properties _ _ h := h

/-- Below a linked model all references are to the names it is linked to. -/
theorem references_of_linked {names : List String} {m : Model}
    (h : m.Everywhere (Model.Linked names bare r)) :
    m.Everywhere fun a => ∀ n, a.reference = some n → n ∈ names :=
  h.mono fun _ ha n hn => (ha n hn).1

variable {target : String} {m₀ m a : Model} {n : String}

/-- What the declaration of a model that was taken out refers to. -/
theorem spelled_of_takenOut {names : List String} (h : m₀.TakenOut known names bare r n)
    (hm : Imports.Rendered target m₀ m) (ha : Kcl.Spelled m a) {x : String}
    (hx : a.reference = some x) : x ∈ names := by
  have hcarries := carriesOver_reference target (· ∈ names)
  have hparts : ∀ p ∈ m₀.parts, p.Everywhere fun a => ∀ n, a.reference = some n → n ∈ names :=
    fun p hp => references_of_linked (h.parts p hp)
  rcases Kcl.spelled_cases ha with hnone | ⟨p, hp, hw⟩ | ⟨i, b, hb, hcases⟩
  · rw [hnone] at hx
    exact absurd hx (by simp)
  · exact hm.own _ _ hcarries (fun q hq => hparts q (mem_parts_of_own hq)) p hp a hw x hx
  · obtain ⟨b₀, hb₀, hwritten⟩ := hm.branches i b hb
    have hall := hparts b₀ (Model.mem_parts_iff.mpr
      (Or.inr (Or.inr (Or.inr (Or.inl (List.mem_of_getElem? hb₀))))))
    have hall' := hwritten.whole _ _ hcarries hall
    rcases hcases with ⟨-, rfl⟩ | ⟨p, hp, hw⟩
    · exact hall'.here x hx
    · exact hall' a (.part hp hw) x hx

/-- What the declaration of the definition itself refers to, unless a base brought it. -/
theorem FileLinked.spelled (h : FileLinked known expands noted bare name r f)
    (hm : Imports.Rendered target m₀ m) (hall : m₀.allOf = f.model.allOf)
    (hparts : ({ m₀ with allOf := [] } : Model).parts = ({ f.model with allOf := [] } : Model).parts)
    (ha : Kcl.Spelled m a) (hn : a.reference = some n) :
    n ∈ f.dependencies ∨ ∃ (i : Nat) (b : Model), expands i ∧ m.allOf[i]? = some b ∧
      ((∃ p ∈ b.parts, a.Within p) ∨ a = b ∧ ¬ noted) := by
  have hcarries := carriesOver_reference target (· ∈ f.dependencies)
  rcases Kcl.spelled_cases ha with hnone | ⟨p, hp, hw⟩ | ⟨i, b, hb, hcases⟩
  · rw [hnone] at hn
    exact absurd hn (by simp)
  · refine Or.inl (hm.own _ _ hcarries (fun q hq => ?_) p hp a hw n hn)
    rw [hparts] at hq
    exact references_of_linked (h.own q hq)
  · obtain ⟨b₀, hb₀, hwritten⟩ := hm.branches i b hb
    rw [hall] at hb₀
    -- a branch is linked as a whole, or it was expanded
    rcases h.branches i b₀ hb₀ with hlinked | ⟨hexpands, ⟨x, hx, -, hnoted, -⟩, -⟩
    · have hall' := hwritten.whole _ _ hcarries (references_of_linked hlinked)
      rcases hcases with ⟨-, rfl⟩ | ⟨p, hp, hw⟩
      · exact Or.inl (hall'.here n hn)
      · exact Or.inl (hall' a (.part hp hw) n hn)
    · rcases hcases with ⟨-, rfl⟩ | ⟨p, hp, hw⟩
      · rw [hwritten.reference, hx] at hn
        obtain rfl := Option.some.inj hn
        -- the name of the branch itself counts only if it was noted
        by_cases hyes : noted
        · exact Or.inl (hnoted hyes)
        · exact Or.inr ⟨i, a, hexpands, hb, Or.inr ⟨rfl, hyes⟩⟩
      · exact Or.inr ⟨i, b, hexpands, hb, Or.inl ⟨p, hp, hw⟩⟩

end Files

end

namespace Run

variable {r : Run} {name : String} {taken hoisted : List String} {file : ModelFile}
variable {warnings : List Warning} {m a : Model} {n : String}

/--
The model belongs to the full model of a base: it is below a branch that a base was put in place of,
or is that branch and the definition has a reference of its own besides.
-/
def FromBase (r : Run) (name : String) (file : ModelFile) (a : Model) : Prop :=
  ∃ (i : Nat) (b : Model), r.Expands name i ∧ file.model.allOf[i]? = some b ∧
    ((∃ p ∈ b.parts, a.Within p) ∨
      a = b ∧ ∃ c, r.definitions.lookup name = some c ∧ c.reference.isSome = true)

section

variable {tr : Text.Transliteration}

/-- **A spelled type is declared in the file or in one it depends on**, unless a base brought it. -/
theorem spelled_reference_accounted (hc : r.definitions.Canonical)
    (h : r.generateReserving name taken = .ok (file, warnings, hoisted))
    (hm : m ∈ file.model :: file.extras) (ha : Kcl.Spelled m a) (hn : a.reference = some n) :
    file.Accounts name n ∨ (m = file.model ∧ r.FromBase name file a) := by
  obtain ⟨s', hbuild, -⟩ := generateReserving_ok h
  obtain ⟨c, f, hget, hgrows, hlinked, rfl⟩ :=
    buildFile_linked hc Definitions.bare_unasked hbuild
  have haccounts : ∀ n ∈ f.dependencies,
      (Build.assemble r.setting name s'.registry f).1.Accounts name n := fun n hn =>
    hlinked.accounts (fun n hk => not_hoisted_of_known hgrows rfl hk) hn
  rcases List.mem_cons.mp hm with rfl | hm
  · -- writing out adds spellings to what was declared, no references
    have hmain := Build.assemble_rendered r.setting name s'.registry f
    rcases hlinked.spelled hmain rfl rfl ha hn with hn | ⟨i, b, hexp, hb, hbelow⟩
    · exact Or.inl (haccounts n hn)
    · refine Or.inr ⟨rfl, i, b, hexp, hb, hbelow.imp_right (And.imp_right fun hnone => ?_)⟩
      exact ⟨c, hget, Option.isSome_iff_ne_none.mpr hnone⟩
  · obtain ⟨x, e, j, hx, rfl⟩ := Build.mem_assemble_extras hm
    have hrendered := Imports.collectRendered_rendered (r.setting.options.packageOf name) e j
    exact Or.inl (haccounts n (spelled_of_takenOut (hlinked.extras x e hx) hrendered ha hn))

end

/-! ### Runs with and without bases -/

/-- The run over definitions with the options that are used when none are given. -/
def ofDefinitions (definitions : Definitions) : Run where
  definitions
  polymorphism := .ofDefinitions definitions
  dependencies := .ofDefinitions definitions
  options := {}
  info := none

/-- A label, and an order with a label and an owner whose schema has no name. -/
def orders : Run := ofDefinitions [
  ("Label", { types := ["object"], properties := [("text", .typed "string")] }),
  ("Order", { types := ["object"], properties := [("label", .referenceTo "Label"),
    ("owner", { types := ["object"], properties := [("name", .typed "string")] })] })]

theorem exists_ok_of_any {α ε : Type} {e : Except ε α} {p : α → Bool}
    (h : e.toOption.any p = true) : ∃ a, e = .ok a ∧ p a = true := by
  cases e with
  | error e => simp [Except.toOption] at h
  | ok a => exact ⟨a, rfl, h⟩

theorem orders_owner_accounted : orders.definitions.Canonical ∧ ∃ file warnings hoisted a,
    orders.generateReserving "Order" [] = .ok (file, warnings, hoisted) ∧
      Kcl.Spelled file.model a ∧ a.reference = some "OrderOwner" ∧
      (file.Accounts "Order" "OrderOwner" ∨
        (file.model = file.model ∧ orders.FromBase "Order" file a)) := by
  have hc : orders.definitions.Canonical := Definitions.canonical_of_check (by decide +kernel)
  obtain ⟨⟨file, warnings, hoisted⟩, h, hspelled⟩ :=
    exists_ok_of_any (e := orders.generateReserving "Order" [])
      (p := fun one => (Kcl.spelledHeads one.1.model).any (·.reference == some "OrderOwner"))
      (by decide +kernel)
  obtain ⟨a, ha, hn⟩ := List.any_eq_true.mp hspelled
  have hn : a.reference = some "OrderOwner" := by simpa using hn
  exact ⟨hc, file, warnings, hoisted, a, h, ⟨a, ha, .refl a⟩, hn,
    spelled_reference_accounted hc h List.mem_cons_self ⟨a, ha, .refl a⟩ hn⟩

/-- A composition of two bases, the second with an owner whose schema has no name. -/
def deliveries : Run := ofDefinitions [
  ("Parcel", { types := ["object"], discriminator := some "size"
               properties := [("size", .typed "string")] }),
  ("Freight", { types := ["object"], discriminator := some "kind"
                properties := [("kind", .typed "string"),
                  ("owner", { types := ["object"], properties := [("name", .typed "string")] })] }),
  ("Delivery", { allOf := [.referenceTo "Parcel", .referenceTo "Freight"] })]

/-- A base does bring types that are declared nowhere. -/
theorem deliveries_owner_unaccounted : ∃ file warnings hoisted a n,
    deliveries.generateReserving "Delivery" [] = .ok (file, warnings, hoisted) ∧
      Kcl.Spelled file.model a ∧ a.reference = some n ∧ ¬ file.Accounts "Delivery" n := by
  obtain ⟨⟨file, warnings, hoisted⟩, h, hspelled⟩ :=
    exists_ok_of_any (e := deliveries.generateReserving "Delivery" [])
      (p := fun one => (Kcl.spelledHeads one.1.model).any fun a => a.reference.any fun n =>
        n != "Delivery" && !(one.1.extras.map (·.name)).contains n && !one.1.dependsOn.contains n)
      (by decide +kernel)
  obtain ⟨a, ha, hn⟩ := List.any_eq_true.mp hspelled
  obtain ⟨n, hn, hnot⟩ := (Option.any_eq_true _ _).mp hn
  refine ⟨file, warnings, hoisted, a, n, h, ⟨a, ha, .refl a⟩, hn, ?_⟩
  simpa [ModelFile.Accounts, and_assoc] using hnot

end Run

end KclModels
