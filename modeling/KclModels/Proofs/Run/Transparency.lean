import Mathlib.Data.List.Perm.Basic
import KclModels.Proofs.Build.Depicting
import KclModels.Proofs.Build.Origins
import KclModels.Proofs.Run.Accounted
import KclModels.Proofs.Run.Composition
import KclModels.Text.AsciiTable

/-!
# Definitions made on the way are in the file

A schema that gets a name on the way is built once, and its model is kept under that name until the
file is put together. The frames account for every definition that was made below them (`made` of
`Frame.Advances`), so none is lost; and only what was made is ever taken out (`TakenOut.hoisted`), so
none is invented. The registry never gives out a name twice, and the models are kept sorted by name,
so the two lists agree up to their order.

The one place where something is built and not kept are the bases that a subtype puts in place of its
branches; a subtype is therefore left out.
-/

namespace KclModels.Run

variable {r : Run} {name : String} {taken hoisted : List String} {file : ModelFile}
variable {warnings : List Warning}

/-- The frame that a file was made of. -/
def MadeOf [Text.Transliteration] (r : Run) (name : String) (taken : List String) (file : ModelFile)
    (f : Frame) : Prop :=
  ∃ s', (Build.fileFrame r.setting name).Gives (r.session taken) f s' ∧
    file = (Build.assemble r.setting name s'.registry f).1

section

variable {tr : Text.Transliteration}

/-- In the frame of a file exactly the definitions are taken out that were made for it. -/
theorem keys_perm_hoisted {f : Frame} {s' : Session} (hc : r.definitions.Canonical)
    (hsub : r.polymorphism.isSubtype (Reference.toDefinition name) = false)
    (hf : (Build.fileFrame r.setting name).Gives (r.session taken) f s') :
    (Assoc.keys f.extras).Perm s'.registry.hoisted ∧ s'.registry.hoisted.Nodup ∧
      f.extras.map (·.2.name) = Assoc.keys f.extras := by
  obtain ⟨c, -, -, -, -, hget, -⟩ := Build.fileFrame_cases hf
  obtain ⟨hgrows, hlinked, hmade⟩ := fileFrame_linked hget
    (hc.known Definitions.bare_unasked hget)
    (fun _ hn => hc.stored Definitions.bare_unasked hn) hf
  have hnodup : s'.registry.hoisted.Nodup := by
    refine (hgrows.distinct ⟨?_, fun n hn => ?_⟩).1
    · exact List.nodup_nil
    · exact absurd hn List.not_mem_nil
  have hkept : ∀ n ∈ s'.registry.hoisted, n ∈ Assoc.keys f.extras := by
    intro n hn
    rcases hgrows.made n hn with hn | ⟨hfree, d, hd⟩
    · exact absurd hn List.not_mem_nil
    · -- a name that was free had no definition before
      rcases hmade hsub n d hd with hd | hn
      · rw [Registry.get?_eq_none_of_free hfree] at hd
        exact absurd hd (by simp)
      · exact hn
  have hmadeOnly : ∀ n ∈ Assoc.keys f.extras, n ∈ s'.registry.hoisted := by
    intro n hn
    obtain ⟨e, he, rfl⟩ := List.mem_map.mp hn
    exact (hlinked.extras e.1 e.2 he).hoisted
  refine ⟨?_, hnodup, hlinked.extras_names⟩
  exact (List.perm_ext_iff_of_nodup hlinked.sorted.nodup hnodup).mpr
    fun n => ⟨hmadeOnly n, hkept n⟩

/--
**The schemas of a file beside its definition are those that were made for it**, each once, and each
has the name that it was made under.
-/
theorem extras_are_hoisted (hc : r.definitions.Canonical)
    (hsub : r.polymorphism.isSubtype (Reference.toDefinition name) = false)
    (h : r.generateReserving name taken = .ok (file, warnings, hoisted)) :
    (file.extras.map (·.name)).Perm hoisted ∧ hoisted.Nodup ∧
      ∃ f, r.MadeOf name taken file f ∧ file.extras.map (·.name) = Assoc.keys f.extras ∧
        ∀ e ∈ f.extras, e.2.name = e.1 := by
  obtain ⟨s', hbuild, rfl⟩ := generateReserving_ok h
  obtain ⟨f, s₁, hf, hreg, hfile⟩ := Build.file_cases hbuild
  obtain ⟨hperm, hnodup, hnames⟩ := keys_perm_hoisted hc hsub hf
  have hkeys : file.extras.map (·.name) = Assoc.keys f.extras := by
    rw [hfile, Build.assemble_extras_names, hnames]
  rw [hreg, hkeys]
  refine ⟨hperm, hnodup, f, ⟨s₁, hf, hfile⟩, rfl, ?_⟩
  exact List.map_inj_left.mp hnames

end

theorem orders_extras : orders.definitions.Canonical ∧
    orders.polymorphism.isSubtype (Reference.toDefinition "Order") = false ∧
    ∃ file warnings hoisted, orders.generateReserving "Order" [] = .ok (file, warnings, hoisted) ∧
      hoisted = ["OrderOwner"] ∧ (file.extras.map (·.name)).Perm hoisted := by
  have hc : orders.definitions.Canonical := Definitions.canonical_of_check (by decide +kernel)
  have hsub : orders.polymorphism.isSubtype (Reference.toDefinition "Order") = false := by
    decide +kernel
  obtain ⟨⟨file, warnings, hoisted⟩, h, hmade⟩ :=
    exists_ok_of_any (e := orders.generateReserving "Order" [])
      (p := fun one => one.2.2 == ["OrderOwner"]) (by decide +kernel)
  exact ⟨hc, hsub, file, warnings, hoisted, h, by simpa using hmade,
    (extras_are_hoisted hc hsub h).1⟩

end KclModels.Run

/-!
## Schemas that are taken out read as definitions

A composition that is a property is taken out into a schema of its own. That schema reads as the file
of a definition with the same composition would, if the document says what it declares and what it
inherits from. The passes that a file adds, to declare what branches refer to and to put bases in
place of them, are not made for the schemas beside that of the definition; where they matter the two
differ.
-/

namespace KclModels

variable {m m' : Model}

/-- The schemas of two models declare attributes with the same names and inherit from the same. -/
structure Model.ReadsAs (m m' : Model) : Prop where
  inherits : m.inherits? = m'.inherits?
  attributes : ∀ x, x ∈ Frame.names (Kcl.attributes m m.parentBranch) ↔
    x ∈ Frame.names (Kcl.attributes m' m'.parentBranch)

theorem Model.inherits?_alike (h : m.Alike m') : m.inherits? = m'.inherits? := by
  have href : ∀ p p' : Model, p.Alike p' → p.reference = p'.reference := by
    intro p p' hp
    have hout := congrArg ModelFacts.reference hp.outline
    exact hout
  have hrow : m.allOf.map (·.reference) = m'.allOf.map (·.reference) :=
    h.map_row .branches (·.reference) href
  rw [Model.inherits?, Model.inherits?, h.parentBranch]
  cases m'.parentBranch with
  | none => rfl
  | some i =>
    have hi := congrArg (fun l : List (Option String) => (l[i]?).bind id) hrow
    simpa [List.getElem?_map, Option.bind_map, Function.comp_def] using hi

/-- Only a tuple declares an attribute beside those for its properties. -/
theorem attributes_of_not_tuple (h : m.type.tuple = false) (parent : Option Nat) :
    Kcl.attributes m parent = Kcl.ownAttributes m parent := by
  rw [Kcl.attributes, Kcl.restAttribute?, h]
  exact List.append_nil _

theorem names_attributes_alike (h : m.Alike m') (htuple : m.type.tuple = false) :
    Frame.names (Kcl.attributes m' m'.parentBranch) =
      Frame.names (Kcl.ownAttributes m m.parentBranch) := by
  have htuple' : m'.type.tuple = false :=
    (congrArg (fun facts : ModelFacts => facts.type.tuple) h.outline).symm.trans htuple
  rw [attributes_of_not_tuple htuple', Frame.names, ← Kcl.names_ownAttributes h]
  rfl

namespace Run

open Build KclModels.Frame

variable {r : Run} {owner top name n : String} {taken taken' : List String} {c : Schema}
variable {file fileTop : ModelFile} {s' s'' : Session} {e : Model}

section

variable {tr : Text.Transliteration}

/-- The models in a file but the first were built of definitions that were made. -/
theorem extra_origin {K : Bool → Schema → Prop} (hsites : Schema.Sites K)
    (hknown : ∀ n c, r.definitions.lookup n = some c → K false c)
    (h : r.buildFile owner taken = (.ok file, s')) (he : e ∈ file.extras) :
    ∃ m, m.Alike e ∧ Origin r.setting K (r.session taken).registry s'.registry e.name m := by
  obtain ⟨f, s₁, hf, hreg, hfile⟩ := Build.file_cases h
  rw [hfile] at he
  obtain ⟨n, m', i, hmem, rfl⟩ := Build.mem_assemble_extras he
  have halike := Imports.collectRendered_alike (r.setting.options.packageOf owner) m' i
  have hstored : ∀ n c, (r.session taken).registry.get? n = some c → K false c := hknown
  obtain ⟨-, -, -, -, -, -, hstocked⟩ := fileFrame_stocked hsites hstored hf
  obtain ⟨g, g', s₂, s₃, hstart, hend, hfresh, hnamed, hname, hget, hsite, hbuilds, hcopies⟩ :=
    hstocked.extras n m' hmem
  have hbuilt := hbuilds.built hfresh
  have hnames :=
    halike.name.symm.trans (hcopies.name.trans ((hbuilt.titled.1.trans hbuilt.carries.name).trans hname))
  rw [hreg, hnames]
  exact ⟨m', halike, g, g', s₂, s₃, hstart, hend, hfresh, hnamed, hname, hget, hsite, hbuilds,
    hcopies⟩

/--
**A composition that is taken out reads as a definition with the same schema would**, if that is no
subtype and if the document says what it declares and what it inherits from: the branches of the
composition are objects with no more than properties, or references, of which at most one ends at an
object that declares something.
-/
theorem taken_out_reads_as_definition (hc : r.definitions.Canonical)
    (hget : r.definitions.lookup top = some c) (hne : c.allOf ≠ [])
    (hsettles : r.definitions.Settles c)
    (hsub : r.polymorphism.isSubtype (Reference.toDefinition top) = false)
    (h : r.buildFile owner taken = (.ok file, s')) (he : e ∈ file.extras)
    (hstored : s'.registry.get? e.name = some c)
    (htop : r.buildFile top taken' = (.ok fileTop, s'')) : e.ReadsAs fileTop.model := by
  have hknown := branches_known hc hget
  obtain ⟨m, halike, g, g', s₂, s₃, hstart, -, hfresh, hnamed, -, hget', -, hbuilds, hcopies⟩ :=
    extra_origin Schema.sites_true (fun _ _ _ => trivial) h he
  obtain rfl := Option.some.inj (hstored.symm.trans hget')
  have hholds := (session_holds taken hc).mono hstart
  obtain ⟨htuple, hamounts⟩ := hbuilds.amounts hfresh hnamed hholds hsettles hknown
  have hm := hamounts.congr hcopies.properties hcopies.allOf
  rw [← hcopies.type hne] at htuple
  obtain ⟨f, s₁, hf, -, hfile⟩ := Build.file_cases htop
  obtain ⟨htuple', hamounts'⟩ := fileFrame_amounts (session_holds taken' hc) hget hsettles hknown hsub hf
  -- but for the name that it is declared under, the model of the file is that of its frame
  have halike' : (Build.declare r.setting top s₁.registry f.model).Alike fileTop.model := by
    rw [hfile]
    exact Imports.collectRendered_alike (r.setting.options.packageOf top)
      (Build.declare r.setting top s₁.registry f.model) {}
  obtain ⟨hinherits, hattributes⟩ := hm.agree hamounts' hholds (session_holds taken' hc) hsettles hknown
  refine ⟨?_, fun x => ?_⟩
  · rw [← Model.inherits?_alike halike, hinherits, ← Model.inherits?_alike halike']
    rfl
  · rw [names_attributes_alike halike htuple, names_attributes_alike halike' htuple']
    exact hattributes x

/-! #### Compositions that are properties -/

/-- A cover is composed of a label and of a color. -/
def cover : Schema :=
  { types := ["object"], allOf := [.referenceTo "Label",
    { types := ["object"], properties := [("color", .typed "string")] }] }

/-- An envelope has a cover of its own. -/
def envelope : Schema := { types := ["object"], properties := [("front", cover)] }

def envelopes : Run := ofDefinitions [
  ("Label", { types := ["object"], properties := [("text", .typed "string")] }), ("Cover", cover),
  ("Envelope", envelope)]

/-- A composition that is a property of a definition is taken out into a schema of its file. -/
theorem exists_extra_of_property {d : Schema} {p : String} (hc : r.definitions.Canonical)
    (hget : r.definitions.lookup owner = some d)
    (hsub : r.polymorphism.isSubtype (Reference.toDefinition owner) = false)
    (h : r.buildFile owner taken = (.ok file, s')) (hnone : d.reference = none)
    (hbranches : d.allOf = []) (hp : (p, c) ∈ d.properties) (href : c.reference = none)
    (hobject : c.saysObject = true) (hall : c.allOf ≠ []) :
    ∃ e ∈ file.extras, s'.registry.get? e.name = some c := by
  obtain ⟨f, s₁, hf, hreg, hfile⟩ := Build.file_cases h
  obtain ⟨n, hn, hstored⟩ :=
    fileFrame_makes hf ((session_holds taken hc).keeps _ _ hget) hnone hbranches hp href hobject hall
  obtain ⟨hperm, -, hnames⟩ := keys_perm_hoisted hc hsub hf
  have hmem : n ∈ file.extras.map (·.name) := by
    rw [hfile, Build.assemble_extras_names, hnames]
    exact hperm.mem_iff.mpr hn
  obtain ⟨e, he, rfl⟩ := List.mem_map.mp hmem
  exact ⟨e, he, hreg ▸ hstored⟩

end

/-- A cover that is the front of an envelope gets its name from both. -/
example : (envelopes.buildFile "Envelope" []).1.toOption.map (·.extras.map (·.name)) =
    some ["EnvelopeFront"] := by decide +kernel

theorem envelopes_cover_read : envelopes.definitions.Canonical ∧
    ∃ file s' e fileTop s'', envelopes.definitions.lookup "Cover" = some cover ∧
      cover.allOf ≠ [] ∧ envelopes.definitions.Settles cover ∧
      envelopes.polymorphism.isSubtype (Reference.toDefinition "Cover") = false ∧
      envelopes.buildFile "Envelope" [] = (.ok file, s') ∧ e ∈ file.extras ∧
      s'.registry.get? e.name = some cover ∧
      envelopes.buildFile "Cover" [] = (.ok fileTop, s'') ∧ e.ReadsAs fileTop.model := by
  have hc : envelopes.definitions.Canonical := Definitions.canonical_of_check (by decide)
  obtain ⟨file, s', h, -⟩ := exists_built_of_any envelopes "Envelope" []
    (p := fun _ _ => true) (by decide +kernel)
  obtain ⟨fileTop, s'', htop, -⟩ := exists_built_of_any envelopes "Cover" []
    (p := fun _ _ => true) (by decide +kernel)
  have hget : envelopes.definitions.lookup "Envelope" = some envelope := rfl
  obtain ⟨e, he, hstored⟩ := exists_extra_of_property hc hget (by decide) h rfl rfl
    (p := "front") (c := cover) List.mem_cons_self rfl rfl (by decide)
  have hsettles : envelopes.definitions.Settles cover := by
    refine ⟨⟨rfl, rfl, rfl, fun b hb => ?_⟩, fun b hb hnone => ?_, ?_⟩
    · rcases List.mem_cons.mp hb with rfl | hb
      · exact .solitary (Schema.solitary_referenceTo _)
      · obtain rfl := List.mem_singleton.mp hb
        exact .object rfl rfl rfl
    · rcases List.mem_cons.mp hb with rfl | hb
      · exact absurd hnone (by simp [Schema.referenceTo])
      · obtain rfl := List.mem_singleton.mp hb
        exact ⟨rfl, rfl⟩
    · -- the first branch is the one reference
      have hfirst : ∀ (i : Nat) b, cover.allOf[i]? = some b → b.reference.isSome = true → i = 0 := by
        intro i b hb href
        match i, hb with
        | 0, _ => rfl
        | 1, hb =>
          obtain rfl := Option.some.inj hb
          exact absurd href (by decide)
      intro i j b b' d d' hb hb' href href' _ _ _ _
      rw [hfirst i b hb href, hfirst j b' hb' href']
  have hsub : envelopes.polymorphism.isSubtype (Reference.toDefinition "Cover") = false := by
    decide
  exact ⟨hc, file, s', e, fileTop, s'', rfl, by decide, hsettles, hsub, h, he, hstored, htop,
    taken_out_reads_as_definition hc rfl (by decide) hsettles hsub h he hstored htop⟩

/-- A wrapping is composed of a label and of a ribbon. -/
def wrapping : Schema :=
  { types := ["object"], allOf := [.referenceTo "Label", .referenceTo "Ribbon"] }

/-- A present has a wrapping of its own. -/
def present : Schema := { types := ["object"], properties := [("outside", wrapping)] }

def presents : Run := ofDefinitions [
  ("Label", { types := ["object"], properties := [("text", .typed "string")] }),
  ("Ribbon", { types := ["object"], properties := [("color", .typed "string")] }),
  ("Wrapping", wrapping), ("Present", present)]

/-- A wrapping that is taken out lacks the color that the definition declares. -/
theorem presents_color_lost : presents.definitions.Canonical ∧
    ∃ file s' e fileTop s'', presents.definitions.lookup "Wrapping" = some wrapping ∧
      wrapping.allOf ≠ [] ∧ presents.buildFile "Present" [] = (.ok file, s') ∧ e ∈ file.extras ∧
      s'.registry.get? e.name = some wrapping ∧
      presents.buildFile "Wrapping" [] = (.ok fileTop, s'') ∧ ¬ e.ReadsAs fileTop.model := by
  have hc : presents.definitions.Canonical := Definitions.canonical_of_check (by decide)
  obtain ⟨file, s', h, hlacks⟩ := exists_built_of_any presents "Present" []
    (p := fun file _ => file.extras.all fun e =>
      !(names (Kcl.attributes e e.parentBranch)).contains "color") (by decide +kernel)
  obtain ⟨fileTop, s'', htop, hhas⟩ := exists_built_of_any presents "Wrapping" []
    (p := fun file _ =>
      (names (Kcl.attributes file.model file.model.parentBranch)).contains "color")
    (by decide +kernel)
  have hget : presents.definitions.lookup "Present" = some present := rfl
  obtain ⟨e, he, hstored⟩ := exists_extra_of_property hc hget (by decide) h rfl rfl
    (p := "outside") (c := wrapping) List.mem_cons_self rfl rfl (by decide)
  refine ⟨hc, file, s', e, fileTop, s'', rfl, by decide, h, he, hstored, htop, fun hreads => ?_⟩
  have hcolor := (hreads.attributes "color").mpr (by simpa using hhas)
  have hnone := List.all_eq_true.mp hlacks e he
  simp only [Bool.not_eq_true', List.contains_eq_mem, decide_eq_false_iff_not] at hnone
  exact hnone hcolor

end Run

end KclModels
