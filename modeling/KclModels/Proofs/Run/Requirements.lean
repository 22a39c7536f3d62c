import KclModels.Proofs.Build.Requiring
import KclModels.Proofs.Build.SharingOut
import KclModels.Proofs.Run.Translation
import KclModels.Proofs.Run.Transparency
import KclModels.Text.AsciiTable

/-!
# What a file asks for

The properties of a definition and of the schemas beside it are asked for as the schema in the
document says that declares them: a property has to be present if it is listed there, or if nobody can
set it and it has a value. What the file does with the model of a definition changes nothing in this;
it leaves out properties of branches, and puts others in place of branches that are references.

Two things are lost on the way. All properties of an object are asked for if building took it to be in
a tuple. That it does for the places of a tuple without a name and from there for whatever is taken
out below, though not for the places of a tuple with a name. And of an inline object a reference is
left, so that it does not count whether the object has a value.
-/

namespace KclModels

open Build

variable {all : Bool} {c d x : Schema} {m m' : Model}

/-- What the model has of the schema is asked for as the schema says. -/
structure Model.Asks (all : Bool) (c : Schema) (m : Model) : Prop where
  own : c.allOf = [] → m.AsksFor all c
  branches : c.Unlifted → c.items = none → m.BranchesAskFor all c

theorem Model.Alike.required (h : m.Alike m') : m'.required = m.required :=
  (congrArg ModelFacts.required h.outline).symm

theorem Model.AsksFor.alike (h : m.AsksFor all c) (halike : m.Alike m') : m'.AsksFor all c := by
  obtain ⟨own, places, hperm, hown, hplaces⟩ := h
  obtain ⟨l, hpairs, hperm'⟩ :=
    List.perm_comp_forall₂ hperm.symm (halike.forall₂_row .properties)
  have hsplit := List.forall₂_take own.length hpairs
  have hrest := List.forall₂_drop own.length hpairs
  rw [List.take_left' rfl] at hsplit
  rw [List.drop_left' rfl] at hrest
  refine ⟨l.take own.length, l.drop own.length, ?_, ?_, fun hnone => ?_⟩
  · rw [List.take_append_drop]
    exact hperm'.symm
  · exact forall₂_comp hown hsplit fun e p p' _ _ hp hp' => hp.congr hp'.name.symm hp'.required
  · rw [hplaces hnone] at hrest
    exact List.forall₂_nil_left_iff.mp hrest

theorem Model.AsksForSome.alike (h : m.AsksForSome all c) (halike : m.Alike m') :
    m'.AsksForSome all c := by
  intro p' hp'
  obtain ⟨p, hp, hsame⟩ := halike.exists_row (r := .properties) hp'
  obtain ⟨e, he, hasked⟩ := h p hp
  exact ⟨e, he, hasked.congr hsame.name.symm hsame.required⟩

theorem Model.BranchesAskFor.alike (h : m.BranchesAskFor all c) (halike : m.Alike m') :
    m'.BranchesAskFor all c := by
  intro i b' hb' hnone
  obtain ⟨b, hb, hsame⟩ := forall₂_getElem? (halike.forall₂_row .branches).flip hb'
  have hsame : b.Alike b' := hsame
  have hnone' : b.reference = none := by
    change b.outline.reference = none
    rw [hsame.outline]
    exact hnone
  obtain ⟨s, hs, hasks⟩ := h i b hb hnone'
  exact ⟨s, hs, fun hall hplaceless => (hasks hall hplaceless).alike hsame⟩

theorem Model.Asks.alike (h : m.Asks all c) (halike : m.Alike m') : m'.Asks all c where
  own hall := (h.own hall).alike halike
  branches hlift hitems := (h.branches hlift hitems).alike halike

theorem Model.Asks.congr (h : m.Asks all c) (hproperties : m'.properties = m.properties)
    (hallOf : m'.allOf = m.allOf) : m'.Asks all c where
  own hall := by
    obtain ⟨own, places, hperm, hrest⟩ := h.own hall
    exact ⟨own, places, hproperties ▸ hperm, hrest⟩
  branches hlift hitems := by
    intro i b' hb'
    rw [hallOf] at hb'
    exact h.branches hlift hitems i b' hb'

section

variable {tr : Text.Transliteration}

/-- **What is built of a definition asks for what its schema says.** -/
theorem Frame.Builds.asks {setting : Setting} {f f' : Frame} {s s' : Session}
    (h : f.Builds setting s f' s') (hf : f.Fresh) (hnamed : f.named = true)
    (href : f.schema.reference = none) : f'.model.Asks f.tuple f.schema where
  own hall := h.asksFor hnamed href hall (by rw [hf.model])
  branches hlift hitems := h.branchesAskFor hnamed href hlift hitems (by rw [hf.model])

namespace Build

variable {setting : Setting} {s s' : Session} {f : Frame} {name : String}

/-- Bases that are put in place of branches are references. -/
theorem expandBranches_inline {container : String} {branches : List Schema} :
    ∀ {index : Nat} {allOf : List Model} {s s' : Session} {result : List Model × List String},
    (expandBranches setting container index allOf branches).Gives s result s' →
    ∀ (i : Nat) b, result.1[i]? = some b → b.reference = none → allOf[i]? = some b := by
  induction branches with
  | nil =>
    intro index allOf s s' result h i b hb _
    simp only [expandBranches, gives_pure] at h
    rw [← h.1] at hb
    exact hb
  | cons branch rest ih =>
    intro index allOf s s' result h i b hb hnone
    rcases expandBranches_cons_cases h with ⟨-, h⟩ |
      ⟨reference, n, target, built, s₁, names, -, -, -, -, -, h, -⟩
    · exact ih h i b hb hnone
    · have hset := ih h i b hb hnone
      rw [List.getElem?_set] at hset
      split at hset
      · split at hset
        · obtain rfl := Option.some.inj hset
          -- what is put in place is a reference
          have href := (expanded_facts setting reference n built.model).1
          exact absurd (href.symm.trans hnone) (by simp)
        · exact absurd hset (by simp)
      · exact hset

/-- **Of inline branches a file has what is built of the definition**, or less. -/
theorem fileFrame_inline (hc : s.registry.get? name = some c)
    (h : (fileFrame setting name).Gives s f s') :
    ∃ built s₁, (Frame.root name c name).Builds setting s built s₁ ∧
      f.model.properties = built.model.properties ∧
      ∀ (i : Nat) b', f.model.allOf[i]? = some b' → b'.reference = none →
        ∃ b, built.model.allOf[i]? = some b ∧ b.reference = none ∧
          b'.properties.Sublist b.properties := by
  obtain ⟨d, built, s₁, s₂, m, hd, hbuilt, hexpand, hinline⟩ := fileFrame_cases h
  obtain rfl := Option.some.inj (hc.symm.trans hd)
  obtain ⟨m₀, hbase, -, -, -, -, hproperties, hallOf, -⟩ := asBase_facts setting name built
  rw [hbase] at hexpand hinline
  obtain ⟨-, hsame, -, hlen, -, hfills⟩ := inlined_facts hinline
  -- a subtype gets its bases, and loses what they have already
  have hexpanded : m.properties = built.model.properties ∧ ∀ (i : Nat) b', m.allOf[i]? = some b' →
      b'.reference = none → ∃ b, built.model.allOf[i]? = some b ∧ b.reference = none ∧
        b'.properties.Sublist b.properties := by
    rcases hexpand with ⟨-, rfl, -⟩ | ⟨subtype, -, he⟩
    · exact ⟨hproperties, fun i b' hb' hnone => ⟨b', hallOf ▸ hb', hnone, .refl _⟩⟩
    · obtain ⟨allOf, ofBases, hex, rfl⟩ := expandSubtype_cases he
      refine ⟨hproperties, fun i b' hb' hnone => ?_⟩
      obtain ⟨b, hb, hthinned⟩ : ∃ b, allOf[i]? = some b ∧ b.Thinned b' :=
        forall₂_getElem? (Model.dedupBranches_thinned ofBases allOf []).flip hb'
      have hnone' : b.reference = none := by
        rw [hthinned.same] at hnone
        exact hnone
      exact ⟨b, hallOf ▸ expandBranches_inline hex i b hb hnone', hnone', hthinned.ordered⟩
  refine ⟨built, s₁, Frame.builds_of_definition hbuilt, hsame.trans hexpanded.1, fun i b' hb' hnone => ?_⟩
  have hlt : i < m.allOf.length := hlen ▸ (List.getElem?_eq_some_iff.mp hb').1
  obtain ⟨b'', hb'', hfill⟩ := hfills i _ (List.getElem?_eq_getElem hlt)
  obtain rfl := Option.some.inj (hb'.symm.trans hb'')
  -- a branch that was filled is a reference
  cases hfill with
  | kept => exact hexpanded.2 i _ (List.getElem?_eq_getElem hlt) hnone
  | filled _ href => exact absurd (href.symm.trans hnone) (by simp)

/-- **The frame that a file is made of asks for what the schema of the definition says.** -/
theorem fileFrame_asks (hc : s.registry.get? name = some c) (href : c.reference = none)
    (h : (fileFrame setting name).Gives s f s') : f.model.Asks false c := by
  obtain ⟨built, s₁, hbuilt, hproperties, hbranches⟩ := fileFrame_inline hc h
  have hasks : built.model.Asks false c := hbuilt.asks ⟨rfl, rfl, rfl⟩ rfl href
  refine ⟨fun hall => ?_, fun hlift hitems i b' hb' hnone => ?_⟩
  · obtain ⟨own, places, hperm, hrest⟩ := hasks.own hall
    exact ⟨own, places, hproperties ▸ hperm, hrest⟩
  · obtain ⟨b, hb, hnone', hsublist⟩ := hbranches i b' hb' hnone
    obtain ⟨s, hs, hsome⟩ := hasks.branches hlift hitems i b hb hnone'
    exact ⟨s, hs, fun hall hplaceless p hp => hsome hall hplaceless p (hsublist.subset hp)⟩

end Build

end

namespace Run

open KclModels.Frame

variable {r : Run} {name : String} {taken : List String} {file : ModelFile} {s' : Session}

section

variable {tr : Text.Transliteration}

/--
**What a file asks for is what the document asks for.** Each property of a definition has to be
present if and only if the schema says so, in its list or by giving a value that nobody can set. The
same holds of each schema beside that of the definition and the schema in the document that it stems
from, but for those that stand in a tuple, all of whose properties may be asked for. It is said of
properties to which nothing lifts, and inline objects are asked for only by the list.
-/
theorem file_asks_for_listed (hget : r.definitions.lookup name = some c)
    (h : r.buildFile name taken = (.ok file, s')) :
    (c.reference = none → file.model.Asks false c) ∧ ∀ e ∈ file.extras, ∃ all d,
      s'.registry.get? e.name = some d ∧ r.definitions.Site all d ∧
      (d.reference = none → e.Asks all d) := by
  refine ⟨fun href => ?_, fun e he => ?_⟩
  · obtain ⟨f, s₁, hf, -, hfile⟩ := file_cases h
    have hstored : (r.session taken).registry.get? name = some c := hget
    have hdeclared : (Build.declare r.setting name s₁.registry f.model).Asks false c :=
      (fileFrame_asks hstored href hf).congr rfl rfl
    rw [hfile, (assemble_facts r.setting name s₁.registry f).1]
    exact hdeclared.alike (Imports.collectRendered_alike _ _ _)
  · obtain ⟨m, halike, g, g', s₂, s₃, -, -, hfresh, hnamed, -, hstored, hsite, hbuilds, hcopies⟩ :=
      extra_origin (Definitions.sites r.definitions) (fun _ _ => Definitions.site_of_lookup) h he
    refine ⟨g.tuple, g.schema, hstored, hsite.here, fun href => ?_⟩
    exact ((hbuilds.asks hfresh hnamed href).congr hcopies.properties hcopies.allOf).alike halike

end

/-- A ticket is for a venue, and its series is given. -/
def ticket : Schema :=
  { types := ["object"], required := ["code"]
    properties := [
      ("code", .typed "string"), ("note", .typed "string"),
      ("series", { types := ["string"], readOnly := true, defaultValue := some (.str "A") }),
      ("venue", { types := ["object"], required := ["city"], properties := [
        ("city", .typed "string"), ("hall", .typed "string")] })] }

def tickets : Run := ofDefinitions [("Ticket", ticket)]

theorem tickets_ask_for_listed : tickets.definitions.lookup "Ticket" = some ticket ∧
    ∃ file s', tickets.buildFile "Ticket" [] = (.ok file, s') ∧
      file.model.properties.map (fun p => (p.name, p.required)) =
        [("code", true), ("note", false), ("series", true), ("venue", false)] ∧
      (ticket.reference = none → file.model.Asks false ticket) ∧ ∀ e ∈ file.extras, ∃ all d,
        s'.registry.get? e.name = some d ∧ tickets.definitions.Site all d ∧
        (d.reference = none → e.Asks all d) := by
  obtain ⟨file, s', h, hasked⟩ := exists_built_of_any tickets "Ticket" []
    (p := fun file _ => file.model.properties.map (fun p => (p.name, p.required)) ==
      [("code", true), ("note", false), ("series", true), ("venue", false)]) (by decide +kernel)
  exact ⟨rfl, file, s', h, beq_iff_eq.mp hasked, file_asks_for_listed rfl h⟩

/-- Whoever has a seat may know its number. -/
def seat : Schema := { types := ["object"], properties := [("number", .typed "string")] }

/-- The light of a row is given. -/
def light : Schema :=
  { types := ["object"], readOnly := true, defaultValue := some (.obj [("color", .str "red")])
    properties := [("color", .typed "string")] }

/-- A row has a pair of seats, and a light. -/
def row : Schema :=
  { types := ["object"], properties := [
      ("pair", { types := ["array"], items := some (.tuple [seat, seat]) }), ("light", light)] }

def rows : Run := ofDefinitions [("Row", row)]

/--
The number of a seat has to be present because the seat stands in a tuple, though the seat does not
list it. The light of a row need not be, though nobody can set it and it has a value.
-/
theorem rows_ask_otherwise : rows.definitions.Canonical ∧
    rows.definitions.lookup "Row" = some row ∧ ("light", light) ∈ row.properties ∧
    light.isPreset = true ∧ ∃ file s', rows.buildFile "Row" [] = (.ok file, s') ∧
      (∃ p ∈ file.model.properties, p.name = "light" ∧ p.required = false) ∧
      ∃ e ∈ file.extras, ∃ d number, s'.registry.get? e.name = some d ∧ d.allOf = [] ∧
        ("number", number) ∈ d.properties ∧ "number" ∉ d.required ∧ number.isPreset = false ∧
        ∃ p ∈ e.properties, p.name = "number" ∧ p.required = true := by
  obtain ⟨file, s', h, hasked⟩ := exists_built_of_any rows "Row" []
    (p := fun file s' =>
      (file.model.properties.any fun p => p.name == "light" && !p.required) &&
      file.extras.any fun e => (s'.registry.get? e.name).any fun d =>
        d.allOf.isEmpty && !d.required.contains "number" &&
        (d.properties.any fun x => x.1 == "number" && !x.2.isPreset) &&
        e.properties.any fun p => p.name == "number" && p.required) (by decide +kernel)
  simp only [Bool.and_eq_true, List.any_eq_true, Option.any_eq_true, beq_iff_eq,
    Bool.not_eq_true', List.isEmpty_iff, List.contains_eq_mem, decide_eq_false_iff_not] at hasked
  obtain ⟨hlight, e, he, d, hd, ⟨⟨hall, hlisted⟩, ⟨_, number⟩, hnumber, rfl, hpreset⟩, hp⟩ := hasked
  exact ⟨Definitions.canonical_of_check (by decide +kernel), rfl, by simp [row], rfl, file, s', h,
    hlight, e, he, d, number, hd, hall, hnumber, hlisted, hpreset, hp⟩

end Run

end KclModels
