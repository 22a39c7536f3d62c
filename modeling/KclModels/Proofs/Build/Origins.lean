import KclModels.Proofs.Build.FileCases
import KclModels.Proofs.Build.Outline
import KclModels.Proofs.Build.Sites

/-!
# Where models that were taken out come from

A model that a frame took out is what was built of the frame of a definition that was made, for the
schema that is stored under its name. Each step of building takes over what was taken out below it,
and where it makes a definition it adds what was built of that; so this holds of every frame that is
built, and of the frames of files. The schemas of the frames that are made on the way keep a property
`K` of sites all along.
-/

namespace KclModels.Frame

open Build

variable {tr : Text.Transliteration}
variable {setting : Setting} {K : Bool → Schema → Prop} {build : Frame → Build Frame}
variable {r₀ r r' : Registry}
variable {s s' s₁ s₂ : Session} {f f' g h made : Frame} {c : Schema} {base n : String} {m : Model}

/--
The model declares what was built of a definition that was made, and has its type as well, unless the
definition was made of a tuple.
-/
structure Copies (g : Frame) (m : Model) (c : Schema) : Prop where
  name : m.name = g.model.name
  properties : m.properties = g.model.properties
  allOf : m.allOf = g.model.allOf
  reference : m.reference = g.model.reference
  extraItems : m.additionalItems = g.model.additionalItems
  allowsItems : m.hasAdditionalItems = g.model.hasAdditionalItems
  type : c.allOf ≠ [] → m.type = g.model.type

/-- The model was built of the definition that is stored under its name, when more than `r₀` was known. -/
def Origin [Text.Transliteration] (setting : Setting) (K : Bool → Schema → Prop) (r₀ r : Registry)
    (n : String) (m : Model) : Prop :=
  ∃ (g g' : Frame) (s s' : Session), r₀.Grows s.registry ∧ s'.registry.Grows r ∧ g.Fresh ∧
    g.named = true ∧ g.name = n ∧ r.get? n = some g.schema ∧ K g.tuple g.schema ∧
    g.Builds setting s g' s' ∧ Copies g' m g.schema

theorem Origin.mono (h : Origin setting K r₀ r n m) (hr : r.Grows r') :
    Origin setting K r₀ r' n m := by
  obtain ⟨g, g', s, s', hstart, hend, hfresh, hnamed, hname, hget, hrest⟩ := h
  exact ⟨g, g', s, s', hstart, hend.trans hr, hfresh, hnamed, hname, hr.keeps _ _ hget, hrest⟩

/-- What is stored stands at sites. -/
structure Sited (K : Bool → Schema → Prop) (r₀ r : Registry) : Prop where
  grows : r₀.Grows r
  known : ∀ n c, r.get? n = some c → K false c

/-- All models that the frame took out have an origin, and its schema stands at a site. -/
structure Stocked [Text.Transliteration] (setting : Setting) (K : Bool → Schema → Prop)
    (r₀ r : Registry) (f : Frame) : Prop extends Sited K r₀ r where
  site : K f.tuple f.schema
  extras : ∀ n m, (n, m) ∈ f.extras → Origin setting K r₀ r n m

theorem Sited.hoist (h : Sited K r₀ r) (hc : K false c) : Sited K r₀ (r.hoist base c).2 where
  grows := h.grows.trans (Registry.hoist_grows r base c)
  known n d hd := by
    rw [Registry.get?_hoist] at hd
    split at hd
    · exact Option.some.inj hd ▸ hc
    · exact h.known n d hd

/-- What a frame took out has an origin later on, where what is stored is still sited. -/
theorem Stocked.mono (hf : Stocked setting K r₀ r f) (hr : r.Grows r') (hs : Sited K r₀ r') :
    Stocked setting K r₀ r' f :=
  ⟨hs, hf.site, fun n m hm => (hf.extras n m hm).mono hr⟩

theorem Stocked.of_extras (hf : Stocked setting K r₀ r f) (hsite : K f'.tuple f'.schema)
    (h : f'.extras = f.extras) : Stocked setting K r₀ r f' :=
  ⟨hf.toSited, hsite, fun n m hm => hf.extras n m (h ▸ hm)⟩

theorem Fresh.stocked (hf : f.Fresh) (hs : Sited K r₀ r) (hsite : K f.tuple f.schema) :
    Stocked setting K r₀ r f :=
  ⟨hs, hsite, fun n m hm => absurd hm (by simp [hf.extras])⟩

/-- A frame that takes over another has what both took out. -/
theorem Stocked.merge (hf : Stocked setting K r₀ r f) (hg : Stocked setting K r₀ r g)
    (hsite : K f'.tuple f'.schema) (h : f'.extras = Assoc.mergeSorted f.extras g.extras) :
    Stocked setting K r₀ r f' := by
  refine ⟨hf.toSited, hsite, fun n m hm => ?_⟩
  rw [h] at hm
  rcases Assoc.mem_mergeSorted hm with hm | hm
  · exact hf.extras n m hm
  · exact hg.extras n m hm

theorem Stocked.addExtra (hf : Stocked setting K r₀ r f) (hh : Stocked setting K r₀ r h)
    (horigin : Origin setting K r₀ r h.name h.model) : Stocked setting K r₀ r (f.addExtra h) := by
  refine ⟨hf.toSited, hf.site, fun n m hm => ?_⟩
  rcases Assoc.mem_putSorted hm with heq | hm
  · obtain ⟨rfl, rfl⟩ := Prod.mk.inj heq
    exact horigin
  · rcases Assoc.mem_mergeSorted hm with hm | hm
    · exact hf.extras n m hm
    · exact hh.extras n m hm

/-- A step keeps a frame stocked, and in its place. -/
def Stores [Text.Transliteration] (setting : Setting) (K : Bool → Schema → Prop) (r₀ : Registry)
    (s : Session) (f : Frame) (s' : Session) (f' : Frame) : Prop :=
  Stocked setting K r₀ s.registry f →
    s.registry.Grows s'.registry ∧ f'.tuple = f.tuple ∧ Stocked setting K r₀ s'.registry f'

/-- The way to build frames keeps them stocked. -/
def BuildsStocked [Text.Transliteration] (setting : Setting) (K : Bool → Schema → Prop)
    (r₀ : Registry) (build : Frame → Build Frame) : Prop :=
  BuildsBelow setting build ∧ ∀ g s g' s', (build g).Gives s g' s' → Stores setting K r₀ s g s' g'

theorem Stores.trans {s'' : Session} {f'' : Frame} (h : Stores setting K r₀ s f s' f')
    (h' : Stores setting K r₀ s' f' s'' f'') : Stores setting K r₀ s f s'' f'' := by
  intro hf
  obtain ⟨hgrows, htuple, hf'⟩ := h hf
  obtain ⟨hgrows', htuple', hf''⟩ := h' hf'
  exact ⟨hgrows.trans hgrows', htuple'.trans htuple, hf''⟩

/-- A change that is none for the site of a frame and for what it took out. -/
theorem stores_of_extras (hs : s'.registry = s.registry) (htuple : f'.tuple = f.tuple)
    (hschema : K f.tuple f.schema → K f.tuple f'.schema) (h : f'.extras = f.extras) :
    Stores setting K r₀ s f s' f' := by
  intro hf
  rw [hs]
  exact ⟨.refl _, htuple, hf.of_extras (htuple ▸ hschema hf.site) h⟩

theorem markExtra_stores (extra : Extra Schema) (declared : Bool) :
    Stores setting K r₀ s f s ((f.deny extra).markExtra declared) := by
  refine stores_of_extras rfl ?_ (fun hf => ?_) (markExtra_same _ declared).extras
  · unfold markExtra
    split <;> rfl
  · rw [(markExtra_same _ declared).schema]
    exact hf

theorem markDiscriminated_copies (h : Frame) (c : Schema) :
    (h.markDiscriminated c).name = h.name ∧ (h.markDiscriminated c).extras = h.extras ∧
      ∀ d, Copies h (h.markDiscriminated c).model d := by
  unfold markDiscriminated
  split <;> exact ⟨rfl, rfl, fun _ => ⟨rfl, rfl, rfl, rfl, rfl, rfl, fun _ => rfl⟩⟩

theorem made_parts (hm : (hoist f base c).Gives s made s₁) : made.tuple = false ∧ made.schema = c := by
  rw [gives_hoist] at hm
  rw [← hm.1]
  exact ⟨rfl, rfl⟩

section Steps

variable (hsites : Schema.Sites K) (hb : BuildsStocked setting K r₀ build)

include hb

/-- What is built of a frame in which nothing was built. -/
theorem stocked_below (hr : Sited K r₀ s.registry) (hg : g.Fresh) (hsite : K g.tuple g.schema)
    (hs : (build g).Gives s f' s') :
    s.registry.Grows s'.registry ∧ f'.tuple = g.tuple ∧ Stocked setting K r₀ s'.registry f' :=
  hb.2 g s f' s' hs (hg.stocked hr hsite)

/-- **A definition that is made has an origin once it is built.** -/
theorem stocked_made (hr : Sited K r₀ s.registry) (hc : K false c)
    (hm : (hoist f base c).Gives s made s₁) (hh : (build g).Gives s₁ h s₂)
    (hname : g.name = made.name) (hschema : g.schema = made.schema) (hnamed : g.named = made.named)
    (hg : g.Fresh) (hsite : K g.tuple c) :
    s.registry.Grows s₂.registry ∧ Stocked setting K r₀ s₂.registry h ∧
      ∀ m, Copies h m c → Origin setting K r₀ s₂.registry h.name m := by
  have hname' : h.name = g.name := ((hb.1 _ _ _ _ hh).built hg).carries.name
  have hschema' : g.schema = c := hschema.trans (made_parts hm).2
  obtain ⟨-, hstored, -⟩ := stored_of_hoist hb.1 hm hh hg hname
  rw [gives_hoist] at hm
  obtain ⟨rfl, rfl⟩ := hm
  have hsited : Sited K r₀ (s.registry.hoist (hoistBase f base) c).2 := hr.hoist hc
  obtain ⟨hgrows, -, hstocked⟩ := stocked_below hb hsited hg (hschema' ▸ hsite) hh
  refine ⟨(Registry.hoist_grows _ _ c).trans hgrows, hstocked, fun m hcopies => ?_⟩
  refine ⟨g, h, _, s₂, hsited.grows, .refl _, hg, hnamed, hname'.symm, ?_, hschema' ▸ hsite,
    hb.1 _ _ _ _ hh, hschema' ▸ hcopies⟩
  rw [hstored, hschema']

/-- A frame with a definition that was made for it, and what was built in its place. -/
theorem stores_again {hoisted place inner : Frame} (hc : K f.tuple f.schema → K false c)
    (hm : (hoist f base c).Gives s made s₁) (hh : (build made).Gives s₁ hoisted s₂)
    (hsite : K f.tuple f.schema → K f.tuple place.schema) (hi : (build place).Gives s₂ inner s')
    (htuple : place.tuple = f.tuple) (hplace : place.extras = f.extras) :
    Stores setting K r₀ s f s' (inner.addExtra hoisted) := by
  intro hf
  obtain ⟨hgrows, hstocked, horigin⟩ := stocked_made hb hf.toSited (hc hf.site) hm hh rfl rfl rfl
    (made_fresh hm) ((made_parts hm).1 ▸ hc hf.site)
  have hagain := (hf.mono hgrows hstocked.toSited).of_extras (htuple ▸ hsite hf.site) hplace
  obtain ⟨hgrows', htuple', hinner⟩ := hb.2 _ _ _ _ hi hagain
  refine ⟨hgrows.trans hgrows', htuple'.trans htuple, hinner.addExtra
    (hstocked.mono hgrows' hinner.toSited) ?_⟩
  exact (horigin _ ⟨rfl, rfl, rfl, rfl, rfl, rfl, fun _ => rfl⟩).mono hgrows'

/-- A frame that takes over what was built of a definition that was made and of its place. -/
theorem stores_taken {hoisted place inner : Frame} (hc : K f.tuple f.schema → K false c)
    (hm : (hoist f base c).Gives s made s₁) (hh : (build made).Gives s₁ hoisted s₂)
    (hplace : place.Fresh) (hsite : K place.tuple place.schema)
    (hi : (build place).Gives s₂ inner s') (htuple : f'.tuple = f.tuple)
    (hself : K f.tuple f.schema → K f.tuple f'.schema)
    (htakes : f'.extras = Assoc.mergeSorted f.extras (inner.addExtra hoisted).extras) :
    Stores setting K r₀ s f s' f' := by
  intro hf
  obtain ⟨hgrows, hstocked, horigin⟩ := stocked_made hb hf.toSited (hc hf.site) hm hh rfl rfl rfl
    (made_fresh hm) ((made_parts hm).1 ▸ hc hf.site)
  obtain ⟨hgrows', -, hinner⟩ := stocked_below hb hstocked.toSited hplace hsite hi
  have htaken := hinner.addExtra (hstocked.mono hgrows' hinner.toSited)
    ((horigin _ ⟨rfl, rfl, rfl, rfl, rfl, rfl, fun _ => rfl⟩).mono hgrows')
  have hbefore := hf.mono (hgrows.trans hgrows') hinner.toSited
  exact ⟨hgrows.trans hgrows', htuple, hbefore.merge htaken (htuple ▸ hself hf.site) htakes⟩

/-- A frame that takes over what was built below it. -/
theorem stores_child {child child' : Frame} (hchild : child.Fresh)
    (hsite : K f.tuple f.schema → K child.tuple child.schema) (hs : (build child).Gives s child' s')
    (htuple : f'.tuple = f.tuple) (hself : K f.tuple f.schema → K f.tuple f'.schema)
    (htakes : f'.extras = Assoc.mergeSorted f.extras child'.extras) :
    Stores setting K r₀ s f s' f' := by
  intro hf
  obtain ⟨hgrows, -, hstocked⟩ := stocked_below hb hf.toSited hchild (hsite hf.site) hs
  exact ⟨hgrows, htuple,
    (hf.mono hgrows hstocked.toSited).merge hstocked (htuple ▸ hself hf.site) htakes⟩

include hsites

/-! ## Compositions -/

theorem buildBranch_stores {index : Nat} {branch : Schema} {array : Bool} (hbranch : K f.tuple branch)
    (hs : (f.buildBranch setting build index branch).Gives s (f', array) s') :
    Stores setting K r₀ s f s' f' := by
  obtain ⟨t, -, ⟨-, base, made, s₁, h, s₂, g, hm, hh, hg, rfl⟩ | ⟨-, g, hg, rfl⟩⟩ :=
    buildBranch_cases hs
  · exact stores_taken hb (fun _ => hsites.loose hbranch) hm hh ⟨rfl, rfl, rfl⟩
      (hsites.bare rfl rfl) hg rfl (hsites.setBranch index h.name) rfl
  · refine stores_child hb ⟨rfl, rfl, rfl⟩ (fun _ => hbranch) hg rfl (fun hf => hf) ?_
    rw [← (pointMap_facts g).2.1]
    rfl

theorem buildBranches_stores {branches : List Schema} : ∀ {index : Nat} {arrays : List Bool}
    {f f' : Frame} {s s' : Session}, (∀ branch ∈ branches, K f.tuple branch) →
    (f.buildBranches setting build index branches).Gives s (f', arrays) s' →
    Stores setting K r₀ s f s' f' := by
  induction branches with
  | nil =>
    intro index arrays f f' s s' _ hs
    rw [buildBranches, gives_pure, Prod.mk.injEq] at hs
    obtain ⟨⟨rfl, -⟩, rfl⟩ := hs
    exact stores_of_extras rfl rfl (fun hf => hf) rfl
  | cons branch rest ih =>
    intro index arrays f f' s s' hbranches hs hf
    obtain ⟨f₁, array, s₁, arrays', h₁, h₂⟩ := buildBranches_cons_cases hs
    have hfirst := buildBranch_stores hsites hb (hbranches branch List.mem_cons_self) h₁
    refine hfirst.trans (ih (fun b hmem => ?_) h₂) hf
    rw [(hfirst hf).2.1]
    exact hbranches b (List.mem_cons_of_mem _ hmem)

theorem buildAllOf_stores (hs : (f.buildAllOf setting build).Gives s f' s') :
    Stores setting K r₀ s f s' f' := by
  rcases buildAllOf_cases hs with ⟨-, rfl, rfl⟩ | ⟨-, arrays, s₁, hbranches, hreg⟩
  · exact stores_of_extras rfl rfl (fun hf => hf) rfl
  · intro hf
    have hsite : ∀ branch ∈ f.schema.allOf, K f.tuple branch :=
      fun branch hmem => hsites.child hf.site (Schema.branch_mem_children hmem)
    exact (buildBranches_stores hsites hb hsite hbranches).trans
      (stores_of_extras hreg rfl (fun hf => hf) rfl) hf

/-! ## Additional properties -/

theorem buildMapLeaf_stores {parent level : Frame} {t : TypeInfo}
    (hs : (buildMapLeaf build parent level t).Gives s f' s') :
    Stores setting K r₀ s level s' f' := by
  rcases buildMapLeaf_cases hs with ⟨-, base, made, s₁, h, s₂, required, hm, hh, hg⟩ |
    ⟨-, required, hg⟩
  · intro hlevel
    have hloose := hsites.loose hlevel.site
    obtain ⟨hgrows, hstocked, horigin⟩ := stocked_made hb hlevel.toSited hloose hm hh rfl rfl rfl
      (made_fresh hm) ((made_parts hm).1 ▸ hloose)
    have hplace : Stocked setting K r₀ s₂.registry (level.referTo h.name) :=
      (hlevel.mono hgrows hstocked.toSited).of_extras (hsites.bare rfl rfl) rfl
    have htaken := hplace.addExtra hstocked (horigin _ ⟨rfl, rfl, rfl, rfl, rfl, rfl, fun _ => rfl⟩)
    have hrequire : Stocked setting K r₀ s₂.registry
        (((level.referTo h.name).addExtra h).require required) := htaken.of_extras htaken.site rfl
    obtain ⟨hgrows', htuple, hf'⟩ := hb.2 _ _ _ _ hg hrequire
    exact ⟨hgrows.trans hgrows', htuple, hf'⟩
  · intro hlevel
    have hplace : Stocked setting K r₀ s.registry (level.require required) :=
      hlevel.of_extras hlevel.site rfl
    obtain ⟨hgrows, htuple, hf'⟩ := hb.2 _ _ _ _ hg hplace
    exact ⟨hgrows, htuple, hf'⟩

theorem buildMapLevel_stores (v : Schema) : ∀ {parent f' : Frame} {s s' : Session},
    (buildMapLevel setting build parent v).Gives s f' s' →
    Stores setting K r₀ s (parent.mapValue v) s' f' := by
  induction v using Schema.value_induction with
  | step v ih =>
    intro parent f' s s' hs
    obtain ⟨t, -, ⟨next, child, s₁, hv, -, -, hchild, hjoin⟩ | ⟨-, hleaf⟩⟩ :=
      buildMapLevel_cases hs
    · intro hlevel
      have hbelow : Stocked setting K r₀ s.registry ((parent.mapValue v).mapValue next) :=
        hlevel.of_extras (hsites.child hlevel.site (Schema.value_mem_children hv)) rfl
      obtain ⟨hgrows, htuple, hstocked⟩ := ih next hv hchild hbelow
      obtain ⟨k, u, -, rfl, hreg⟩ := joinMapLevel_cases hjoin
      rw [hreg]
      have hschema : K (parent.mapValue v).tuple child.schema := htuple ▸ hstocked.site
      exact ⟨hgrows, rfl, (hlevel.mono hgrows hstocked.toSited).merge hstocked
        (hsites.setValue hlevel.site hv hschema) rfl⟩
    · exact buildMapLeaf_stores hsites hb hleaf

theorem buildAnyValues_stores {declared : Bool}
    (hs : (f.buildAnyValues build declared).Gives s f' s') :
    Stores setting K r₀ s f s' f' := by
  obtain ⟨g, hg, rfl⟩ := buildAnyValues_cases hs
  have hallow := allowAny_same f declared
  refine stores_child hb ⟨rfl, rfl, rfl⟩ (fun _ => hsites.bare rfl rfl) hg ?_ (fun hf => ?_) ?_
  · show (f.allowAny declared).tuple = _
    unfold allowAny
    split <;> rfl
  · show K f.tuple (f.allowAny declared).schema
    rw [hallow.schema]
    exact hf
  · show Assoc.mergeSorted (f.allowAny declared).extras g.extras = _
    rw [hallow.extras]

theorem buildMap_stores {value : Schema} (hv : f.schema.additionalProperties = some (.schema value))
    (hs : (f.buildMap setting build value).Gives s f' s') : Stores setting K r₀ s f s' f' := by
  obtain ⟨child, hchild, rfl⟩ := buildMap_cases hs
  intro hf
  have hlevel : Stocked setting K r₀ s.registry (f.mapValue value) :=
    Fresh.stocked ⟨rfl, rfl, rfl⟩ hf.toSited (hsites.child hf.site (Schema.value_mem_children hv))
  obtain ⟨hgrows, htuple, hstocked⟩ := buildMapLevel_stores hsites hb value hchild hlevel
  have hschema : K f.tuple child.schema := htuple ▸ hstocked.site
  exact ⟨hgrows, rfl, (hf.mono hgrows hstocked.toSited).merge hstocked
    (hsites.setValue hf.site hv hschema) rfl⟩

theorem buildExtraValues_stores {value : Schema}
    (hv : f.schema.additionalProperties = some (.schema value))
    (hs : (f.buildExtraValues setting build value).Gives s f' s') :
    Stores setting K r₀ s f s' f' := by
  have hsite : K f.tuple f.schema → K f.tuple value :=
    fun hf => hsites.child hf (Schema.value_mem_children hv)
  obtain ⟨t, -, ⟨-, base, made, s₁, h, s₂, g, required, hm, hh, hg, rfl⟩ |
    ⟨-, g, required, hg, rfl⟩⟩ := buildExtraValues_cases hs
  · exact stores_taken hb (fun hf => hsites.loose (hsite hf)) hm hh ⟨rfl, rfl, rfl⟩
      (hsites.bare rfl rfl) hg rfl
      (fun hf => hsites.setValue hf hv (hsites.bare rfl rfl)) rfl
  · exact stores_child hb ⟨rfl, rfl, rfl⟩ hsite hg rfl (fun hf => hf) rfl

theorem buildAdditionalProperties_stores
    (hs : (f.buildAdditionalProperties setting build).Gives s f' s') :
    Stores setting K r₀ s f s' f' := by
  -- to note what is known of the values leaves the schema as it is
  have hvalue : ∀ {value : Schema} (declared : Bool),
      f.schema.additionalProperties = some (.schema value) →
      ((f.deny (.schema value)).markExtra declared).schema.additionalProperties =
        some (.schema value) := by
    intro value declared hvalue
    rw [(markExtra_same _ declared).schema]
    exact hvalue
  rcases buildAdditionalProperties_cases hs with ⟨-, rfl, rfl⟩ | ⟨extra, hextra, ⟨-, rfl, rfl⟩ |
    ⟨rfl, hany⟩ | ⟨value, rfl, ⟨-, hmap⟩ | ⟨-, -, hhoist⟩ | ⟨-, -, hvalues⟩⟩⟩
  · exact stores_of_extras rfl rfl (fun hf => hf) rfl
  · exact stores_of_extras rfl rfl (fun hf => hf) rfl
  · exact (markExtra_stores (.flag true) f.model.type.complex).trans
      (buildAnyValues_stores hsites hb hany)
  · exact (markExtra_stores (.schema value) false).trans
      (buildMap_stores hsites hb (hvalue false hextra) hmap)
  · obtain ⟨base, made, s₁, h, s₂, g, hm, hh, hg, rfl⟩ := hoistExtended_cases hhoist
    exact (markExtra_stores (.schema value) true).trans
      (stores_again hb hsites.loose hm hh (fun _ => hsites.bare rfl rfl) hg rfl rfl)
  · exact (markExtra_stores (.schema value) true).trans
      (buildExtraValues_stores hsites hb (hvalue true hextra) hvalues)

/-! ## Properties -/

theorem buildProperty_stores {position : Nat} {name : String} (hc : K f.tuple c)
    (hs : (f.buildProperty setting build position name c).Gives s f' s') :
    Stores setting K r₀ s f s' f' := by
  obtain ⟨t, -, ⟨-, base, made, s₁, h, s₂, required, g, g', hm, hh, hg, hd, rfl⟩ |
    ⟨-, required, g, g', hg, hd, rfl⟩⟩ := buildProperty_cases hs
  · intro hf
    have hmade := made_fresh hm
    obtain ⟨hgrows, hstocked, horigin⟩ := stocked_made hb hf.toSited (hsites.loose hc) hm hh rfl rfl
      rfl ⟨hmade.1, hmade.2, hmade.3⟩ hc
    obtain ⟨hname, hextras, hcopies⟩ := markDiscriminated_copies h c
    -- the mark for a discriminated definition changes neither its name nor what it took out
    have hmarked : Stocked setting K r₀ s₂.registry (h.markDiscriminated c) := by
      refine hstocked.of_extras ?_ hextras
      unfold markDiscriminated
      split <;> exact hstocked.site
    have htaken := (hf.mono hgrows hstocked.toSited).addExtra hmarked
      (hname ▸ horigin _ (hcopies c))
    have hadd : Stores setting K r₀ s₂ (f.addExtra (h.markDiscriminated c)) s'
        ((f.addExtra (h.markDiscriminated c)).addProperty g' position) := by
      refine stores_child hb ⟨rfl, rfl, rfl⟩ (fun _ => hsites.bare rfl rfl) hg rfl (fun hf => hf) ?_
      rw [← (decorated_same hd).1.extras]
      rfl
    exact (hadd htaken).imp_left hgrows.trans
  · refine stores_child hb ⟨rfl, rfl, rfl⟩ (fun _ => hc) hg rfl (fun hf => hf) ?_
    rw [← (decorated_same hd).1.extras]
    rfl

theorem buildPropertyList_stores {properties : List (String × Schema)} : ∀ {position : Nat}
    {f f' : Frame} {s s' : Session}, (∀ e ∈ properties, K f.tuple e.2) →
    (f.buildPropertyList setting build position properties).Gives s f' s' →
    Stores setting K r₀ s f s' f' := by
  induction properties with
  | nil =>
    intro position f f' s s' _ hs
    rw [buildPropertyList, gives_pure] at hs
    obtain ⟨rfl, rfl⟩ := hs
    exact stores_of_extras rfl rfl (fun hf => hf) rfl
  | cons e rest ih =>
    intro position f f' s s' hproperties hs hf
    obtain ⟨f₁, s₁, h₁, h₂⟩ := buildPropertyList_cons_cases hs
    have hfirst := buildProperty_stores hsites hb (hproperties e List.mem_cons_self) h₁
    refine hfirst.trans (ih (fun e' hmem => ?_) h₂) hf
    rw [(hfirst hf).2.1]
    exact hproperties e' (List.mem_cons_of_mem _ hmem)

theorem buildProperties_stores (hs : (f.buildProperties setting build).Gives s f' s') :
    Stores setting K r₀ s f s' f' := by
  obtain ⟨f₁, hlist, rfl⟩ := buildProperties_cases hs
  intro hf
  have hsite : ∀ e ∈ f.schema.properties, K f.tuple e.2 :=
    fun e hmem => hsites.child hf.site (Schema.property_mem_children (n := e.1) hmem)
  exact (buildPropertyList_stores hsites hb hsite hlist).trans
    (stores_of_extras rfl rfl (fun hf => hf) rfl) hf

/-! ## Items -/

theorem buildArray_stores {item : Schema} (hitem : f.schema.items = some (.single item))
    (hs : (f.buildArray setting build item).Gives s f' s') : Stores setting K r₀ s f s' f' := by
  have hsite : K f.tuple f.schema → K f.tuple item :=
    fun hf => hsites.child hf (Schema.item_mem_children hitem)
  obtain ⟨t, -, ⟨-, base, made, s₁, h, s₂, g, hm, hh, hg, rfl⟩ | ⟨-, g, hg, rfl⟩⟩ :=
    buildArray_cases hs
  · exact stores_again hb (fun hf => hsites.loose (hsite hf)) hm hh
      (fun hf => hsites.setItem h.name hf hitem) hg rfl rfl
  · have hmark := markElements_same f item setting.polymorphism
    refine stores_child hb ⟨rfl, rfl, rfl⟩ hsite hg ?_ (fun hf => ?_) ?_
    · show (f.markElements item setting.polymorphism).tuple = _
      unfold markElements
      split <;> rfl
    · show K f.tuple (f.markElements item setting.polymorphism).schema
      rw [hmark.schema]
      exact hf
    · rw [← hmark.extras]
      rfl

theorem buildPlaces_stores {places : List Schema} (hplaces : ∀ c ∈ places, K true c) :
    ∀ {index : Nat} {f f' : Frame} {s s' : Session},
    (f.buildPlaces setting build index places).Gives s f' s' → Stores setting K r₀ s f s' f' := by
  induction places with
  | nil =>
    intro index f f' s s' hs
    rw [buildPlaces, gives_pure] at hs
    obtain ⟨rfl, rfl⟩ := hs
    exact stores_of_extras rfl rfl (fun hf => hf) rfl
  | cons c rest ih =>
    intro index f f' s s' hs
    obtain ⟨place, s₁, g, s₂, hp, hg, hrest⟩ := buildPlaces_cons_cases hs
    have hc := hplaces c List.mem_cons_self
    -- one place is enough: the others follow by the hypothesis
    suffices hplace : Stores setting K r₀ s f s₂ (f.addPlace g index) from
      hplace.trans (ih (fun d hd => hplaces d (List.mem_cons_of_mem _ hd)) hrest)
    rcases hoistPlace_cases hp with ⟨rfl, rfl, -⟩ |
      ⟨-, t, -, -, base, made, s₀, h, hm, hh, rfl⟩
    · exact stores_child hb ⟨rfl, rfl, rfl⟩ (fun _ => hc) hg rfl (fun hf => hf) rfl
    · intro hf
      have hloose := hsites.loose hc
      obtain ⟨hgrows, hstocked, horigin⟩ := stocked_made hb hf.toSited hloose hm hh rfl rfl rfl
        (made_fresh hm) ((made_parts hm).1 ▸ hloose)
      have hblank : Stocked setting K r₀ s₁.registry ((f.tuplePlace c index).referTo h.name) :=
        Fresh.stocked ⟨rfl, rfl, rfl⟩ hstocked.toSited (hsites.bare rfl rfl)
      have htaken := hblank.addExtra hstocked (horigin _ ⟨rfl, rfl, rfl, rfl, rfl, rfl, fun _ => rfl⟩)
      obtain ⟨hgrows', -, hg'⟩ := hb.2 _ _ _ _ hg htaken
      exact ⟨hgrows.trans hgrows', rfl,
        (hf.mono (hgrows.trans hgrows') hg'.toSited).merge hg' hf.site rfl⟩

theorem buildItems_stores (hs : (f.buildItems setting build).Gives s f' s') :
    Stores setting K r₀ s f s' f' := by
  rcases buildItems_cases hs with ⟨-, rfl, rfl⟩ | ⟨item, hitem, harray⟩ |
    ⟨places, hplaces, ⟨-, htuple⟩ | ⟨-, htuple⟩⟩
  · exact stores_of_extras rfl rfl (fun hf => hf) rfl
  · exact buildArray_stores hsites hb hitem harray
  · have hmarked : ∀ kclType, Stores setting K r₀ s f s (f.markTuple kclType) := fun kclType =>
      stores_of_extras rfl rfl (fun hf => hf) (markTuple_same f kclType).extras
    intro hf
    have hsite : ∀ c ∈ places, K true c := fun c hc => hsites.place hf.site hplaces hc
    exact (hmarked _).trans (buildPlaces_stores hsites hb hsite htuple) hf
  · obtain ⟨base, made, s₁, h, s₂, g, hm, hh, hg, rfl⟩ := hoistTuple_cases htuple
    intro hf
    have hmade := made_fresh hm
    have hrecord := hsites.record hf.site hplaces
    obtain ⟨hgrows, hstocked, horigin⟩ := stocked_made hb hf.toSited (hsites.loose hrecord) hm hh
      rfl rfl rfl ⟨hmade.1, hmade.2, hmade.3⟩ hrecord
    have hplace : Stocked setting K r₀ s₂.registry (f.referTo h.name).restart :=
      (hf.mono hgrows hstocked.toSited).of_extras (hsites.bare rfl rfl) rfl
    obtain ⟨hgrows', htuple', hinner⟩ := hb.2 _ _ _ _ hg hplace
    -- the type of a tuple differs from what was built, and it has no branches
    have hcopies : Copies h h.asTuple.model (tupleRecord places f.schema.additionalItems) :=
      ⟨rfl, rfl, rfl, rfl, rfl, rfl, fun hne => absurd rfl hne⟩
    refine ⟨hgrows.trans hgrows', htuple', hinner.addExtra ?_ ((horigin _ hcopies).mono hgrows')⟩
    exact (hstocked.mono hgrows' hinner.toSited).of_extras hstocked.site rfl

theorem buildAdditionalItems_stores (hs : (f.buildAdditionalItems setting build).Gives s f' s') :
    Stores setting K r₀ s f s' f' := by
  rcases buildAdditionalItems_cases hs with ⟨-, rfl, rfl⟩ |
    ⟨extra, hextra, ⟨-, rfl, rfl⟩ | ⟨-, -, hitems⟩⟩
  · exact stores_of_extras rfl rfl (fun hf => hf) rfl
  · exact stores_of_extras rfl rfl (fun hf => hf) rfl
  · -- to note what is known of the items takes nothing out
    have hallowed : Stores setting K r₀ s f s (f.allowItems extra) :=
      stores_of_extras rfl rfl (fun hf => hf) rfl
    refine hallowed.trans ?_
    have hextra' : (f.allowItems extra).schema.additionalItems = some extra := hextra
    generalize f.allowItems extra = f₁ at *
    have hplace : ∀ (f : Frame) c array, (f.extraItemsPlace c array).tuple = f.tuple ∧
        (f.extraItemsPlace c array).schema = c := by
      intro f c array
      unfold extraItemsPlace
      dsimp only
      split <;> exact ⟨rfl, rfl⟩
    obtain ⟨t, -, ⟨c, hc, -, base, made, s₁, h, s₂, g, hm, hh, hg, rfl⟩ | ⟨-, g, hg, rfl⟩⟩ :=
      buildExtraItems_cases hitems
    · have hitem : f₁.schema.additionalItems = some (.schema c) := by
        cases extra with
        | flag => exact absurd hc (by simp [Extra.schema?])
        | schema d => exact Option.some.inj hc ▸ hextra'
      refine stores_taken hb
        (fun hf => hsites.loose (hsites.child hf (Schema.extraItem_mem_children hitem))) hm hh
        (extraItemsPlace_facts _ _ _).1 ?_ hg rfl (fun hf => hsites.setExtraItem h.name hf hitem) rfl
      rw [(hplace _ _ _).1, (hplace _ _ _).2]
      exact hsites.bare rfl rfl
    · refine stores_child hb (extraItemsPlace_facts _ _ _).1 (fun hf => ?_) hg rfl (fun hf => hf) rfl
      rw [(hplace _ _ _).1, (hplace _ _ _).2]
      cases extra with
      | flag => exact hsites.bare rfl rfl
      | schema c => exact hsites.child hf (Schema.extraItem_mem_children hextra')

/-! ## Schemas -/

theorem buildReference_stores (hs : (f.buildReference setting build).Gives s f' s') :
    Stores setting K r₀ s f s' f' := by
  rcases buildReference_cases hs with ⟨shape, target, g, -, hg, rfl⟩ | ⟨g, hg, rfl⟩
  · exact stores_child hb ⟨rfl, rfl, rfl⟩ (fun _ => hsites.bare rfl rfl) hg rfl (fun hf => hf) rfl
  · have hbranch : (f.branch f.schema 0).Fresh := ⟨rfl, rfl, rfl⟩
    exact stores_child hb hbranch (fun hf => hf) hg rfl (fun hf => hf) rfl

/-- **A step of building keeps frames stocked**, if building the frames below does. -/
theorem buildStep_stores (hs : (f.buildStep setting build).Gives s f' s') :
    Stores setting K r₀ s f s' f' := by
  obtain ⟨k, s₀, hreg, ⟨-, -, href⟩ | ⟨-, f₁, f₂, s₂, t, f₃, s₃, t', f₄, s₄, f₅, s₅, required,
    hlift, hall, -, hextra, -, hprops, hadd, hitems⟩⟩ := buildStep_cases hs
  · have hstart : Stores setting K r₀ s f s₀ (f.start setting k) :=
      stores_of_extras hreg rfl (fun hf => hf) (start_facts setting f k).2.2.2.1
    exact hstart.trans (buildReference_stores hsites hb href)
  · have hstart : Stores setting K r₀ s f s₀ f₁.fillContainer := by
      have hfill : ∀ g : Frame, Stores setting K r₀ s₀ g s₀ g.fillContainer := by
        intro g
        unfold fillContainer
        split <;> exact stores_of_extras rfl rfl (fun hf => hf) rfl
      refine Stores.trans ?_ (hfill f₁)
      have hextras := (start_facts setting f k).2.2.2.1
      obtain ⟨-, ⟨rfl, -⟩ | ⟨branch, hl, rfl⟩⟩ := liftBranch_cases hlift
      · exact stores_of_extras hreg rfl (fun hf => hf) hextras
      · exact stores_of_extras hreg rfl
          (fun hf => hsites.child hf (Schema.branch_mem_children hl.mem)) hextras
    -- between the steps that take something out the frame is only given a type
    have hretype : Stores setting K r₀ s₃ f₃ s₃ (f₃.pointMap.retype t') := by
      refine stores_of_extras rfl (congrArg Place.tuple pointMap_toPlace) (fun hf => ?_)
        (pointMap_facts f₃).2.1
      show K f₃.tuple f₃.pointMap.schema
      rw [pointMap_schema]
      exact hf
    have hset : Stores setting K r₀ s₂ f₂ s₂ (f₂.setType t t.baseType) :=
      stores_of_extras rfl rfl (fun hf => hf) rfl
    have hvalues := (hset.trans (buildAdditionalProperties_stores hsites hb hextra)).trans hretype
    have hrest := ((buildProperties_stores hsites hb hprops).trans
      (buildAdditionalItems_stores hsites hb hadd)).trans (buildItems_stores hsites hb hitems)
    exact ((hstart.trans (buildAllOf_stores hsites hb hall)).trans hvalues).trans hrest

end Steps

/-- **Building keeps frames stocked**, at any depth. -/
theorem buildIn_stocked [Text.Transliteration] (hsites : Schema.Sites K) (setting : Setting)
    (r₀ : Registry) (depth : Nat) :
    BuildsStocked setting K r₀ (buildIn setting depth) := by
  refine ⟨fun g s g' s' hg => ⟨depth, hg⟩, fun g s g' s' hg => ?_⟩
  induction depth generalizing g s g' s' with
  | zero =>
    rw [buildIn, gives_throw] at hg
    exact hg.elim
  | succ depth ih => exact buildStep_stores hsites ⟨fun g s g' s' hg => ⟨depth, hg⟩, ih⟩ hg

/-! ## Properties that are taken out -/

/-- **A composition that is a property is made a definition.** -/
theorem buildProperty_makes (hb : BuildsBelow setting build) {position : Nat} {name : String}
    (href : c.reference = none) (hobject : c.saysObject = true) (hall : c.allOf ≠ [])
    (hs : (f.buildProperty setting build position name c).Gives s f' s') :
    ∃ n ∈ s'.registry.hoisted, s'.registry.get? n = some c := by
  obtain ⟨t, ht, ⟨-, base, made, s₁, h, s₂, required, place, place', hm, hh, hp, -⟩ | ⟨hno, -⟩⟩ :=
    buildProperty_cases hs
  · have hmade := made_fresh hm
    obtain ⟨-, hstored, hhoisted⟩ :=
      stored_of_hoist hb hm hh ⟨hmade.1, hmade.2, hmade.3⟩ rfl
    have hgrows := (hb _ _ _ _ hp).grows ⟨rfl, rfl, rfl⟩
    exact ⟨h.name, hgrows.hoisted _ hhoisted, hgrows.keeps _ _ hstored⟩
  · rw [propertyNeedsName_iff ht, Schema.isInline, Schema.isRecord, href, hobject] at hno
    exact absurd hno (by simp [hall])

theorem buildPropertyList_makes (hb : BuildsStocked setting (fun _ _ => True) r₀ build)
    (href : c.reference = none)
    (hobject : c.saysObject = true) (hall : c.allOf ≠ []) {p : String}
    {properties : List (String × Schema)} : ∀ {position : Nat} {f f' : Frame} {s s' : Session},
    Stocked setting (fun _ _ => True) r₀ s.registry f → (p, c) ∈ properties →
    (f.buildPropertyList setting build position properties).Gives s f' s' →
    ∃ n ∈ s'.registry.hoisted, s'.registry.get? n = some c := by
  induction properties with
  | nil => exact fun _ hmem => absurd hmem List.not_mem_nil
  | cons e rest ih =>
    intro position f f' s s' hf hmem hs
    obtain ⟨f₁, s₁, h₁, h₂⟩ := buildPropertyList_cons_cases hs
    obtain ⟨-, -, hf₁⟩ := buildProperty_stores Schema.sites_true hb trivial h₁ hf
    rcases List.mem_cons.mp hmem with heq | hmem
    · obtain ⟨hgrows, -⟩ :=
        buildPropertyList_stores Schema.sites_true hb (fun _ _ => trivial) h₂ hf₁
      obtain rfl := heq
      obtain ⟨n, hn, hget⟩ := buildProperty_makes hb.1 href hobject hall h₁
      exact ⟨n, hgrows.hoisted n hn, hgrows.keeps _ _ hget⟩
    · exact ih hf₁ hmem h₂

/-- **Of a definition without branches the compositions that are properties are made definitions.** -/
theorem Builds.makes (h : f.Builds setting s f' s') (hf : f.Fresh) (hnamed : f.named = true)
    (hnone : f.schema.reference = none) (hbranches : f.schema.allOf = []) {p : String}
    (hp : (p, c) ∈ f.schema.properties) (href : c.reference = none) (hobject : c.saysObject = true)
    (hall : c.allOf ≠ []) : ∃ n ∈ s'.registry.hoisted, s'.registry.get? n = some c := by
  obtain ⟨depth, h⟩ := h
  cases depth with
  | zero =>
    rw [buildIn, gives_throw] at h
    exact h.elim
  | succ depth =>
    have hb := buildIn_stocked Schema.sites_true setting s.registry depth
    obtain ⟨k, s₀, hreg, ⟨-, hsome, -⟩ | ⟨-, f₁, f₂, s₂, t, f₃, s₃, t', f₄, s₄, f₅, s₅, required,
      hlift, hbuild, -, hextra, -, hprops, hadd, hitems⟩⟩ := buildStep_cases h
    · rw [hnone] at hsome
      exact absurd hsome (by decide)
    obtain ⟨-, ⟨rfl, -⟩ | ⟨branch, hl, -⟩⟩ := liftBranch_cases hlift
    swap
    · -- no branch is lifted where there are none
      have hmem : branch ∈ f.schema.allOf := hl.mem
      exact absurd hmem (by simp [hbranches])
    have hfilled : (f.start setting k).fillContainer.schema = f.schema :=
      (fillContainer_same _).schema
    rcases buildAllOf_cases hbuild with ⟨-, rfl, rfl⟩ | ⟨hne, -⟩
    swap
    · rw [hfilled] at hne
      exact absurd hbranches hne
    have hfresh : Stocked setting (fun _ _ => True) s.registry s₂.registry
        (f.start setting k).fillContainer := by
      rw [hreg]
      refine (hf.stocked ⟨.refl _, fun _ _ _ => trivial⟩ trivial).of_extras trivial
        ((fillContainer_same _).extras.trans ?_)
      exact (start_facts setting f k).2.2.2.1
    have hnamed₂ : (f.start setting k).fillContainer.named = true :=
      (fillContainer_parts _).named.trans hnamed
    generalize (f.start setting k).fillContainer = f₂ at *
    have hset : Stocked setting (fun _ _ => True) s.registry s₂.registry
        (f₂.setType t t.baseType) := hfresh.of_extras trivial rfl
    obtain ⟨-, -, hf₃⟩ := buildAdditionalProperties_stores Schema.sites_true hb hextra hset
    rcases buildAdditionalProperties_parts hextra with hsame | ⟨-, hunnamed, -⟩
    swap
    · exact absurd (hnamed₂.symm.trans hunnamed) (by decide)
    have hdeclared : (f₃.pointMap.retype t').schema.properties = f.schema.properties := by
      rw [← hfilled]
      exact ((hsame.trans (pointMap_sameParts f₃)).trans (retype_parts _ t')).declared
    have hplace : Stocked setting (fun _ _ => True) s.registry s₃.registry
        (f₃.pointMap.retype t') := hf₃.of_extras trivial (pointMap_facts f₃).2.1
    -- the properties of the schema are built one by one, and `p` is among them
    obtain ⟨f₄', hlist, rfl⟩ := buildProperties_cases hprops
    rw [hdeclared] at hlist
    obtain ⟨n, hn, hget⟩ := buildPropertyList_makes hb href hobject hall hplace hp hlist
    obtain ⟨-, -, hf₄⟩ :=
      buildPropertyList_stores Schema.sites_true hb (fun _ _ => trivial) hlist hplace
    -- what was made is kept by the steps after that
    have hrest := (buildAdditionalItems_stores Schema.sites_true hb hadd).trans
      (buildItems_stores Schema.sites_true hb hitems)
    obtain ⟨hgrows, -⟩ := hrest (hf₄.of_extras trivial rfl)
    exact ⟨n, hgrows.hoisted n hn, hgrows.keeps _ _ hget⟩

/-! ## Files -/

/-- What is built of a definition has only models with an origin. -/
theorem definition_stocked (hsites : Schema.Sites K) {name container : String}
    (hr : Sited K r₀ s.registry) (hc : K false c)
    (h : (definition setting name c container).Gives s f s') :
    s.registry.Grows s'.registry ∧ Stocked setting K r₀ s'.registry f := by
  obtain ⟨hgrows, -, hf⟩ :=
    stocked_below (buildIn_stocked hsites setting r₀ _) hr ⟨rfl, rfl, rfl⟩ hc h
  exact ⟨hgrows, hf⟩

theorem expandBranches_sited (hsites : Schema.Sites K) {container : String}
    {branches : List Schema} : ∀ {index : Nat} {allOf : List Model} {s s' : Session}
    {result : List Model × List String}, Sited K r₀ s.registry →
    (expandBranches setting container index allOf branches).Gives s result s' →
    s.registry.Grows s'.registry ∧ Sited K r₀ s'.registry := by
  induction branches with
  | nil =>
    intro index allOf s s' result hr h
    simp only [expandBranches, gives_pure] at h
    obtain ⟨-, rfl⟩ := h
    exact ⟨.refl _, hr⟩
  | cons branch rest ih =>
    intro index allOf s s' result hr h
    rcases expandBranches_cons_cases h with ⟨-, h⟩ |
      ⟨_, _, _, _, s₁, _, -, -, hresolve, -, hbuilt, h, -⟩
    · exact ih hr h
    · obtain ⟨n, hn⟩ := (Registry.resolve_leads hresolve).exists_stored
      obtain ⟨hgrows, hstocked⟩ := definition_stocked hsites hr (hr.known n _ hn) hbuilt
      obtain ⟨hgrows', hr'⟩ := ih hstocked.toSited h
      exact ⟨hgrows.trans hgrows', hr'⟩

theorem expandBranches_grows {container : String} {branches : List Schema} {index : Nat}
    {allOf : List Model} {result : List Model × List String}
    (h : (expandBranches setting container index allOf branches).Gives s result s') :
    s.registry.Grows s'.registry :=
  (expandBranches_sited Schema.sites_true ⟨.refl _, fun _ _ _ => trivial⟩ h).1

theorem inlineBranches_stores (hsites : Schema.Sites K) {parent : Option Nat}
    {branches : List Model} : ∀ {index : Nat} {f f' : Frame} {s s' : Session},
    (inlineBranches setting parent f index branches).Gives s f' s' →
    Stores setting K r₀ s f s' f' := by
  induction branches with
  | nil =>
    intro index f f' s s' h
    simp only [inlineBranches, gives_pure] at h
    obtain ⟨rfl, rfl⟩ := h
    exact stores_of_extras rfl rfl (fun hf => hf) rfl
  | cons branch rest ih =>
    intro index f f' s s' h
    rcases inlineBranches_cons_cases h with ⟨-, h⟩ | ⟨n, target, built, s₁, -, -, hresolve, hb, h⟩
    · exact ih h
    · refine Stores.trans (fun hf => ?_) (ih h)
      obtain ⟨n, hn⟩ := (Registry.resolve_leads hresolve).exists_stored
      obtain ⟨hgrows, hstocked⟩ := definition_stocked hsites hf.toSited (hf.known n _ hn) hb
      exact ⟨hgrows, rfl, (hf.mono hgrows hstocked.toSited).merge hstocked hf.site rfl⟩

/-- **The models beside that of a file's definition have an origin**; it is built first. -/
theorem fileFrame_stocked (hsites : Schema.Sites K) {name : String}
    (hknown : ∀ n c, s.registry.get? n = some c → K false c)
    (h : (fileFrame setting name).Gives s f s') :
    ∃ c built s₁, s.registry.get? name = some c ∧
      (definition setting name c name).Gives s built s₁ ∧ s₁.registry.Grows s'.registry ∧
      Stocked setting K s.registry s'.registry f := by
  obtain ⟨c, built, s₁, s₂, m, hget, hbuilt, hexpand, hinline⟩ := fileFrame_cases h
  obtain ⟨-, hstocked⟩ := definition_stocked hsites ⟨.refl s.registry, hknown⟩ (hknown _ _ hget) hbuilt
  have hexpanded : s₁.registry.Grows s₂.registry ∧ Sited K s.registry s₂.registry := by
    rcases hexpand with ⟨-, -, rfl⟩ | ⟨subtype, -, he⟩
    · exact ⟨.refl _, hstocked.toSited⟩
    · obtain ⟨allOf, names, hex, -⟩ := expandSubtype_cases he
      exact expandBranches_sited hsites hstocked.toSited hex
  -- to mark a frame as a base takes nothing out of it
  have hbase : (asBase setting name built).extras = built.extras ∧
      (asBase setting name built).tuple = built.tuple ∧
      (asBase setting name built).schema = built.schema := by
    unfold asBase
    split <;> exact ⟨rfl, rfl, rfl⟩
  have hplace : Stocked setting K s.registry s₂.registry
      { asBase setting name built with model := m } := by
    refine (hstocked.mono hexpanded.1 hexpanded.2).of_extras ?_ hbase.1
    show K (asBase setting name built).tuple (asBase setting name built).schema
    rw [hbase.2.1, hbase.2.2]
    exact hstocked.site
  obtain ⟨hgrows', -, hf⟩ := inlineBranches_stores hsites hinline hplace
  exact ⟨c, built, s₁, hget, hbuilt, hexpanded.1.trans hgrows', hf⟩

/-- **Of a definition without branches the compositions that are properties are made for its file.** -/
theorem fileFrame_makes {name p : String} {d : Schema} (h : (fileFrame setting name).Gives s f s')
    (hget : s.registry.get? name = some d) (hnone : d.reference = none) (hbranches : d.allOf = [])
    (hp : (p, c) ∈ d.properties) (href : c.reference = none) (hobject : c.saysObject = true)
    (hall : c.allOf ≠ []) : ∃ n ∈ s'.registry.hoisted, s'.registry.get? n = some c := by
  obtain ⟨d', built, s₁, hget', hbuilt, hgrows, -⟩ :=
    fileFrame_stocked Schema.sites_true (fun _ _ _ => trivial) h
  obtain rfl := Option.some.inj (hget.symm.trans hget')
  have hbuilds : (root name d name).Builds setting s built s₁ := ⟨_, hbuilt⟩
  obtain ⟨n, hn, hstored⟩ :=
    hbuilds.makes ⟨rfl, rfl, rfl⟩ rfl hnone hbranches hp href hobject hall
  exact ⟨n, hgrows.hoisted n hn, hgrows.keeps _ _ hstored⟩

end KclModels.Frame
