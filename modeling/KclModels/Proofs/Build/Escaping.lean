import KclModels.Proofs.Build.Linking
import KclModels.Proofs.Resolve.Records

/-!
# Tuples without a name are made definitions

A tuple that has no name is made a definition, and the model that stands in its place refers to that.
So the only models of tuples without a reference are those that have a name: the one that is
generated, and the ones that were taken out.

A place learns late that it holds a tuple: the type is looked up before its items are built, and only
these make the definition. Until then the type must tell what is to come. It does, as long as the
model refers to what the schema refers to, or the schema refers to something that is no tuple; the
latter is how it is with a branch that a composition gave way to.
-/

namespace KclModels

variable {tr : Text.Transliteration}

/-- A tuple has a name: the model refers to the definition that was made of it. -/
def Model.Escaped (m : Model) : Prop := m.type.tuple = true → m.reference.isSome = true

/-- If the schema is a reference, it ends at an object or at a type without structure. -/
def Schema.Upright (r : Registry) (c : Schema) : Prop :=
  ∀ reference, c.reference = some reference →
    ∃ d, r.Leads reference d ∧ (d.saysObject = true ∨ d.isScalar = true)

theorem Schema.Upright.mono {r r' : Registry} {c : Schema} (h : c.Upright r) (hr : r.Grows r') :
    c.Upright r' := by
  intro reference href
  obtain ⟨d, hd, hkind⟩ := h reference href
  exact ⟨d, hd.mono hr.keeps, hkind⟩

namespace Frame

open Build

variable {setting : Setting} {build : Frame → Build Frame} {r r' r'' : Registry}
variable {s s' s₁ s₂ : Session} {f f' f'' g g' h : Frame} {c : Schema} {base : String}

/-! ## What a step leaves of a frame -/

/-- All tuples below the model of the frame and below the models taken out have names. -/
structure Sealed (f : Frame) : Prop where
  parts : ∀ p ∈ f.model.parts, p.Everywhere Model.Escaped
  extras : ∀ n m, (n, m) ∈ f.extras → ∀ p ∈ m.parts, p.Everywhere Model.Escaped

/-- A type that the schema has and that is a tuple is one whose definition is still to be made. -/
def Telling (r : Registry) (f : Frame) : Prop :=
  f.model.reference = f.schema.referenceName ∨ f.schema.Upright r

/-- A step lets no tuple in, and the type of the frame still tells what is to come. -/
structure Seals (f : Frame) (r : Registry) (f' : Frame) (r' : Registry) : Prop where
  grows : r.Grows r'
  named : f'.named = f.named
  sealed : f.Sealed → f'.Sealed
  telling : f.Telling r → f'.Telling r'

/-- What is built of a frame: without a name of its own, the model is no tuple but by reference. -/
structure Escapes (f : Frame) (r : Registry) (f' : Frame) (r' : Registry) : Prop where
  grows : r.Grows r'
  named : f'.named = f.named
  sealed : f.Sealed → f'.Sealed
  telling : f.named = false → f'.Telling r'
  escaped : f.named = false → f'.model.Escaped

/-- The way to build frames lets no tuple in. -/
def BuildsEscaping (build : Frame → Build Frame) : Prop :=
  ∀ f s f' s', (build f).Gives s f' s' → Escapes f s.registry f' s'.registry

theorem Seals.refl (f : Frame) (r : Registry) : Seals f r f r := ⟨.refl r, rfl, id, id⟩

theorem Seals.trans (h : Seals f r f' r') (h' : Seals f' r' f'' r'') : Seals f r f'' r'' where
  grows := h.grows.trans h'.grows
  named := h'.named.trans h.named
  sealed := h'.sealed ∘ h.sealed
  telling := h'.telling ∘ h.telling

theorem Seals.escapes (h : Seals f r f' r') (h' : Escapes f' r' f'' r'') : Escapes f r f'' r'' where
  grows := h.grows.trans h'.grows
  named := h'.named.trans h.named
  sealed := h'.sealed ∘ h.sealed
  telling hn := h'.telling (h.named.trans hn)
  escaped hn := h'.escaped (h.named.trans hn)

theorem Telling.mono (h : f.Telling r) (hr : r.Grows r') : f.Telling r' := h.imp_right (·.mono hr)

/-- Nothing of the frame changes while the registry grows. -/
theorem seals_of_grows (f : Frame) (hr : r.Grows r') : Seals f r f r' := ⟨hr, rfl, id, (·.mono hr)⟩

theorem Fresh.sealed (hf : f.Fresh) : f.Sealed where
  parts p hp := by rw [hf.model] at hp; exact absurd hp List.not_mem_nil
  extras n m hm := by rw [hf.extras] at hm; exact absurd hm List.not_mem_nil

theorem Same.sealed (h : Same f f') (hf : f.Sealed) : f'.Sealed where
  parts p hp := hf.parts p (h.parts p hp)
  extras := by
    rw [h.extras]
    exact hf.extras

theorem Same.seals (h : Same f f') (r : Registry) : Seals f r f' r where
  grows := .refl r
  named := h.named
  sealed := h.sealed
  telling := by
    rw [Telling, Telling, h.reference, h.schema]
    exact id

/-- Another schema that refers to the same. -/
theorem seals_of_schema (r : Registry) (hnamed : f'.named = f.named) (hm : f'.model = f.model)
    (hextras : f'.extras = f.extras) (href : f'.schema.reference = f.schema.reference) :
    Seals f r f' r where
  grows := .refl r
  named := hnamed
  sealed hf := ⟨by rw [hm]; exact hf.parts, by rw [hextras]; exact hf.extras⟩
  telling hf := by
    rw [Telling, Schema.referenceName, Schema.Upright, hm, href]
    exact hf

theorem escaped_of_like {m m' : Model} (h : Model.Like m m') (hm : m.Everywhere Model.Escaped) :
    m'.Everywhere Model.Escaped := by
  refine Model.everywhere_of_parts ?_ fun p hp => hm.part (h.parts ▸ hp)
  intro htuple
  rw [h.type] at htuple
  rw [h.reference]
  exact hm.here htuple

/-- A frame that takes over one below it. -/
theorem Takes.seals (h : Takes f g f') (hr : r.Grows r') (hg : g.Sealed)
    (hm : g.model.Everywhere Model.Escaped) : Seals f r f' r' where
  grows := hr
  named := h.named
  sealed hf := by
    refine ⟨fun p hp => ?_, fun n m hnm => ?_⟩
    · rcases h.parts p hp with hp | hp
      · exact hf.parts p hp
      · exact escaped_of_like hp hm
    · rw [h.extras] at hnm
      rcases Assoc.mem_mergeSorted hnm with hnm | hnm
      · exact hf.extras n m hnm
      · exact hg.extras n m hnm
  telling hf := by
    rw [Telling, h.reference, h.schema]
    exact hf.mono hr

theorem Sealed.addExtra (hf : f.Sealed) (hh : h.Sealed) : (f.addExtra h).Sealed where
  parts := hf.parts
  extras n m hm := by
    rcases Assoc.mem_putSorted hm with heq | hm
    · rw [(Prod.mk.inj heq).2]
      exact hh.parts
    · rcases Assoc.mem_mergeSorted hm with hm | hm
      · exact hf.extras n m hm
      · exact hh.extras n m hm

/-- A definition is taken out. -/
theorem addExtra_seals (r : Registry) (hh : h.Sealed) : Seals f r (f.addExtra h) r :=
  ⟨.refl r, rfl, (·.addExtra hh), id⟩

/-- What is built anew in the place of a frame, once a definition was made and is taken out. -/
theorem Escapes.again (hr : r.Grows r') (hh : h.Sealed) (hg : Escapes g r' g' r'')
    (hnamed : g.named = f.named) (hsealed : f.Sealed → g.Sealed) :
    Escapes f r (g'.addExtra h) r'' where
  grows := hr.trans hg.grows
  named := hg.named.trans hnamed
  sealed hf := (hg.sealed (hsealed hf)).addExtra hh
  telling hn := hg.telling (hnamed.trans hn)
  escaped hn := hg.escaped (hnamed.trans hn)

/-- An empty model in place of what was built. -/
theorem Sealed.restart (hf : f.Sealed) (hextras : g.extras = f.extras) : g.restart.Sealed where
  parts _ hp := absurd hp List.not_mem_nil
  extras := by
    show ∀ n m, (n, m) ∈ g.extras → _
    rw [hextras]
    exact hf.extras

theorem pointMap_seals (f : Frame) (r : Registry) : Seals f r f.pointMap r := by
  obtain ⟨-, hextras, href, -⟩ := pointMap_facts f
  have hpointed : Pointed Model.Escaped := fun _ _ _ h => h
  refine ⟨.refl r, congrArg Place.named pointMap_toPlace, fun hf => ⟨?_, ?_⟩, fun hf => ?_⟩
  · exact pointMap_parts hpointed hf.parts
  · rw [hextras]
    exact hf.extras
  · rw [Telling, href, pointMap_schema]
    exact hf

/-! ## Types that tell what is to come -/

/-- **A type that is a tuple** is that of a reference, or its definition is still to be made. -/
theorem Telling.tuple {t : TypeInfo} {anonymous required : Bool} {place : Frame}
    (hf : f.Telling s.registry)
    (ht : (resolverAt setting place s).resolve f.schema anonymous required = .ok t)
    (htuple : t.tuple = true) :
    f.model.reference.isSome = true ∨ ∃ places, f.schema.items = some (.tuple places) := by
  cases href : f.schema.reference with
  | none => exact Or.inr (Resolver.resolveWith_places href ht htuple)
  | some reference =>
    rcases hf with heq | hup
    · -- a reference that has a type names a definition
      rw [Resolver.resolve_of_reference href] at ht
      obtain ⟨n, d, hn, -⟩ := Resolver.derefIn_ok ht
      refine Or.inl ?_
      rw [heq, Schema.referenceName_eq href hn]
      rfl
    · obtain ⟨d, hd, hkind⟩ := hup reference href
      rw [Resolver.resolve_reference_tuple href hd hkind ht] at htuple
      exact absurd htuple (by simp)

/-- A composition gives way to no tuple. -/
theorem Lifts.upright {place : Frame} {branch : Schema}
    (h : Lifts (resolverAt setting place s) c branch) : branch.Upright s.registry := by
  intro reference href
  obtain ⟨-, -, t, ht, hkind⟩ := h
  obtain ⟨d, hd, hcomplex, hprimitive⟩ := Resolver.resolve_reference_kind href ht
  refine ⟨d, hd, hkind.imp (fun hnamed => ?_) fun hp => hprimitive.symm.trans hp⟩
  have hrecord : d.isRecord = true := hcomplex.symm.trans hnamed.2
  exact (Bool.and_eq_true _ _ ▸ hrecord).1

theorem liftBranch_seals (hs : (f.liftBranch setting).Gives s f' s') :
    Seals f s.registry f' s'.registry := by
  obtain ⟨rfl, ⟨rfl, -⟩ | ⟨branch, hl, rfl⟩⟩ := liftBranch_cases hs
  · exact .refl f' _
  · exact ⟨.refl _, rfl, fun hf => ⟨hf.parts, hf.extras⟩, fun _ => Or.inr hl.upright⟩

section Steps

variable (hb : BuildsEscaping build)

include hb

/-- What is built of a frame below, that has no name of its own. -/
theorem BuildsEscaping.below (hg : g.Fresh) (hnamed : g.named = false)
    (hs : (build g).Gives s g' s') : s.registry.Grows s'.registry ∧ g'.Sealed ∧
      g'.model.Everywhere Model.Escaped := by
  have h := hb g s g' s' hs
  have hsealed := h.sealed hg.sealed
  exact ⟨h.grows, hsealed, Model.everywhere_of_parts (h.escaped hnamed) hsealed.parts⟩

/-- What is built of a definition that is made. -/
theorem BuildsEscaping.made {m : Frame} (hm : (hoist f base c).Gives s m s₁)
    (hh : (build g).Gives s₁ h s₂) (hg : g.Fresh) :
    s.registry.Grows s₂.registry ∧ h.Sealed := by
  have hbuilt := hb g s₁ h s₂ hh
  rw [gives_hoist] at hm
  obtain ⟨-, rfl⟩ := hm
  exact ⟨(Registry.hoist_grows _ _ _).trans hbuilt.grows, hbuilt.sealed hg.sealed⟩

omit hb in
/-- A model that takes out a definition is as it was. -/
theorem everywhere_addExtra (hg : g.Sealed) (hm : g.model.Everywhere Model.Escaped)
    (hh : h.Sealed) : (g.addExtra h).Sealed ∧ (g.addExtra h).model.Everywhere Model.Escaped :=
  ⟨hg.addExtra hh, escaped_of_like (m := g.model) ⟨rfl, rfl, rfl, rfl, rfl⟩ hm⟩

/-! ## Compositions -/

theorem buildBranch_seals {index : Nat} {branch : Schema} {array : Bool}
    (hs : (f.buildBranch setting build index branch).Gives s (f', array) s') :
    Seals f s.registry f' s'.registry := by
  obtain ⟨t, -, ⟨-, base, made, s₁, h, s₂, g, hm, hh, hg, rfl⟩ | ⟨-, g, hg, rfl⟩⟩ :=
    buildBranch_cases hs
  · obtain ⟨hgrows, hsealed⟩ := hb.made hm hh (made_fresh hm)
    obtain ⟨hgrows', hg, hmodel⟩ := hb.below ⟨rfl, rfl, rfl⟩ rfl hg
    obtain ⟨hg, hmodel⟩ := everywhere_addExtra hg hmodel hsealed
    have hrefer : Seals f s₂.registry (f.mapBranch index (.referenceTo h.name)) s₂.registry :=
      seals_of_schema _ rfl rfl rfl rfl
    exact ((seals_of_grows f hgrows).trans hrefer).trans
      ((addBranch_takes _ _).seals hgrows' hg hmodel)
  · obtain ⟨hgrows, hg, hmodel⟩ := hb.below ⟨rfl, rfl, rfl⟩ rfl hg
    obtain ⟨-, -, href, htype, -⟩ := pointMap_facts g
    have hsealed := (pointMap_seals g s'.registry).sealed hg
    refine (addBranch_takes f g.pointMap).seals hgrows hsealed ?_
    refine Model.everywhere_of_parts ?_ hsealed.parts
    rw [Model.Escaped, htype, href]
    exact hmodel.here

theorem buildBranches_seals {branches : List Schema} : ∀ {index : Nat} {arrays : List Bool}
    {f f' : Frame} {s s' : Session},
    (f.buildBranches setting build index branches).Gives s (f', arrays) s' →
    Seals f s.registry f' s'.registry := by
  induction branches with
  | nil =>
    intro index arrays f f' s s' hs
    rw [buildBranches, gives_pure, Prod.mk.injEq] at hs
    obtain ⟨⟨rfl, -⟩, rfl⟩ := hs
    exact .refl f _
  | cons branch rest ih =>
    intro index arrays f f' s s' hs
    obtain ⟨f₁, array, s₁, arrays', h₁, h₂⟩ := buildBranches_cons_cases hs
    exact (buildBranch_seals hb h₁).trans (ih h₂)

theorem buildAllOf_seals (hs : (f.buildAllOf setting build).Gives s f' s') :
    Seals f s.registry f' s'.registry := by
  rcases buildAllOf_cases hs with ⟨-, rfl, rfl⟩ | ⟨-, arrays, s₁, hbranches, hreg⟩
  · exact .refl f' _
  · rw [hreg]
    exact buildBranches_seals hb hbranches

/-! ## Additional properties -/

theorem buildMapLeaf_escapes {parent level : Frame} {t : TypeInfo} (hlevel : level.Fresh)
    (hnamed : level.named = false)
    (hs : (buildMapLeaf build parent level t).Gives s f' s') :
    s.registry.Grows s'.registry ∧ f'.Sealed ∧ f'.model.Everywhere Model.Escaped := by
  obtain ⟨leaf, s₁, hgrows, hsealed, hleaf, required, hg⟩ : ∃ (leaf : Frame) (s₁ : Session),
      s.registry.Grows s₁.registry ∧ leaf.Sealed ∧ leaf.named = false ∧
      ∃ required, (build (leaf.require required)).Gives s₁ f' s' := by
    rcases buildMapLeaf_cases hs with ⟨-, base, made, s₁, h, s₂, required, hm, hh, hg⟩ |
      ⟨-, required, hg⟩
    · obtain ⟨hgrows, hh⟩ := hb.made hm hh (made_fresh hm)
      have hsealed : (level.referTo h.name).Sealed := ⟨hlevel.sealed.parts, hlevel.sealed.extras⟩
      exact ⟨_, s₂, hgrows, hsealed.addExtra hh, hnamed, required, hg⟩
    · exact ⟨level, s, .refl _, hlevel.sealed, hnamed, required, hg⟩
  have h := hb _ _ _ _ hg
  have hsealed' := h.sealed ((require_same leaf required).sealed hsealed)
  exact ⟨hgrows.trans h.grows, hsealed',
    Model.everywhere_of_parts (h.escaped hleaf) hsealed'.parts⟩

omit hb in
/-- A level of maps is no tuple: it was a map, and other values leave an object an object. -/
theorem joinMapLevel_escapes {level child : Frame} {v : Schema} {t : TypeInfo}
    (hlevel : level.Fresh) (hschema : level.schema = v) (href : v.reference = none)
    (ht : (resolverAt setting level s).resolve v true false = .ok t) (hmap : t.map = true)
    (hchild : child.Sealed) (hmodel : child.model.Everywhere Model.Escaped)
    (hs : (level.joinMapLevel setting child).Gives s₁ f' s') :
    s'.registry = s₁.registry ∧ f'.Sealed ∧ f'.model.Everywhere Model.Escaped := by
  obtain ⟨k, t', ht', rfl, hreg⟩ := joinMapLevel_cases hs
  subst hschema
  have hobject : level.schema.saysObject = true := (Resolver.object_of_map href ht hmap).1
  have htuple : t'.tuple = false :=
    Resolver.resolveWith_tuple (c := (level.mapExtraValue child.schema).schema) href
      (Or.inl hobject) ht'
  obtain ⟨-, -, -, hextras, -, hparts, -⟩ := mapLevel_facts setting hlevel child.schema k t'
  -- before the values are joined to it the level has neither parts nor definitions taken out
  have hplain : (((level.mapExtraValue child.schema).filled setting k).makeMap t').Sealed := by
    refine ⟨fun p hp => ?_, fun n m hm => ?_⟩
    · rw [hparts] at hp
      exact absurd hp List.not_mem_nil
    · rw [hextras] at hm
      exact absurd hm List.not_mem_nil
  have hsealed := ((setValue_takes _ child).seals (.refl s'.registry) hchild hmodel).sealed hplain
  refine ⟨hreg, hsealed, Model.everywhere_of_parts (fun htype => ?_) hsealed.parts⟩
  exact absurd (htuple.symm.trans htype) (by simp)

theorem buildMapLevel_escapes (v : Schema) : ∀ {parent f' : Frame} {s s' : Session},
    (buildMapLevel setting build parent v).Gives s f' s' →
    s.registry.Grows s'.registry ∧ f'.Sealed ∧ f'.model.Everywhere Model.Escaped := by
  induction v using Schema.value_induction with
  | step v ih =>
    intro parent f' s s' hs
    obtain ⟨t, ht, ⟨next, child, s₁, hv, hmap, href, hchild, hjoin⟩ | ⟨-, hleaf⟩⟩ :=
      buildMapLevel_cases hs
    · obtain ⟨hgrows, hsealed, hmodel⟩ := ih next hv hchild
      rw [href] at ht
      have hfresh : (parent.mapValue v).Fresh := ⟨rfl, rfl, rfl⟩
      obtain ⟨hreg, hresult⟩ := joinMapLevel_escapes hfresh rfl href ht hmap hsealed hmodel hjoin
      exact ⟨hreg ▸ hgrows, hresult⟩
    · exact buildMapLeaf_escapes hb ⟨rfl, rfl, rfl⟩ rfl hleaf

theorem buildMap_seals {value : Schema} (hs : (f.buildMap setting build value).Gives s f' s') :
    Seals f s.registry f' s'.registry := by
  obtain ⟨child, hchild, rfl⟩ := buildMap_cases hs
  obtain ⟨hgrows, hsealed, hmodel⟩ := buildMapLevel_escapes hb value hchild
  have hjoined : Seals f s.registry (f.mapExtraValue child.schema) s.registry :=
    seals_of_schema _ rfl rfl rfl rfl
  exact hjoined.trans ((setValue_takes _ child).seals hgrows hsealed hmodel)

theorem hoistExtended_escapes (hs : (f.hoistExtended build).Gives s f' s') :
    Escapes f s.registry f' s'.registry := by
  obtain ⟨base, made, s₁, h, s₂, g, hm, hh, hg, rfl⟩ := hoistExtended_cases hs
  obtain ⟨hgrows, hsealed⟩ := hb.made hm hh (made_fresh hm)
  exact .again hgrows hsealed (hb _ _ _ _ hg) rfl (·.restart rfl)

theorem buildExtraValues_seals {value : Schema}
    (hs : (f.buildExtraValues setting build value).Gives s f' s') :
    Seals f s.registry f' s'.registry := by
  obtain ⟨t, -, ⟨-, base, made, s₁, h, s₂, g, required, hm, hh, hg, rfl⟩ |
    ⟨-, g, required, hg, rfl⟩⟩ := buildExtraValues_cases hs
  · obtain ⟨hgrows, hsealed⟩ := hb.made hm hh (made_fresh hm)
    obtain ⟨hgrows', hg, hmodel⟩ := hb.below ⟨rfl, rfl, rfl⟩ rfl hg
    obtain ⟨hg, hmodel⟩ := everywhere_addExtra hg hmodel hsealed
    have hrefer : Seals f s₂.registry (f.referValue h.name) s₂.registry :=
      seals_of_schema _ rfl rfl rfl rfl
    exact ((seals_of_grows f hgrows).trans hrefer).trans
      ((setStore_takes _ _).seals hgrows' hg hmodel)
  · obtain ⟨hgrows, hg, hmodel⟩ := hb.below ⟨rfl, rfl, rfl⟩ rfl hg
    exact (setStore_takes f g).seals hgrows hg hmodel

theorem buildAnyValues_seals {declared : Bool}
    (hs : (f.buildAnyValues build declared).Gives s f' s') :
    Seals f s.registry f' s'.registry := by
  obtain ⟨g, hg, rfl⟩ := buildAnyValues_cases hs
  obtain ⟨hgrows, hg, hmodel⟩ := hb.below ⟨rfl, rfl, rfl⟩ rfl hg
  exact ((allowAny_same f declared).seals s.registry).trans
    ((setValue_takes _ g).seals hgrows hg hmodel)

theorem buildAdditionalProperties_seals
    (hs : (f.buildAdditionalProperties setting build).Gives s f' s') :
    Seals f s.registry f' s'.registry := by
  rcases buildAdditionalProperties_cases hs with ⟨-, rfl, rfl⟩ | ⟨extra, -, hcases⟩
  · exact .refl f' _
  · have hmark : ∀ declared, Seals f s.registry ((f.deny extra).markExtra declared) s.registry :=
      fun declared => ((deny_same f extra).trans (markExtra_same _ declared)).seals _
    rcases hcases with ⟨-, rfl, rfl⟩ | ⟨-, hany⟩ | ⟨value, -, ⟨-, hmap⟩ | ⟨-, hnamed, hhoist⟩ |
      ⟨-, -, hvalues⟩⟩
    · exact (deny_same f extra).seals _
    · exact (hmark _).trans (buildAnyValues_seals hb hany)
    · exact (hmark _).trans (buildMap_seals hb hmap)
    · have h := (hmark _).escapes (hoistExtended_escapes hb hhoist)
      exact ⟨h.grows, h.named, h.sealed, fun _ => h.telling hnamed⟩
    · exact (hmark _).trans (buildExtraValues_seals hb hvalues)

/-! ## Properties -/

/-- A built property is as it was once it has what its reference says. -/
theorem BuildsEscaping.decorated (hg : g.Fresh) (hnamed : g.named = false)
    (hs : (build g).Gives s g' s') (hd : Decorated setting g' f') :
    s.registry.Grows s'.registry ∧ f'.Sealed ∧ f'.model.Everywhere Model.Escaped := by
  obtain ⟨hgrows, hsealed, hmodel⟩ := hb.below hg hnamed hs
  obtain ⟨hsame, htype⟩ := decorated_same hd
  have hsealed' := hsame.sealed hsealed
  refine ⟨hgrows, hsealed', Model.everywhere_of_parts ?_ hsealed'.parts⟩
  rw [Model.Escaped, htype, hsame.reference]
  exact hmodel.here

theorem buildProperty_seals {position : Nat} {name : String}
    (hs : (f.buildProperty setting build position name c).Gives s f' s') :
    Seals f s.registry f' s'.registry := by
  obtain ⟨t, -, ⟨-, base, made, s₁, h, s₂, required, g, g', hm, hh, hg, hd, rfl⟩ |
    ⟨-, required, g, g', hg, hd, rfl⟩⟩ := buildProperty_cases hs
  · have hfresh := made_fresh hm
    obtain ⟨hgrows, hsealed⟩ := hb.made hm hh ⟨hfresh.1, hfresh.2, hfresh.3⟩
    obtain ⟨hgrows', hg, hmodel⟩ := hb.decorated ⟨rfl, rfl, rfl⟩ rfl hg hd
    exact ((seals_of_grows f hgrows).trans
      (addExtra_seals _ ((markDiscriminated_same h c).sealed hsealed))).trans
      ((addProperty_takes _ g' position).seals hgrows' hg hmodel)
  · obtain ⟨hgrows, hg, hmodel⟩ := hb.decorated ⟨rfl, rfl, rfl⟩ rfl hg hd
    exact (addProperty_takes f g' position).seals hgrows hg hmodel

theorem buildProperties_seals (hs : (f.buildProperties setting build).Gives s f' s') :
    Seals f s.registry f' s'.registry := by
  obtain ⟨f₁, hlist, rfl⟩ := buildProperties_cases hs
  have hseals : Seals f s.registry f₁ s'.registry := buildPropertyList_run
    (R := fun f s f' s' => Seals f s.registry f' s'.registry) (fun f s => .refl f s.registry)
    Seals.trans (buildProperty_seals hb) hlist
  exact hseals.trans ((orderProperties_same f₁).seals _)

/-! ## Items -/

/-- A tuple that has no name refers to its definition, or that is still to be made. -/
def Awaits (f : Frame) : Prop :=
  f.model.type.tuple = true →
    f.model.reference.isSome = true ∨ ∃ places, f.schema.items = some (.tuple places)

theorem buildArray_escapes {item : Schema} (hf : f.Telling s.registry) (hawaits : f.Awaits)
    (hitem : f.schema.items = some (.single item))
    (hs : (f.buildArray setting build item).Gives s f' s') :
    Escapes f s.registry f' s'.registry := by
  obtain ⟨t, -, ⟨-, base, made, s₁, h, s₂, g, hm, hh, hg, rfl⟩ | ⟨-, g, hg, rfl⟩⟩ :=
    buildArray_cases hs
  · obtain ⟨hgrows, hsealed⟩ := hb.made hm hh (made_fresh hm)
    exact .again hgrows hsealed (hb _ _ _ _ hg) rfl (·.restart rfl)
  · obtain ⟨hgrows, hg, hmodel⟩ := hb.below ⟨rfl, rfl, rfl⟩ rfl hg
    have hmark := markElements_same f item setting.polymorphism
    have hseals := (hmark.seals s.registry).trans
      ((setElement_takes _ g).seals hgrows hg hmodel)
    refine ⟨hseals.grows, hseals.named, hseals.sealed, fun _ => hseals.telling hf, fun _ => ?_⟩
    intro htuple
    have htype : (f.markElements item setting.polymorphism).model.type = f.model.type := by
      unfold markElements
      split <;> rfl
    rw [(setElement_takes _ g).reference, hmark.reference]
    rcases hawaits (by rw [← htype]; exact htuple) with href | ⟨places, hplaces⟩
    · exact href
    · exact absurd (hitem.symm.trans hplaces) (by simp)

theorem addPlace_seals {index : Nat} {place g : Frame} {s₁ s₂ : Session}
    (hp : (f.hoistPlace setting build index c).Gives s place s₁)
    (hg : (build place).Gives s₁ g s₂) : Seals f s.registry (f.addPlace g index) s₂.registry := by
  -- the frame of a place has no name, whether or not a definition was made of it
  obtain ⟨hgrows, hplace, hnamed⟩ : s.registry.Grows s₁.registry ∧ place.Sealed ∧
      place.named = false := by
    rcases hoistPlace_cases hp with ⟨rfl, rfl, -⟩ | ⟨-, t, -, -, base, made, s₀, h, hm, hh, rfl⟩
    · exact ⟨.refl _, Fresh.sealed ⟨rfl, rfl, rfl⟩, rfl⟩
    · obtain ⟨hgrows, hsealed⟩ := hb.made hm hh (made_fresh hm)
      have hfresh : ((f.tuplePlace c index).referTo h.name).Fresh := ⟨rfl, rfl, rfl⟩
      exact ⟨hgrows, hfresh.sealed.addExtra hsealed, rfl⟩
  have h := hb _ _ _ _ hg
  have hmodel := Model.everywhere_of_parts (h.escaped hnamed) (h.sealed hplace).parts
  exact (addPlace_takes f g index).seals (hgrows.trans h.grows) (h.sealed hplace) hmodel

theorem buildPlaces_seals {index : Nat} {places : List Schema}
    (hs : (f.buildPlaces setting build index places).Gives s f' s') :
    Seals f s.registry f' s'.registry :=
  buildPlaces_run (R := fun f s f' s' => Seals f s.registry f' s'.registry)
    (fun f s => .refl f s.registry) Seals.trans (addPlace_seals hb) hs

theorem hoistTuple_escapes {places : List Schema}
    (hs : (f.hoistTuple build places).Gives s f' s') : Escapes f s.registry f' s'.registry := by
  obtain ⟨base, made, s₁, h, s₂, g, hm, hh, hg, rfl⟩ := hoistTuple_cases hs
  have hfresh := made_fresh hm
  obtain ⟨hgrows, hsealed⟩ := hb.made hm hh ⟨hfresh.1, hfresh.2, hfresh.3⟩
  exact .again hgrows ((asTuple_same h).sealed hsealed) (hb _ _ _ _ hg) rfl (·.restart rfl)

/-- **What `items` says makes a definition of a tuple** that has no name. -/
theorem buildItems_escapes (hf : f.Telling s.registry) (hawaits : f.Awaits)
    (hs : (f.buildItems setting build).Gives s f' s') : Escapes f s.registry f' s'.registry := by
  rcases buildItems_cases hs with ⟨hnone, rfl, rfl⟩ | ⟨item, hitem, harray⟩ |
    ⟨places, -, ⟨hnamed, htuple⟩ | ⟨-, htuple⟩⟩
  · refine ⟨.refl _, rfl, id, fun _ => hf, fun _ htuple => (hawaits htuple).elim id ?_⟩
    rintro ⟨places, hplaces⟩
    exact absurd (hnone.symm.trans hplaces) (by simp)
  · exact buildArray_escapes hb hf hawaits hitem harray
  · have h := ((markTuple_same f _).seals s.registry).trans (buildPlaces_seals hb htuple)
    have hfalse : f.named ≠ false := by rw [hnamed]; simp
    exact ⟨h.grows, h.named, h.sealed, fun hn => absurd hn hfalse, fun hn => absurd hn hfalse⟩
  · exact hoistTuple_escapes hb htuple

theorem buildExtraItems_seals {c? : Option Schema}
    (hs : (f.buildExtraItems setting build c?).Gives s f' s') :
    Seals f s.registry f' s'.registry := by
  obtain ⟨t, -, ⟨c, rfl, -, base, made, s₁, h, s₂, g, hm, hh, hg, rfl⟩ | ⟨-, g, hg, rfl⟩⟩ :=
    buildExtraItems_cases hs
  · obtain ⟨hgrows, hsealed⟩ := hb.made hm hh (made_fresh hm)
    obtain ⟨hfresh, -, hnamed⟩ := extraItemsPlace_facts
      (f.mapExtraItem (.referenceTo h.name)) (.referenceTo h.name) t.array
    obtain ⟨hgrows', hg, hmodel⟩ := hb.below hfresh hnamed hg
    obtain ⟨hg, hmodel⟩ := everywhere_addExtra hg hmodel hsealed
    have hrefer : Seals f s₂.registry (f.mapExtraItem (.referenceTo h.name)) s₂.registry :=
      seals_of_schema _ rfl rfl rfl rfl
    exact ((seals_of_grows f hgrows).trans hrefer).trans
      ((setExtraItems_takes _ _).seals hgrows' hg hmodel)
  · obtain ⟨hfresh, -, hnamed⟩ := extraItemsPlace_facts f (c?.getD {}) t.array
    obtain ⟨hgrows, hg, hmodel⟩ := hb.below hfresh hnamed hg
    exact (setExtraItems_takes f g).seals hgrows hg hmodel

theorem buildAdditionalItems_seals
    (hs : (f.buildAdditionalItems setting build).Gives s f' s') :
    Seals f s.registry f' s'.registry := by
  rcases buildAdditionalItems_cases hs with ⟨-, rfl, rfl⟩ | ⟨extra, -, ⟨-, rfl, rfl⟩ |
    ⟨-, -, hitems⟩⟩
  · exact .refl f' _
  · exact (allowItems_same f extra).seals _
  · exact ((allowItems_same f extra).seals _).trans (buildExtraItems_seals hb hitems)

/-! ## Schemas -/

/-- A definition that is a reference lets no tuple in. -/
theorem buildReference_seals (hs : (f.buildReference setting build).Gives s f' s') :
    s.registry.Grows s'.registry ∧ f'.named = f.named ∧ (f.Sealed → f'.Sealed) := by
  rcases buildReference_cases hs with ⟨shape, target, g, -, hg, rfl⟩ | ⟨g, hg, rfl⟩
  · have h := hb _ _ _ _ hg
    have hsealed := h.sealed (Fresh.sealed ⟨rfl, rfl, rfl⟩)
    refine ⟨h.grows, rfl, fun hf => ⟨hsealed.parts, fun n m hm => ?_⟩⟩
    rcases Assoc.mem_mergeSorted hm with hm | hm
    · exact hf.extras n m hm
    · exact hsealed.extras n m hm
  · obtain ⟨hgrows, hg, hmodel⟩ := hb.below ⟨rfl, rfl, rfl⟩ rfl hg
    have hstep : Same f (f.mapType fun _ =>
        soleBranchType (resolverAt setting f s).modelTypeName) :=
      ⟨rfl, rfl, rfl, rfl, rfl, rfl, fun ht => ht, rfl, rfl, fun _ hp => hp⟩
    have h := (hstep.seals s.registry).trans ((addBranch_takes _ g).seals hgrows hg hmodel)
    exact ⟨h.grows, h.named, h.sealed⟩

/-- What a step of building does once the branches are built. -/
theorem finish_escapes {f₃ f₄ f₅ : Frame} {s₃ s₄ s₅ : Session} {t t' : TypeInfo}
    {required : Bool} (hf : f.Telling s.registry)
    (hextra : ((f.setType t t.baseType).buildAdditionalProperties setting build).Gives s f₃ s₃)
    (ht' : (resolverAt setting f₃ s₃).resolve f₃.schema (!f₃.named) required = .ok t')
    (hprops : ((f₃.pointMap.retype t').buildProperties setting build).Gives s₃ f₄ s₄)
    (hadd : (f₄.buildAdditionalItems setting build).Gives s₄ f₅ s₅)
    (hitems : (f₅.buildItems setting build).Gives s₅ f' s') :
    Escapes f s.registry f' s'.registry := by
  have h₃ := ((setType_same f t t.baseType).seals s.registry).trans
    (buildAdditionalProperties_seals hb hextra)
  have hretype : Same f₃.pointMap (f₃.pointMap.retype t') := setType_same _ _ _
  have h₃' := (pointMap_seals f₃ s₃.registry).trans (hretype.seals s₃.registry)
  have hparts := (buildProperties_seals hb hprops).trans (buildAdditionalItems_seals hb hadd)
  have htold := h₃.telling hf
  -- the type tells of the reference or of the places that the schema still has
  have hawaits : f₅.Awaits := by
    intro htuple
    have hkept := buildParts_retains hprops hadd
    rw [hkept.type] at htuple
    obtain ⟨-, -, href, -⟩ := pointMap_facts f₃
    rcases htold.tuple ht' htuple with hsome | ⟨places, hplaces⟩
    · left
      rw [hkept.reference, hretype.reference, href]
      exact hsome
    · obtain ⟨extra, hschema⟩ := hkept.schema
      refine Or.inr ⟨places, ?_⟩
      rw [hschema]
      show (f₃.pointMap.retype t').schema.items = _
      rw [hretype.schema, pointMap_schema]
      exact hplaces
  have h := h₃.trans (h₃'.trans hparts)
  exact h.escapes (buildItems_escapes hb (h.telling hf) hawaits hitems)

/-- **A step of building lets no tuple in**, if building the frames below lets none in. -/
theorem buildStep_escapes (hs : (f.buildStep setting build).Gives s f' s') :
    Escapes f s.registry f' s'.registry := by
  obtain ⟨k, s₀, hreg, hcases⟩ := buildStep_cases hs
  obtain ⟨hplace, hschema, -, hextras, href, -, -, hparts, -⟩ := start_facts setting f k
  have hnamed : (f.start setting k).named = f.named := congrArg Place.named hplace
  have hsealed : f.Sealed → (f.start setting k).Sealed := by
    intro hf
    refine ⟨?_, ?_⟩
    · rw [hparts]
      exact hf.parts
    · rw [hextras]
      exact hf.extras
  have htelling : (f.start setting k).Telling s.registry := Or.inl (by rw [href, hschema])
  rw [← hreg] at htelling ⊢
  rcases hcases with ⟨hn, -, hr⟩ | ⟨-, f₁, f₂, s₂, t, f₃, s₃, t', f₄, s₄, f₅, s₅, required,
    hlift, hall, -, hextra, ht', hprops, hadd, hitems⟩
  · -- only a frame with a name is built as a reference, so nothing is claimed of its type
    obtain ⟨hgrows, hnamed', hsealed'⟩ := buildReference_seals hb hr
    have hfalse : f.named ≠ false := by rw [hn]; simp
    exact ⟨hgrows, hnamed'.trans hnamed, hsealed' ∘ hsealed, fun hn => absurd hn hfalse,
      fun hn => absurd hn hfalse⟩
  · have h₂ := ((liftBranch_seals hlift).trans ((fillContainer_same f₁).seals _)).trans
      (buildAllOf_seals hb hall)
    have h := h₂.escapes (finish_escapes hb (h₂.telling htelling) hextra ht' hprops hadd hitems)
    exact ⟨h.grows, h.named.trans hnamed, h.sealed ∘ hsealed, fun hn => h.telling (hnamed ▸ hn),
      fun hn => h.escaped (hnamed ▸ hn)⟩

omit hb in
/-- **Building lets no tuple in**: below the model that is built and below all that are taken out,
a tuple refers to its definition. -/
theorem build_escapes (hs : (f.build setting).Gives s f' s') :
    Escapes f s.registry f' s'.registry :=
  buildIn_induction setting
    (R := fun f s f' s' => Escapes f s.registry f' s'.registry)
    (fun _ ih _ _ _ _ hs => buildStep_escapes ih hs) f s f' s' hs

end Steps

end Frame

end KclModels
