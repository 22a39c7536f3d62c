import KclModels.Proofs.Build.Flattening
import KclModels.Proofs.Build.Nesting
import KclModels.Proofs.Build.Origins
import KclModels.Proofs.Build.SharingOut
import KclModels.Proofs.Build.Tuples

/-!
# Where attributes come from

A schema declares its properties, the places of a tuple and the items past them. Its branches and the
definition that it refers to declare more, and all of that it offers. Building spreads these over a
model and its branches, and on the way puts references to new definitions in place of parts of the
schema, or of all of it. But what is left of a schema offers no more than the schema did, now and when
more definitions are made. So each property of a model, or of a branch of it, is backed by something
that the schema offers.
-/

namespace KclModels

variable {tr : Text.Transliteration}

namespace Schema

/-- The array of the items past the places of a tuple. -/
def restArray (c : Schema) : Schema := { types := ["array"], items := some (.single c.extraItem) }

/-- What the schema itself declares. -/
def declared (c : Schema) : List (String × Schema) :=
  c.properties ++ slots 0 (c.tupleItems?.getD []) ++
    (if c.hasAdditionalItems then [("rest", c.restArray)] else [])

end Schema

/-- The attribute that holds the items past the places of a tuple, as far as its checks go. -/
def Model.restModel (m : Model) : Model := { name := "rest", items := some (m.additionalItems.getD {}) }

namespace Registry

variable {r r' : Registry} {b c c' d : Schema} {e : String × Schema} {m p p' : Model} {n : String}

/-- The schema declares it, or a branch does, or the definition that the schema refers to. -/
inductive Offers (r : Registry) : Schema → String × Schema → Prop
  | own {c : Schema} {e : String × Schema} : e ∈ c.declared → Offers r c e
  | branch {b c : Schema} {e : String × Schema} : b ∈ c.allOf → Offers r b e → Offers r c e
  | reference {c d : Schema} {n : String} {e : String × Schema} : c.referenceName = some n →
      r.get? n = some d → Offers r d e → Offers r c e

/-- The model is that of an attribute that the schema offers. -/
def Backs (r : Registry) (c : Schema) (p : Model) : Prop := ∃ e, r.Offers c e ∧ p.ChecksFor e

/-- Whatever the one schema backs, the other backs as well, also when more definitions are made. -/
def Covers (r : Registry) (c' c : Schema) : Prop :=
  ∀ r', r.Grows r' → ∀ p, r'.Backs c' p → r'.Backs c p

theorem Offers.mono (h : r.Offers c e) (hr : r.Grows r') : r'.Offers c e := by
  induction h with
  | own he => exact .own he
  | branch hb _ ih => exact .branch hb ih
  | reference hn hd _ ih => exact .reference hn (hr.keeps _ _ hd) ih

theorem Backs.mono (h : r.Backs c p) (hr : r.Grows r') : r'.Backs c p := by
  obtain ⟨e, he, hp⟩ := h
  exact ⟨e, he.mono hr, hp⟩

theorem Backs.same (h : r.Backs c p) (hname : p'.name = p.name) (hchecks : p'.checks = p.checks) :
    r.Backs c p' := by
  obtain ⟨e, he, hp⟩ := h
  refine ⟨e, he, hname.trans hp.name, fun hnests => ?_⟩
  rw [hchecks]
  exact hp.checks hnests

theorem Backs.branch (hb : b ∈ c.allOf) (h : r.Backs b p) : r.Backs c p := by
  obtain ⟨e, he, hp⟩ := h
  exact ⟨e, .branch hb he, hp⟩

theorem Backs.reference (hn : c.referenceName = some n) (hd : r.get? n = some d)
    (h : r.Backs d p) : r.Backs c p := by
  obtain ⟨e, he, hp⟩ := h
  exact ⟨e, .reference hn hd he, hp⟩

theorem Backs.cases (h : r.Backs c p) : (∃ e ∈ c.declared, p.ChecksFor e) ∨
    (∃ b ∈ c.allOf, r.Backs b p) ∨
    ∃ n d, c.referenceName = some n ∧ r.get? n = some d ∧ r.Backs d p := by
  obtain ⟨e, he, hp⟩ := h
  cases he with
  | own he => exact .inl ⟨e, he, hp⟩
  | branch hb he => exact .inr (.inl ⟨_, hb, e, he, hp⟩)
  | reference hn hd he => exact .inr (.inr ⟨_, _, hn, hd, e, he, hp⟩)

/-- What the definition at the end of a chain of references backs, its start backs. -/
theorem Backs.leads {reference : String} (h : r.Leads reference d) :
    ∀ {c}, c.reference = some reference → r.Backs d p → r.Backs c p := by
  induction h with
  | stop hn hd _ => exact fun href hp => .reference (Schema.referenceName_eq href hn) hd hp
  | next hn hd hnext _ ih =>
    exact fun href hp => .reference (Schema.referenceName_eq href hn) hd (ih hnext hp)

theorem Covers.refl (r : Registry) (c : Schema) : r.Covers c c := fun _ _ _ h => h

theorem Covers.trans (h : r.Covers b c) (h' : r.Covers c d) : r.Covers b d :=
  fun r' hr p hp => h' r' hr p (h r' hr p hp)

theorem Covers.mono (h : r.Covers c' c) (hr : r.Grows r') : r'.Covers c' c :=
  fun r'' hr' p hp => h r'' (hr.trans hr') p hp

theorem covers_branch (r : Registry) (hb : b ∈ c.allOf) : r.Covers b c := fun _ _ _ hp => .branch hb hp

theorem covers_of_same (hdeclared : c'.declared = c.declared) (hall : c'.allOf = c.allOf)
    (href : c'.referenceName = c.referenceName) : r.Covers c' c := by
  intro r' hr p hp
  rcases hp.cases with ⟨e, he, hp⟩ | ⟨b, hb, hp⟩ | ⟨n, d, hn, hd, hp⟩
  · exact ⟨e, .own (hdeclared ▸ he), hp⟩
  · exact .branch (hall ▸ hb) hp
  · exact .reference (href ▸ hn) hd hp

/-- A reference backs what the definition backs that it names. -/
theorem Backs.referenceTo (h : r.Backs (.referenceTo n) p) : ∃ d, r.get? n = some d ∧ r.Backs d p := by
  rcases h.cases with ⟨e, he, -⟩ | ⟨b, hb, -⟩ | ⟨n', d, hn, hd, hp⟩
  · exact absurd he List.not_mem_nil
  · exact absurd hb List.not_mem_nil
  · exact ⟨d, Reference.eq_of_name?_toDefinition hn ▸ hd, hp⟩

theorem covers_referenceTo (hd : r.get? n = some d) : r.Covers (.referenceTo n) d := by
  intro r' hr p hp
  obtain ⟨d', hd', hp⟩ := hp.referenceTo
  obtain rfl := Option.some.inj ((hr.keeps n d hd).symm.trans hd')
  exact hp

theorem covers_of_referenceName (hn : c.referenceName = some n) : r.Covers (.referenceTo n) c := by
  intro r' hr p hp
  obtain ⟨d, hd, hp⟩ := hp.referenceTo
  exact .reference hn hd hp

/-- Another schema may take the place of a branch if it backs no more. -/
theorem Covers.setBranch (h : r.Covers c' c) (hb : r.Covers b c) (i : Nat) :
    r.Covers { c' with allOf := c'.allOf.set i b } c := by
  intro r' hr p hp
  rcases hp.cases with ⟨e, he, hp⟩ | ⟨b', hb', hp⟩ | ⟨n, d, hn, hd, hp⟩
  · exact h r' hr p ⟨e, .own he, hp⟩
  · rcases List.mem_or_eq_of_mem_set hb' with hb' | heq
    · exact h r' hr p (.branch hb' hp)
    · exact hb r' hr p (heq ▸ hp)
  · exact h r' hr p (.reference hn hd hp)

/-- A reference may take the place of an inline object that the items past the places are. -/
theorem covers_extraItem (hinline : c.extraItem.isInline = true) (hallows : c.hasAdditionalItems = true)
    (hsame : c' = { c with additionalItems := c'.additionalItems }) : r.Covers c' c := by
  intro r' hr p hp
  rcases hp.cases with ⟨e, he, hp⟩ | ⟨b, hb, hp⟩ | ⟨n, d, hn, hd, hp⟩
  · rw [hsame, Schema.declared, List.mem_append] at he
    rcases he with he | he
    · exact ⟨e, .own (List.mem_append_left _ he), hp⟩
    · refine ⟨("rest", c.restArray), .own (List.mem_append_right _ ?_), ?_, fun hnests => ?_⟩
      · rw [hallows]
        exact List.mem_singleton_self _
      · split at he
        · rw [hp.name, List.mem_singleton.mp he]
        · exact absurd he List.not_mem_nil
      · -- the array of inline objects is none of those that are checked
        cases hnests with
        | leaf ha => exact absurd ha.items (by simp [Schema.restArray])
        | map hm => exact absurd hm.items (by simp [Schema.restArray])
        | array hm hitem =>
          obtain rfl : c.extraItem = _ := by simpa [Schema.restArray] using hm.items
          exact absurd (hinline.symm.trans hitem.isInline) (by decide)
  · rw [hsame] at hb
    exact .branch hb hp
  · rw [hsame] at hn
    exact .reference hn hd hp

end Registry

namespace Model

variable {r r' : Registry} {c c' : Schema} {m m' : Model}

/-- The properties are backed, and so are those of the definition that the model refers to. -/
structure Backed (r : Registry) (c : Schema) (m : Model) : Prop where
  properties : ∀ p ∈ m.properties, r.Backs c p
  reference : ∀ n, m.reference = some n → r.Covers (.referenceTo n) c

/-- All that the model may come to declare is backed by the schema. -/
structure Drawn (r : Registry) (c : Schema) (m : Model) : Prop where
  own : m.Backed r c
  branches : ∀ b ∈ m.allOf, b.Backed r c
  rest : m.hasAdditionalItems = true → r.Backs c m.restModel

/-- The models declare the same. -/
structure SameStock (m m' : Model) : Prop where
  properties : m'.properties = m.properties
  allOf : m'.allOf = m.allOf
  reference : m'.reference = m.reference
  extraItems : m'.additionalItems = m.additionalItems
  allowsItems : m'.hasAdditionalItems = m.hasAdditionalItems

theorem SameStock.trans {m'' : Model} (h : m.SameStock m') (h' : m'.SameStock m'') :
    m.SameStock m'' where
  properties := h'.properties.trans h.properties
  allOf := h'.allOf.trans h.allOf
  reference := h'.reference.trans h.reference
  extraItems := h'.extraItems.trans h.extraItems
  allowsItems := h'.allowsItems.trans h.allowsItems

theorem Backed.mono (h : m.Backed r c) (hr : r.Grows r') (hc : r'.Covers c c') : m.Backed r' c' where
  properties p hp := hc r' (.refl r') p ((h.properties p hp).mono hr)
  reference n hn := ((h.reference n hn).mono hr).trans hc

theorem Drawn.mono (h : m.Drawn r c) (hr : r.Grows r') (hc : r'.Covers c c') : m.Drawn r' c' where
  own := h.own.mono hr hc
  branches b hb := (h.branches b hb).mono hr hc
  rest hrest := hc r' (.refl r') _ ((h.rest hrest).mono hr)

theorem Drawn.same (h : m.Drawn r c) (hs : m.SameStock m') : m'.Drawn r c where
  own := ⟨hs.properties ▸ h.own.properties, hs.reference ▸ h.own.reference⟩
  branches := hs.allOf ▸ h.branches
  rest hrest := by
    rw [hs.allowsItems] at hrest
    rw [restModel, hs.extraItems]
    exact h.rest hrest

end Model

namespace Frame

open Build Model

variable {setting : Setting} {build : Frame → Build Frame} {s s' s₁ s₂ : Session}
variable {f f' g hoisted inner made : Frame} {r r' : Registry} {b c d : Schema} {n base : String}

/-- What is left of the schema offers no more than `c`, and `c` backs all that was built. -/
structure Draws (f : Frame) (r : Registry) (c : Schema) : Prop where
  schema : r.Covers f.schema c
  model : f.model.Drawn r c

/-- The later frame declares the same, and so does what is left of its schema. -/
structure Resembles (f f' : Frame) : Prop extends f.model.SameStock f'.model where
  declared : f'.schema.declared = f.schema.declared
  composed : f'.schema.allOf = f.schema.allOf
  refers : f'.schema.referenceName = f.schema.referenceName

theorem Resembles.trans {f'' : Frame} (h : Resembles f f') (h' : Resembles f' f'') :
    Resembles f f'' where
  toSameStock := h.toSameStock.trans h'.toSameStock
  declared := h'.declared.trans h.declared
  composed := h'.composed.trans h.composed
  refers := h'.refers.trans h.refers

theorem resembles_of_schema (hm : f.model.SameStock f'.model) (h : f'.schema = f.schema) :
    Resembles f f' := ⟨hm, by rw [h], by rw [h], by rw [h]⟩

theorem Draws.mono (h : f.Draws r c) (hr : r.Grows r') (hc : r'.Covers c d) : f.Draws r' d :=
  ⟨(h.schema.mono hr).trans hc, h.model.mono hr hc⟩

theorem Draws.grown (h : f.Draws r c) (hr : r.Grows r') : f.Draws r' c := h.mono hr (.refl r' c)

theorem Draws.resembling (h : f.Draws r c) (hf : Resembles f f') : f'.Draws r c where
  schema := (Registry.covers_of_same hf.declared hf.composed hf.refers).trans h.schema
  model := h.model.same hf.toSameStock

/-- The frames below are drawn from their schemas. -/
def BuildsDrawing (build : Frame → Build Frame) : Prop :=
  ∀ g s g' s', g.model = {} → (build g).Gives s g' s' → g'.Draws s'.registry g.schema

/-! ## Changes -/

theorem fillContainer_resembles (f : Frame) : Resembles f f.fillContainer := by
  refine resembles_of_schema ?_ (fillContainer_schema f)
  rw [fillContainer_model]
  exact ⟨rfl, rfl, rfl, rfl, rfl⟩

theorem setType_resembles (f : Frame) (t : TypeInfo) (isBase : Bool) :
    Resembles f (f.setType t isBase) := resembles_of_schema ⟨rfl, rfl, rfl, rfl, rfl⟩ rfl

theorem retype_resembles (f : Frame) (t : TypeInfo) : Resembles f (f.retype t) :=
  setType_resembles f _ _

theorem pointMap_resembles (f : Frame) : Resembles f f.pointMap := by
  refine resembles_of_schema ?_ pointMap_schema
  unfold pointMap
  split <;> exact ⟨rfl, rfl, rfl, rfl, rfl⟩

theorem addExtra_resembles (f g : Frame) : Resembles f (f.addExtra g) :=
  resembles_of_schema ⟨rfl, rfl, rfl, rfl, rfl⟩ rfl

theorem deny_resembles (f : Frame) (extra : Extra Schema) : Resembles f (f.deny extra) :=
  resembles_of_schema ⟨rfl, rfl, rfl, rfl, rfl⟩ rfl

theorem markExtra_resembles (f : Frame) (extra : Extra Schema) (declared : Bool) :
    Resembles f ((f.deny extra).markExtra declared) := by
  refine (deny_resembles f extra).trans ?_
  generalize f.deny extra = g
  cases declared <;> exact resembles_of_schema ⟨rfl, rfl, rfl, rfl, rfl⟩ rfl

theorem allowAny_resembles (f : Frame) (declared : Bool) : Resembles f (f.allowAny declared) := by
  unfold allowAny
  split <;> exact resembles_of_schema ⟨rfl, rfl, rfl, rfl, rfl⟩ rfl

theorem setValue_resembles (f g : Frame) : Resembles f (f.setValue g) :=
  resembles_of_schema ⟨rfl, rfl, rfl, rfl, rfl⟩ rfl

theorem setStore_resembles (f g : Frame) : Resembles f (f.setStore g) :=
  resembles_of_schema ⟨rfl, rfl, rfl, rfl, rfl⟩ rfl

theorem mapExtraValue_resembles (f : Frame) (c : Schema) : Resembles f (f.mapExtraValue c) :=
  ⟨⟨rfl, rfl, rfl, rfl, rfl⟩, rfl, rfl, rfl⟩

theorem setElement_resembles (f element : Frame) (item : Schema) (p : Polymorphism) :
    Resembles f ((f.markElements item p).setElement element) := by
  unfold markElements
  split <;> exact resembles_of_schema ⟨rfl, rfl, rfl, rfl, rfl⟩ rfl

/-- A branch gives way to one that offers no more. -/
theorem Draws.mapBranch (h : f.Draws r c) (hb : r.Covers b c) (index : Nat) :
    (f.mapBranch index b).Draws r c := ⟨h.schema.setBranch hb index, h.model⟩

theorem Draws.addBranch (h : f.Draws r c) (hg : g.model.Backed r c) : (f.addBranch g).Draws r c := by
  refine ⟨h.schema, ⟨h.model.own.properties, h.model.own.reference⟩, fun b hb => ?_, h.model.rest⟩
  rcases List.mem_append.mp hb with hb | hb
  · exact h.model.branches b hb
  · exact List.mem_singleton.mp hb ▸ hg

/-- A frame that is filled in is drawn from its schema. -/
theorem start_draws (hf : f.model = {}) (k : Constraints) (r : Registry) :
    (f.start setting k).Draws r f.schema where
  schema := .refl r f.schema
  model := {
    own := {
      properties := fun p hp => by
        have hnil : (f.start setting k).model.properties = f.model.properties := rfl
        rw [hnil, hf] at hp
        exact absurd hp List.not_mem_nil
      reference := fun n hn => Registry.covers_of_referenceName hn }
    branches := fun b hb => by
      have hnil : (f.start setting k).model.allOf = f.model.allOf := rfl
      rw [hnil, hf] at hb
      exact absurd hb List.not_mem_nil
    rest := fun hon => by
      have hoff : (f.start setting k).model.hasAdditionalItems = f.model.hasAdditionalItems := rfl
      rw [hoff, hf] at hon
      exact absurd hon (by decide) }

/-! ## Steps -/

section Steps

variable (hb : BuildsBelow setting build) (ih : BuildsDrawing build)
include hb ih

/-- A frame that was built once more as a reference is drawn from what was made a definition. -/
theorem draws_of_rebuilt (hm : (hoist f base d).Gives s made s₁) (hh : (build g).Gives s₁ hoisted s₂)
    (hg : g.Fresh) (hname : g.name = made.name)
    (hi : (build (f.referTo hoisted.name).restart).Gives s₂ inner s') (hd : s.registry.Covers d c) :
    inner.Draws s'.registry c := by
  obtain ⟨hgrows, hstored, -⟩ := stored_of_hoist hb hm hh hg hname
  have hgrows' := (hb _ _ _ _ hi).adds
  have hcovers := (Registry.covers_referenceTo hstored).trans (hd.mono hgrows)
  exact (ih _ _ _ _ rfl hi).mono (.refl _) (hcovers.mono hgrows')

/-- **A branch is drawn from its schema**, or from the definition that was made of that. -/
theorem buildBranch_draws (hf : f.Draws s.registry c) (hbranch : s.registry.Covers b c) {index : Nat}
    {array : Bool} (h : (f.buildBranch setting build index b).Gives s (f', array) s') :
    s.registry.Grows s'.registry ∧ f'.Draws s'.registry c := by
  obtain ⟨t, -, ⟨-, base, made, s₁, hoisted, s₂, composed, hm, hh, hc, rfl⟩ | ⟨-, composed, hc, rfl⟩⟩ :=
    buildBranch_cases h
  · obtain ⟨hgrows, hstored, -⟩ := stored_of_hoist hb hm hh (made_fresh hm) rfl
    have hgrows' := (hb _ _ _ _ hc).adds
    have hleft := ((Registry.covers_referenceTo hstored).trans (hbranch.mono hgrows)).mono hgrows'
    have hcomposed := ((ih _ _ _ _ rfl hc).mono (.refl _) hleft).resembling
      (addExtra_resembles composed hoisted)
    exact ⟨hgrows.trans hgrows',
      ((hf.grown (hgrows.trans hgrows')).mapBranch hleft index).addBranch hcomposed.model.own⟩
  · have hgrows := (hb _ _ _ _ hc).adds
    have hcomposed := ((ih _ _ _ _ rfl hc).mono (.refl _) (hbranch.mono hgrows)).resembling
      (pointMap_resembles composed)
    exact ⟨hgrows, (hf.grown hgrows).addBranch hcomposed.model.own⟩

theorem buildBranches_draws {branches : List Schema} : ∀ {index : Nat} {arrays : List Bool}
    {f f' : Frame} {s s' : Session}, f.Draws s.registry c →
    (∀ b ∈ branches, s.registry.Covers b c) →
    (f.buildBranches setting build index branches).Gives s (f', arrays) s' →
    f'.Draws s'.registry c := by
  induction branches with
  | nil =>
    intro index arrays f f' s s' hf _ h
    simp only [buildBranches, gives_pure, Prod.mk.injEq] at h
    obtain ⟨⟨rfl, -⟩, rfl⟩ := h
    exact hf
  | cons branch rest ihl =>
    intro index arrays f f' s s' hf hbranches h
    obtain ⟨f₁, array, s₁, arrays', h₁, h₂⟩ := buildBranches_cons_cases h
    obtain ⟨hbranch, hrest⟩ := List.forall_mem_cons.mp hbranches
    obtain ⟨hgrows, hf₁⟩ := buildBranch_draws hb ih hf hbranch h₁
    exact ihl hf₁ (fun b hb => (hrest b hb).mono hgrows) h₂

theorem buildAllOf_draws (hf : f.Draws s.registry c)
    (h : (f.buildAllOf setting build).Gives s f' s') : f'.Draws s'.registry c := by
  rcases buildAllOf_cases h with ⟨-, rfl, rfl⟩ | ⟨-, arrays, s₁, hbranches, hreg⟩
  · exact hf
  · rw [hreg]
    exact buildBranches_draws hb ih hf
      (fun b hb => (Registry.covers_branch _ hb).trans hf.schema) hbranches

theorem buildAdditionalProperties_draws (hf : f.Draws s.registry c)
    (h : (f.buildAdditionalProperties setting build).Gives s f' s') : f'.Draws s'.registry c := by
  -- whatever resembles the frame draws on the same schema, also once more is registered
  have hkept : ∀ {g : Frame}, Resembles f g → g.Draws s'.registry c := fun hg =>
    (hf.resembling hg).grown (buildAdditionalProperties_grows hb h)
  rcases buildAdditionalProperties_cases h with ⟨-, rfl, rfl⟩ | ⟨extra, -, ⟨-, rfl, rfl⟩ | ⟨rfl, h⟩ |
    ⟨value, rfl, ⟨-, h⟩ | ⟨-, -, h⟩ | ⟨-, -, h⟩⟩⟩
  · exact hf
  · exact hkept (deny_resembles f extra)
  · obtain ⟨child, -, rfl⟩ := buildAnyValues_cases h
    exact hkept (((markExtra_resembles f _ _).trans (allowAny_resembles _ _)).trans
      (setValue_resembles _ child))
  · obtain ⟨child, -, rfl⟩ := buildMap_cases h
    exact hkept (((markExtra_resembles f _ _).trans (mapExtraValue_resembles _ _)).trans
      (setValue_resembles _ child))
  · obtain ⟨_, made, s₁, hoisted, s₂, inner, hm, hh, hi, rfl⟩ := hoistExtended_cases h
    have hmarked := hf.resembling (markExtra_resembles f (.schema value) true)
    exact (draws_of_rebuilt hb ih hm hh (made_fresh hm) rfl hi hmarked.schema).resembling
      (addExtra_resembles inner hoisted)
  · obtain ⟨t, -, ⟨-, _, _, _, hoisted, _, child, _, -, -, -, rfl⟩ | ⟨-, child, _, -, rfl⟩⟩ :=
      buildExtraValues_cases h
    · have hrefers : Resembles ((f.deny (.schema value)).markExtra true)
          (((f.deny (.schema value)).markExtra true).referValue hoisted.name) :=
        (mapExtraValue_resembles _ _).trans (resembles_of_schema ⟨rfl, rfl, rfl, rfl, rfl⟩ rfl)
      exact hkept (((markExtra_resembles f _ _).trans hrefers).trans (setStore_resembles _ _))
    · exact hkept ((markExtra_resembles f _ _).trans (setStore_resembles _ child))

/-! ### Properties -/

omit ih in
theorem buildProperty_draws (hf : f.Draws s.registry c) {position : Nat} {e : String × Schema}
    (he : e ∈ f.schema.declared) (h : (f.buildProperty setting build position e.1 e.2).Gives s f' s') :
    f'.Draws s'.registry c ∧ f'.schema = f.schema := by
  obtain ⟨p, hchecks, hp⟩ := buildProperty_checksFor hb h
  -- hoisted or not, the property is all that the frame gets: the rest is as it was
  have hkept : s.registry.Grows s'.registry ∧ f'.schema = f.schema ∧ f'.model.allOf = f.model.allOf ∧
      f'.model.reference = f.model.reference ∧ f'.model.hasAdditionalItems = f.model.hasAdditionalItems ∧
      f'.model.restModel = f.model.restModel := by
    clear hp
    obtain ⟨t, -, ⟨-, base, made, s₁, hoisted, s₂, required, property, property', hm, hh, hi, -, rfl⟩ |
      ⟨-, required, property, property', hi, -, rfl⟩⟩ := buildProperty_cases h
    · obtain ⟨hgrows, -, -⟩ := stored_of_hoist hb hm hh
        (show (made.within f e.1).Fresh from ⟨(made_fresh hm).model, (made_fresh hm).dependencies,
          (made_fresh hm).extras⟩) rfl
      exact ⟨hgrows.trans (hb _ _ _ _ hi).adds, rfl, rfl, rfl, rfl, rfl⟩
    · exact ⟨(hb _ _ _ _ hi).adds, rfl, rfl, rfl, rfl, rfl⟩
  obtain ⟨hgrows, hschema, hall, href, hallows, hrest⟩ := hkept
  have hf' := hf.grown hgrows
  refine ⟨⟨hschema ▸ hf'.schema, ⟨fun q hq => ?_, href ▸ hf'.model.own.reference⟩,
    hall ▸ hf'.model.branches, fun hon => hrest ▸ hf'.model.rest (hallows ▸ hon)⟩, hschema⟩
  rw [hp] at hq
  rcases List.mem_append.mp hq with hq | hq
  · exact hf'.model.own.properties q hq
  · obtain rfl := List.mem_singleton.mp hq
    exact hf'.schema _ (.refl _) q ⟨e, .own he, hchecks⟩

omit ih in
theorem buildPropertyList_draws {properties : List (String × Schema)} : ∀ {position : Nat}
    {f f' : Frame} {s s' : Session}, f.Draws s.registry c →
    (∀ e ∈ properties, e ∈ f.schema.declared) →
    (f.buildPropertyList setting build position properties).Gives s f' s' →
    f'.Draws s'.registry c := by
  induction properties with
  | nil =>
    intro position f f' s s' hf _ h
    rw [buildPropertyList, gives_pure] at h
    obtain ⟨rfl, rfl⟩ := h
    exact hf
  | cons e rest ihl =>
    intro position f f' s s' hf hproperties h
    obtain ⟨f₁, s₁, h₁, h₂⟩ := buildPropertyList_cons_cases h
    obtain ⟨he, hrest⟩ := List.forall_mem_cons.mp hproperties
    obtain ⟨hf₁, hschema⟩ := buildProperty_draws hb hf he h₁
    exact ihl hf₁ (hschema ▸ hrest) h₂

omit ih in
theorem buildProperties_draws (hf : f.Draws s.registry c)
    (h : (f.buildProperties setting build).Gives s f' s') : f'.Draws s'.registry c := by
  obtain ⟨f₁, hlist, rfl⟩ := buildProperties_cases h
  have hf₁ := buildPropertyList_draws hb hf
    (fun e he => List.mem_append_left _ (List.mem_append_left _ he)) hlist
  refine ⟨hf₁.schema, ⟨fun p hp => ?_, hf₁.model.own.reference⟩, hf₁.model.branches, hf₁.model.rest⟩
  exact hf₁.model.own.properties p (mem_sortBy.mp hp)

/-! ### Items -/

omit hb ih in
/-- The items past the places are offered with the conditions of their schema. -/
theorem backs_rest {p : Model} (hallows : c.hasAdditionalItems = true)
    (hp : c.extraItem.Nests → p.constraints.conditions = c.extraItem.conditions) (m : Model)
    (hm : m.additionalItems = some p) : r.Backs c m.restModel := by
  refine ⟨("rest", c.restArray), .own (List.mem_append_right _ ?_), rfl, fun hnests check hcheck => ?_⟩
  · rw [hallows]
    exact List.mem_singleton_self _
  · have hitem : c.extraItem.Nests := by
      cases hnests with
      | leaf ha => exact absurd ha.items (by simp [Schema.restArray])
      | map hc => exact absurd hc.items (by simp [Schema.restArray])
      | array hc hitem =>
        obtain rfl : c.extraItem = _ := by simpa [Schema.restArray] using hc.items
        exact hitem
    have hsame : m.restModel.checks = c.restArray.checks := by
      rw [Model.checks, Model.restModel, hm, Option.getD_some, Option.map_some, hp hitem]
      rfl
    rwa [hsame]

omit ih in
theorem buildAdditionalItems_draws (hf : f.Draws s.registry c)
    (h : (f.buildAdditionalItems setting build).Gives s f' s') : f'.Draws s'.registry c := by
  have hgrows := buildAdditionalItems_grows hb h
  rcases buildAdditionalItems_cases h with ⟨-, rfl, rfl⟩ | ⟨extra, hextra, ⟨hoff, rfl, rfl⟩ |
    ⟨hon, -, h⟩⟩
  · exact hf
  · refine ⟨hf.schema, ⟨hf.model.own.properties, hf.model.own.reference⟩, hf.model.branches,
      fun hallowed => ?_⟩
    exact absurd (hoff.symm.trans hallowed) (by decide)
  · have hf' := hf.grown hgrows
    have hitem : f.schema.extraItem = extra.schema?.getD {} := by
      rw [Schema.extraItem, hextra, Option.bind_some]
    have hallows : f.schema.hasAdditionalItems = true := by
      rw [Schema.hasAdditionalItems, hextra, Option.any_some, hon]
    obtain ⟨⟨p, hp, hconditions⟩, hschema⟩ := buildExtraItems_checks hb h
    have hkept : f'.model.properties = f.model.properties ∧ f'.model.allOf = f.model.allOf ∧
        f'.model.reference = f.model.reference := by
      obtain ⟨t, -, ⟨c, -, -, _, _, _, _, _, _, -, -, -, rfl⟩ | ⟨-, _, -, rfl⟩⟩ :=
        buildExtraItems_cases h <;> exact ⟨rfl, rfl, rfl⟩
    obtain ⟨hproperties, hall, href⟩ := hkept
    -- if a definition was made of the items the schema refers to it, and covers as much
    have hcovers : s'.registry.Covers f'.schema f.schema := by
      rcases hschema with heq | ⟨hinline, hsame⟩
      · rw [heq]
        exact .refl _ _
      · exact Registry.covers_extraItem (hitem ▸ hinline) hallows hsame
    refine ⟨hcovers.trans hf'.schema, ⟨hproperties ▸ hf'.model.own.properties,
      href ▸ hf'.model.own.reference⟩, hall ▸ hf'.model.branches, fun _ => ?_⟩
    exact hf'.schema _ (.refl _) _ (backs_rest hallows (hitem ▸ hconditions) f'.model hp)

omit ih in
theorem buildPlaces_draws {places : List Schema} : ∀ {index : Nat} {f f' : Frame}
    {s s' : Session}, f.Draws s.registry c →
    (∀ e ∈ Schema.slots index places, e ∈ f.schema.declared) →
    (f.buildPlaces setting build index places).Gives s f' s' → f'.Draws s'.registry c := by
  induction places with
  | nil =>
    intro index f f' s s' hf _ h
    rw [buildPlaces, gives_pure] at h
    obtain ⟨rfl, rfl⟩ := h
    exact hf
  | cons d rest ihl =>
    intro index f f' s s' hf hplaces h
    obtain ⟨place, s₁, element, s₂, hp, he, h⟩ := buildPlaces_cons_cases h
    rw [slots_cons] at hplaces
    obtain ⟨hplace, hrest⟩ := List.forall_mem_cons.mp hplaces
    -- a place that is hoisted stores a definition before its element is built
    have hgrows : s.registry.Grows s₂.registry := by
      refine Registry.Grows.trans ?_ (hb _ _ _ _ he).adds
      rcases hoistPlace_cases hp with ⟨-, rfl, -⟩ | ⟨-, t, -, -, base, made, s₀, hoisted, hm, hh, -⟩
      · exact .refl _
      · exact (stored_of_hoist hb hm hh (made_fresh hm) rfl).1
    have hf' := hf.grown hgrows
    refine ihl (f := f.addPlace element index) ?_ hrest h
    refine ⟨hf'.schema, ⟨fun q hq => ?_, hf'.model.own.reference⟩, hf'.model.branches, hf'.model.rest⟩
    rcases List.mem_append.mp hq with hq | hq
    · exact hf'.model.own.properties q hq
    · obtain rfl := List.mem_singleton.mp hq
      exact hf'.schema _ (.refl _) _ ⟨_, .own hplace, hoistPlace_checksFor hb hp he _ rfl rfl⟩

theorem buildItems_draws (hf : f.Draws s.registry c)
    (h : (f.buildItems setting build).Gives s f' s') : f'.Draws s'.registry c := by
  rcases buildItems_cases h with ⟨-, rfl, rfl⟩ | ⟨item, hitem, h⟩ |
    ⟨places, hplaces, ⟨-, h⟩ | ⟨-, h⟩⟩
  · exact hf
  · obtain ⟨t, -, ⟨-, base, made, s₁, hoisted, s₂, inner, hm, hh, hi, rfl⟩ | ⟨-, element, he, rfl⟩⟩ :=
      buildArray_cases h
    · -- an array declares nothing for its elements
      have hgrows := (stored_of_hoist hb hm hh (made_fresh hm) rfl).1.trans (hb _ _ _ _ hi).adds
      have hsame : s'.registry.Covers (f.mapItem (.referenceTo hoisted.name)).schema f.schema := by
        refine Registry.covers_of_same ?_ rfl rfl
        rw [Schema.declared, Schema.declared, Schema.tupleItems?, Schema.tupleItems?, hitem]
        rfl
      exact ((ih _ _ _ _ rfl hi).mono (.refl _) (hsame.trans (hf.grown hgrows).schema)).resembling
        (addExtra_resembles inner hoisted)
    · exact (hf.grown (hb _ _ _ _ he).adds).resembling (setElement_resembles f element item _)
  · have hmarked : (f.markTuple (resolverAt setting f s).modelTypeName).Draws s.registry c :=
      hf.resembling (resembles_of_schema ⟨rfl, rfl, rfl, rfl, rfl⟩ rfl)
    refine buildPlaces_draws hb hmarked (fun e he => ?_) h
    show e ∈ f.schema.declared
    rw [Schema.declared, Schema.tupleItems?, hplaces]
    exact List.mem_append_left _ (List.mem_append_right _ he)
  · obtain ⟨base, made, s₁, hoisted, s₂, inner, hm, hh, hi, rfl⟩ := hoistTuple_cases h
    have hfresh := made_fresh hm
    have hrecord : s.registry.Covers (tupleRecord places f.schema.additionalItems) f.schema := by
      intro r' hr p hp
      rcases hp.cases with ⟨e, he, hp⟩ | ⟨b, hb, -⟩ | ⟨n, d, hn, -⟩
      · refine ⟨e, .own ?_, hp⟩
        rw [Schema.declared, Schema.tupleItems?, hplaces]
        rw [Schema.declared, List.mem_append, List.mem_append] at he
        rcases he with (he | he) | he
        · exact List.mem_append_left _ (List.mem_append_right _ he)
        · exact absurd he List.not_mem_nil
        · exact List.mem_append_right _ he
      · exact absurd hb List.not_mem_nil
      · exact absurd hn (by simp [tupleRecord, Schema.referenceName])
    exact (draws_of_rebuilt hb ih hm hh ⟨hfresh.model, hfresh.dependencies, hfresh.extras⟩ rfl hi
      (hrecord.trans hf.schema)).resembling (addExtra_resembles inner _)

/-! ### Schemas -/

theorem buildReference_draws (hf : f.Draws s.registry f.schema)
    (h : (f.buildReference setting build).Gives s f' s') : f'.Draws s'.registry f.schema := by
  rcases buildReference_cases h with ⟨shape, target, alias_, -, ha, rfl⟩ | ⟨branch, hc, rfl⟩
  · -- nothing is left of the schema that would declare anything
    have hnothing : s'.registry.Covers f.aliasOf.schema f.schema := by
      intro r' hr p hp
      rcases hp.cases with ⟨e, he, -⟩ | ⟨b, hb, -⟩ | ⟨n, d, hn, -⟩
      · exact absurd he List.not_mem_nil
      · exact absurd hb List.not_mem_nil
      · exact absurd hn (by simp [aliasOf, Schema.referenceName])
    have halias := ((ih _ _ _ _ rfl ha).mono (.refl _) hnothing).model
    exact ⟨.refl _ _, halias.same ⟨rfl, rfl, rfl, rfl, rfl⟩⟩
  · have htyped : (f.mapType fun _ =>
        soleBranchType (resolverAt setting f s).modelTypeName).Draws s'.registry f.schema :=
      (hf.grown (hb _ _ _ _ hc).adds).resembling (resembles_of_schema ⟨rfl, rfl, rfl, rfl, rfl⟩ rfl)
    exact htyped.addBranch (ih _ _ _ _ rfl hc).model.own

theorem buildStep_draws (hf : f.model = {}) (h : (f.buildStep setting build).Gives s f' s') :
    f'.Draws s'.registry f.schema := by
  obtain ⟨k, s₀, -, ⟨-, -, hreference⟩ | ⟨-, f₁, f₂, s₂, t, f₃, s₃, t', f₄, s₄, f₅, s₅, required,
    hlift, hall, -, hextra, -, hprops, hadd, hitems⟩⟩ := buildStep_steps h
  · exact buildReference_draws (f := f.start setting k) hb ih (start_draws hf k s₀.registry) hreference
  have hstart : (f.start setting k).Draws s₀.registry f.schema := start_draws hf k s₀.registry
  have hlifted : f₁.Draws s₀.registry f.schema := by
    obtain ⟨-, ⟨rfl, -⟩ | ⟨b, hl, rfl⟩⟩ := liftBranch_cases hlift
    · exact hstart
    · exact ⟨(Registry.covers_branch _ hl.mem).trans hstart.schema,
        hstart.model.same ⟨rfl, rfl, rfl, rfl, rfl⟩⟩
  have h₂ := buildAllOf_draws hb ih (hlifted.resembling (fillContainer_resembles f₁)) hall
  have h₃ := buildAdditionalProperties_draws hb ih (h₂.resembling (setType_resembles f₂ t _)) hextra
  have h₄ := buildProperties_draws hb
    (h₃.resembling ((pointMap_resembles f₃).trans (retype_resembles _ t'))) hprops
  exact buildItems_draws hb ih (buildAdditionalItems_draws hb h₄ hadd) hitems

end Steps

/-- **All that a model declares is backed by its schema.** -/
theorem buildIn_draws (setting : Setting) (depth : Nat) : BuildsDrawing (buildIn setting depth) := by
  induction depth with
  | zero =>
    intro g s g' s' _ h
    rw [buildIn, gives_throw] at h
    exact h.elim
  | succ depth ih =>
    intro g s g' s' hg h
    exact buildStep_draws (fun g s g' s' hg => ⟨depth, hg⟩) ih hg h

theorem Builds.draws (h : f.Builds setting s f' s') (hf : f.Fresh) : f'.Draws s'.registry f.schema :=
  h.elim fun depth hbuild => buildIn_draws setting depth f s f' s' hf.model hbuild

end Frame

end KclModels

/-!
## Where the attributes of a file come from

The file of a definition has full models of bases in place of branches, and the properties of what
other branches refer to. All of that the branches offer, so that every attribute which is declared in
the end, with the definition or with a schema beside it, is backed by the schema in question.
-/

namespace KclModels

open KclModels.Frame Model

variable {tr : Text.Transliteration}
variable {r : Registry} {b c target : Schema} {m m' a : Model} {n : String}

/-! ### Declared attributes -/

theorem Model.Alike.conditions (h : m.Alike m') :
    m'.constraints.conditions = m.constraints.conditions :=
  (congrArg (fun facts => facts.constraints.conditions) h.outline).symm

/-- Models that differ in the texts of types only are checked alike. -/
theorem Model.Alike.checks (h : m.Alike m') : m'.checks = m.checks := by
  have hpart : ∀ e, (m.part? e).map (·.constraints.conditions) =
      (m'.part? e).map (·.constraints.conditions) := fun e =>
    h.map_part e _ fun _ _ hp => hp.conditions.symm
  have hitems : m.items.map (·.constraints.conditions) = m'.items.map (·.constraints.conditions) :=
    hpart .items
  have hvalues : m.additionalProperties.map (·.constraints.conditions) =
      m'.additionalProperties.map (·.constraints.conditions) := hpart .values
  rw [Model.checks, Model.checks, h.conditions, hitems, hvalues]

theorem Registry.Backs.alike (h : r.Backs c m) (halike : m.Alike m') : r.Backs c m' :=
  h.same halike.name.symm halike.checks

/-- **Every attribute that is declared for a model is backed.** -/
theorem Model.Drawn.attribute (h : m.Drawn r c) (halike : m.Alike m') {parent : Option Nat}
    (ha : a ∈ Kcl.attributes m' parent) : r.Backs c a := by
  rw [Kcl.attributes, List.mem_append, Option.mem_toList] at ha
  rcases ha with ha | ha
  · -- an own attribute is a property of the model or of a branch
    rcases Kcl.mem_ownAttributes ha with hown | ⟨i, b', hb', -, hp⟩
    · obtain ⟨p, hp, hsame⟩ := halike.exists_row (r := .properties) hown
      exact (h.own.properties p hp).alike hsame
    · obtain ⟨b, hb, hbranch⟩ := halike.exists_row (r := .branches) (List.mem_of_getElem? hb')
      obtain ⟨p, hp, hsame⟩ := hbranch.exists_row (r := .properties) hp
      exact ((h.branches b hb).properties p hp).alike hsame
  · unfold Kcl.restAttribute? at ha
    split at ha
    · next hrest =>
      obtain rfl := Option.some.inj ha
      rw [Bool.and_eq_true] at hrest
      have hallows : m.hasAdditionalItems = true :=
        (congrArg ModelFacts.hasAdditionalItems halike.outline).trans hrest.2
      refine (h.rest hallows).same rfl ?_
      -- the attribute of the rest asks what the model of the additional items asks
      have hitems : (m.additionalItems.getD {}).constraints.conditions =
          (m'.additionalItems.getD {}).constraints.conditions := by
        have hpart := halike.map_part .additionalItems (·.constraints.conditions)
          fun _ _ hp => hp.conditions.symm
        have hmap : ∀ o : Option Model, (o.getD {}).constraints.conditions =
            (o.map (·.constraints.conditions)).getD [] := by rintro (_ | _) <;> rfl
        rw [hmap, hmap]
        exact congrArg (·.getD []) hpart
      rw [Model.checks, Model.checks, Model.restModel, Option.map_some, Option.map_some, hitems]
    · exact absurd ha (by simp)

namespace Build

variable {setting : Setting} {s s' : Session} {f f' : Frame} {name container : String}

theorem definition_draws {built : Frame}
    (h : (definition setting name c container).Gives s built s') : built.model.Drawn s'.registry c :=
  ((builds_of_definition h).draws root_fresh).model

/-! ### Bases in place of branches -/

theorem expanded_backed {reference : String} {built : Model} (href : b.reference = some reference)
    (hname : Reference.name? reference = some n) (hleads : r.Leads reference target)
    (h : built.Drawn r target) : (expanded setting reference n built).Backed r b where
  properties p hp := by
    obtain ⟨q, hq, heq⟩ : ∃ q ∈ built.properties, p = { q with isBase := true } := by
      unfold expanded at hp
      split at hp <;>
      · obtain ⟨q, hq, rfl⟩ := List.mem_map.mp hp
        exact ⟨q, hq, rfl⟩
    rw [heq]
    exact (Registry.Backs.leads hleads href (h.own.properties q hq)).same rfl rfl
  reference x hx := by
    have hbase := (expanded_facts setting reference n built).1
    obtain rfl := Option.some.inj (hbase.symm.trans hx)
    exact Registry.covers_of_referenceName (Schema.referenceName_eq href hname)

theorem expandBranches_backed {branches : List Schema} : ∀ {index : Nat} {allOf : List Model}
    {s s' : Session} {result : List Model × List String}, (∀ b ∈ branches, b ∈ c.allOf) →
    (∀ m ∈ allOf, m.Backed s.registry c) →
    (expandBranches setting container index allOf branches).Gives s result s' →
    ∀ m ∈ result.1, m.Backed s'.registry c := by
  induction branches with
  | nil =>
    intro index allOf s s' result _ hall h
    rw [expandBranches, gives_pure] at h
    obtain ⟨rfl, rfl⟩ := h
    exact hall
  | cons branch rest ih =>
    intro index allOf s s' result hbranches hall h
    obtain ⟨hbranch, hrest⟩ := List.forall_mem_cons.mp hbranches
    rcases expandBranches_cons_cases h with ⟨-, h⟩ |
      ⟨reference, n, target, built, s₁, names, href, hname, htarget, -, hbuilt, h, -⟩
    · exact ih hrest hall h
    · have hgrows := (builds_of_definition hbuilt).adds
      refine (ih hrest (fun m hm => ?_) h :)
      rcases List.mem_or_eq_of_mem_set hm with hm | rfl
      · -- the other branches stay backed by the larger registry
        exact (hall m hm).mono hgrows (.refl _ c)
      · have hleads := (Registry.resolve_leads htarget).mono hgrows.keeps
        exact (expanded_backed href hname hleads (definition_draws hbuilt)).mono (.refl _)
          (Registry.covers_branch _ hbranch)

/-- The model of a subtype declares what its branches offer. -/
theorem expandSubtype_drawn {subtype : Subtype} (hm : m.Drawn s.registry c)
    (h : (expandSubtype setting m c subtype).Gives s m' s') : m'.Drawn s'.registry c := by
  obtain ⟨allOf, ofBases, hex, rfl⟩ := expandSubtype_cases h
  have hm' := hm.mono (Frame.expandBranches_grows hex) (.refl _ c)
  refine ⟨⟨hm'.own.properties, hm'.own.reference⟩, fun b' hb' => ?_, hm'.rest⟩
  obtain ⟨i, hi⟩ := List.mem_iff_getElem?.mp hb'
  obtain ⟨b, hb, hthinned⟩ : ∃ b, allOf[i]? = some b ∧ b.Thinned b' :=
    forall₂_getElem? (Model.dedupBranches_thinned ofBases allOf []).flip hi
  have hbacked := expandBranches_backed (fun _ hb => hb) hm.branches hex b (List.mem_of_getElem? hb)
  refine ⟨fun p hp => hbacked.properties p (hthinned.ordered.subset hp), fun n hn => ?_⟩
  rw [hthinned.same] at hn
  exact hbacked.reference n hn

/-! ### Properties of other branches -/

theorem inlineBranches_drawn {parent : Option Nat} {branches : List Model} : ∀ {index : Nat}
    {f f' : Frame} {s s' : Session}, (∀ b ∈ branches, b.Backed s.registry c) →
    f.model.Drawn s.registry c →
    (inlineBranches setting parent f index branches).Gives s f' s' → f'.model.Drawn s'.registry c := by
  induction branches with
  | nil =>
    intro index f f' s s' _ hf h
    rw [inlineBranches, gives_pure] at h
    obtain ⟨rfl, rfl⟩ := h
    exact hf
  | cons branch rest ih =>
    intro index f f' s s' hbranches hf h
    obtain ⟨hbranch, hrest⟩ := List.forall_mem_cons.mp hbranches
    rcases inlineBranches_cons_cases h with ⟨-, h⟩ |
      ⟨name, target, built, s₁, -, hname, htarget, hbuilt, h⟩
    · exact ih hrest hf h
    · have hgrows := (builds_of_definition hbuilt).adds
      have hdrawn := definition_draws hbuilt
      have hleads := (Registry.resolve_leads htarget).mono hgrows.keeps
      have hcovers := (hbranch.reference name hname).mono hgrows
      have hf' := hf.mono hgrows (.refl _ c)
      refine ih (fun b hb => (hrest b hb).mono hgrows (.refl _ c)) ?_ h
      refine ⟨⟨hf'.own.properties, hf'.own.reference⟩, fun b hb => ?_, hf'.rest⟩
      rcases List.mem_or_eq_of_mem_set hb with hb | rfl
      · exact hf'.branches b hb
      · refine ⟨fun p hp => hcovers _ (.refl _) p (.leads hleads rfl ?_),
          ((hbranch.mono hgrows (.refl _ c)).reference)⟩
        rcases List.mem_append.mp hp with hp | hp
        · exact hdrawn.own.properties p hp
        · -- a property of the target's own branch counts as the target's
          obtain ⟨b, hb, hp⟩ := List.mem_flatMap.mp hp
          exact (hdrawn.branches b hb).properties p hp

/-- **All that the file of a definition declares with it is backed by its schema.** -/
theorem fileFrame_drawn (hc : s.registry.get? name = some c)
    (h : (fileFrame setting name).Gives s f s') : f.model.Drawn s'.registry c := by
  obtain ⟨d, built, s₁, s₂, m, hd, hbuilt, hexpand, hinline⟩ := fileFrame_cases h
  obtain rfl := Option.some.inj (hc.symm.trans hd)
  have hbase : (asBase setting name built).model.Drawn s₁.registry c := by
    refine (definition_draws hbuilt).same ?_
    unfold asBase
    split <;> exact ⟨rfl, rfl, rfl, rfl, rfl⟩
  have hm : m.Drawn s₂.registry c := by
    rcases hexpand with ⟨-, rfl, rfl⟩ | ⟨subtype, -, he⟩
    · exact hbase
    · exact expandSubtype_drawn hbase he
  exact inlineBranches_drawn hm.branches (f := { asBase setting name built with model := m }) hm hinline

end Build

end KclModels
