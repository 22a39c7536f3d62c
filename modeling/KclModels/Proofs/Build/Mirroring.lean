import KclModels.Proofs.Build.Counterparts
import KclModels.Proofs.Build.Errors

/-!
# Building in two worlds

Counterparts are built into counterparts, or both fail, with errors that differ at most in the root
of their paths. Every step goes by what counterparts have in common: the kinds of types, what the
schema says beside its references, and where the frame is below the definition that is built. A name
that a step makes is the counterpart of the name that it makes in the other run.
-/

namespace KclModels.Frame

open Build

variable {tr : Text.Transliteration}
variable {docs : List String} {W : World docs} {top top' : String}
variable {setting : Setting} {build : Frame → Build Frame} {f f' : Frame} {c c' : Schema}

/-- Both steps come to counterparts, or their errors differ in the root of the path only. -/
abbrev Alike (W : World docs) (top top' : String) (m m' : Build Frame) : Prop :=
  Mirrored W m m' (GenerationError.Moved top top') fun W₁ g g' => g.Matches W₁ top top' g'

/-! ## Single steps -/

theorem mirrored_constraints (h : f.Matches W top top' f') :
    Mirrored W f.constraints f'.constraints (GenerationError.Moved top top') fun _ _ _ => True := by
  unfold constraints
  rw [h.schema.eq, Schema.ofSchema_rename]
  dsimp only
  split
  · exact mirrored_pure trivial
  · split
    · obtain ⟨below, hpath, hpath'⟩ := h.place.path
      rw [hpath, hpath']
      exact mirrored_throw (.complexEnumValue below)
    · split
      · exact (mirrored_warnAll _ _).bind fun _ _ _ _ _ => mirrored_pure trivial
      · exact mirrored_pure trivial

theorem mirrored_populate (h : f.Matches W top top' f') :
    Alike W top top' (f.populate setting) (f'.populate setting) :=
  (mirrored_constraints h).bind fun _ hW k k' _ => mirrored_pure ((h.mono hW).filled setting k k')

variable {α β : Type} {P : World docs → α → β → Prop}

/-- Counterparts have types that match. -/
theorem mirrored_resolve (h : f.Matches W top top' f') (hc : c.Matches W c')
    {anonymous anonymous' required required' : Bool} (ha : anonymous' = anonymous)
    {k : TypeInfo → Build α} {k' : TypeInfo → Build β}
    (hk : ∀ t t', t.Matches t' → Mirrored W (k t) (k' t') (GenerationError.Moved top top') P) :
    Mirrored W (resolve setting f c anonymous required >>= k)
      (resolve setting f' c' anonymous' required' >>= k') (GenerationError.Moved top top') P := by
  obtain ⟨below, hpath, hpath'⟩ := h.place.path
  subst ha
  refine Mirrored.bind (mirrored_resolver (mirrored_ofType (hc.types rfl rfl hpath hpath')
    fun _ _ => GenerationError.moved_type)) ?_
  rintro _ - t t' ⟨rfl, ht⟩
  exact hk t t' ht

/-- The definitions that are made of counterparts get names that are counterparts. -/
theorem mirrored_hoist (hc : c.Matches W c') {base base' : String}
    {E : GenerationError → GenerationError → Prop} :
    Mirrored W (hoist f base c) (hoist f' base' c') E fun W₁ g g' =>
      ∃ n n', W₁.Named n n' ∧ g = f.hoisted n c ∧ g' = f'.hoisted n' c' := by
  obtain ⟨w, hextends, hname, hmirrors⟩ :=
    @Registry.Mirrors.hoist _ _ _ _ _ W.mirrors hc.known (hoistBase f base) (hoistBase f' base')
      (plain_hoist _ _ _ _)
  rw [← hc.eq] at hname hmirrors
  refine pairs_hoist ⟨⟨{ W.left with registry := _ }, { W.right with registry := _ }, w, hmirrors⟩,
    hextends, rfl, rfl, _, _, ⟨?_, hname, ?_⟩, rfl, rfl⟩
  · exact Registry.defines_hoist.mpr (Or.inr rfl)
  · exact Reference.name?_of_plain (plain_hoist _ _ _ _)

/-! ## Steps that build frames below -/

/-- Counterparts are built into counterparts. -/
structure BuildsAlike [Text.Transliteration] (docs : List String) (setting : Setting)
    (top top' : String) (build : Frame → Build Frame) : Prop where
  below : BuildsBelow setting build
  alike : ∀ (W : World docs) (f f' : Frame), f.Matches W top top' f' →
    Alike W top top' (build f) (build f')

section Steps

variable (hb : BuildsAlike docs setting top top' build)

include hb

/-- Definitions that are made and built. -/
theorem mirrored_made (hf : f.Matches W top top' f') (hc : c.Matches W c') {base base' : String}
    (j j' : Frame → Frame) {k : Frame → Build α} {k' : Frame → Build β}
    (hj : ∀ g, (j g).name = g.name ∧ (j g).model = g.model ∧
      (j g).dependencies = g.dependencies ∧ (j g).extras = g.extras)
    (hj' : ∀ g, (j' g).name = g.name ∧ (j' g).model = g.model ∧
      (j' g).dependencies = g.dependencies ∧ (j' g).extras = g.extras)
    (hmatch : ∀ W₁, W.Before W₁ → ∀ g g', g.Matches W₁ top top' g' →
      (j g).Matches W₁ top top' (j' g'))
    (hk : ∀ W₁, W.Before W₁ → ∀ h h', W₁.Named h.name h'.name →
      Mirrored W₁ (k h) (k' h') (GenerationError.Moved top top') P) :
    Mirrored W (hoist f base c >>= fun g => build (j g) >>= k)
      (hoist f' base' c' >>= fun g => build (j' g) >>= k') (GenerationError.Moved top top') P := by
  refine (mirrored_hoist hc).bind ?_
  -- from here on the two new names are counterparts
  rintro W₁ hW _ _ ⟨n, n', hn, rfl, rfl⟩
  have hmade := hmatch W₁ hW _ _ ((hf.mono hW).hoisted (hc.mono hW) n n')
  refine (hb.alike W₁ _ _ hmade).gives.bind ?_
  rintro W₂ hW₂ h h' ⟨-, hgives, hgives'⟩
  refine hk W₂ (hW.trans hW₂) h h' ?_
  obtain ⟨hname, hmodel, hdependencies, hextras⟩ := hj (f.hoisted n c)
  obtain ⟨hname', hmodel', hdependencies', hextras'⟩ := hj' (f'.hoisted n' c')
  have hbuilt := (hb.below _ _ _ _ hgives).built ⟨hmodel, hdependencies, hextras⟩
  have hbuilt' := (hb.below _ _ _ _ hgives').built ⟨hmodel', hdependencies', hextras'⟩
  rw [hbuilt.carries.name, hbuilt'.carries.name, hname, hname']
  exact hn.mono hW₂

/-- Definitions that are made and built where they were found. -/
theorem mirrored_madeHere (hf : f.Matches W top top' f') (hc : c.Matches W c')
    {base base' : String} {k : Frame → Build α} {k' : Frame → Build β}
    (hk : ∀ W₁, W.Before W₁ → ∀ h h', W₁.Named h.name h'.name →
      Mirrored W₁ (k h) (k' h') (GenerationError.Moved top top') P) :
    Mirrored W (hoist f base c >>= fun g => build g >>= k)
      (hoist f' base' c' >>= fun g => build g >>= k') (GenerationError.Moved top top') P :=
  mirrored_made hb hf hc id id (fun _ => ⟨rfl, rfl, rfl, rfl⟩) (fun _ => ⟨rfl, rfl, rfl, rfl⟩)
    (fun _ _ _ _ h => h) hk

/-! ### References -/

theorem mirrored_buildReference (h : f.Matches W top top' f') :
    Alike W top top' (f.buildReference setting build) (f'.buildReference setting build) := by
  refine mirrored_shape .reference h.schema fun shape => ?_
  split
  · refine mirrored_resolve h h.schema rfl fun t t' ht => ?_
    refine (hb.alike W _ _ h.aliasOf).bind fun W₁ hW g g' hg => ?_
    exact mirrored_pure ((h.mono hW).takeAlias hg shape ht)
  · refine mirrored_resolver ?_
    refine (hb.alike W _ _ (h.branch h.schema 0)).bind fun W₁ hW g g' hg => ?_
    exact mirrored_pure (((h.mono hW).mapType rfl).addBranch hg)

/-! ### Compositions -/

omit hb in
theorem isSubstantive_rename (w : String → String) (c : Schema) :
    isSubstantive (c.rename w) = isSubstantive c := by
  simp only [isSubstantive, Schema.types_rename, Schema.properties_rename, Schema.reference_rename,
    Schema.allOf_rename, List.isEmpty_map, Option.isSome_map]

omit hb in
theorem mirrored_liftBranch (h : f.Matches W top top' f') :
    Alike W top top' (f.liftBranch setting) (f'.liftBranch setting) := by
  -- the same branches say something, so the first of them are counterparts
  have hfilter : f'.schema.allOf.filter isSubstantive =
      (f.schema.allOf.filter isSubstantive).map (Schema.rename W.name) := by
    rw [h.schema.eq, Schema.allOf_rename, List.filter_map]
    exact congrArg (List.map _) (List.filter_congr fun c _ => isSubstantive_rename W.name c)
  have hlength : f'.schema.allOf.length = f.schema.allOf.length := by
    rw [h.schema.eq, Schema.allOf_rename, List.length_map]
  unfold liftBranch
  rw [hfilter, hlength]
  split
  · exact mirrored_pure h
  · cases hs : f.schema.allOf.filter isSubstantive with
    | nil => exact mirrored_pure h
    | cons branch others =>
      have hmem : branch ∈ f.schema.allOf :=
        List.mem_of_mem_filter (hs ▸ List.mem_cons_self)
      have hbranch := h.schema.child (Schema.branch_mem_children hmem)
      refine mirrored_resolve h hbranch rfl fun t t' ht => ?_
      rw [List.isEmpty_map, ht.anonymous, ht.complex, ht.primitive]
      split
      · exact mirrored_pure (h.lift hbranch)
      · exact mirrored_pure h

omit hb in
theorem branchNeedsName_matches {t t' : TypeInfo} (hc : c.Matches W c') (ht : t.Matches t') :
    branchNeedsName c' t' = branchNeedsName c t := by
  rw [branchNeedsName, branchNeedsName, ht.anonymous, ht.complex, ht.array, ht.primitive,
    hc.isNone_reference, hc.eq, Schema.allOf_rename, List.isEmpty_map]

theorem mirrored_buildBranch (h : f.Matches W top top' f') (hc : c.Matches W c') (index : Nat) :
    Mirrored W (f.buildBranch setting build index c) (f'.buildBranch setting build index c')
      (GenerationError.Moved top top') fun W₁ p p' =>
        p.1.Matches W₁ top top' p'.1 ∧ p'.2 = p.2 := by
  refine mirrored_resolve h hc hc.isNone_reference fun t t' ht => ?_
  rw [branchNeedsName_matches hc ht, ht.array]
  split
  · refine mirrored_madeHere hb h hc fun W₁ hW g g' hn => ?_
    have hf := (h.mono hW).mapBranch (Schema.matches_referenceTo hn) index
    refine (hb.alike W₁ _ _ (hf.branch (Schema.matches_referenceTo hn) index)).bind ?_
    intro W₂ hW₂ composed composed' hcomposed
    exact mirrored_pure ⟨(hf.mono hW₂).addBranch (hcomposed.addExtra g g'), rfl⟩
  · refine (hb.alike W _ _ (h.branch hc index)).bind fun W₁ hW composed composed' hcomposed => ?_
    exact mirrored_pure ⟨(h.mono hW).addBranch hcomposed.pointMap, rfl⟩

theorem mirrored_buildBranches (branches : List Schema) :
    ∀ (W : World docs) (branches' : List Schema) (f f' : Frame) (index : Nat),
      List.Forall₂ (Schema.Matches W) branches branches' → f.Matches W top top' f' →
      Mirrored W (f.buildBranches setting build index branches)
        (f'.buildBranches setting build index branches') (GenerationError.Moved top top')
        fun W₁ p p' => p.1.Matches W₁ top top' p'.1 ∧ p'.2 = p.2 := by
  induction branches with
  | nil =>
    intro W branches' f f' index hc h
    cases hc
    exact mirrored_pure ⟨h, rfl⟩
  | cons branch rest ih =>
    intro W branches' f f' index hc h
    obtain _ | ⟨hbranch, hrest⟩ := hc
    refine (mirrored_buildBranch hb h hbranch index).bind ?_
    rintro W₁ hW p p' ⟨hp, harray⟩
    refine (ih W₁ _ p.1 p'.1 (index + 1) (hrest.imp fun _ _ h => h.mono hW) hp).bind ?_
    rintro W₂ hW₂ q q' ⟨hq, harrays⟩
    exact mirrored_pure ⟨hq, by rw [harray, harrays]⟩

theorem mirrored_buildAllOf (h : f.Matches W top top' f') :
    Alike W top top' (f.buildAllOf setting build) (f'.buildAllOf setting build) := by
  have hempty : f'.schema.allOf.isEmpty = f.schema.allOf.isEmpty := by
    rw [h.schema.eq, Schema.allOf_rename, List.isEmpty_map]
  unfold buildAllOf
  rw [hempty]
  split
  · exact mirrored_pure h
  · refine (mirrored_buildBranches hb _ W _ f f' 0 h.schema.allOf h).bind ?_
    rintro W₁ hW ⟨g, arrays⟩ ⟨g', _⟩ ⟨hg, rfl⟩
    dsimp only
    split
    · exact (mirrored_warnAll _ _).bind fun W₂ hW₂ _ _ _ => mirrored_pure (hg.mono hW₂)
    · exact mirrored_pure hg

/-! ### Additional properties -/

theorem mirrored_buildMapLeaf {parent parent' level level' : Frame} {t t' : TypeInfo}
    (hparent : parent.Matches W top top' parent') (hlevel : level.Matches W top top' level')
    (ht : t.Matches t') :
    Alike W top top' (buildMapLeaf build parent level t)
      (buildMapLeaf build parent' level' t') := by
  have hrest : ∀ (W₁ : World docs) (level level' : Frame), level.Matches W₁ top top' level' →
      Alike W₁ top top'
        (do let shape ← ofReference (Shape.ofSchema (← registry) level.schema)
            build (level.require (valueRequired shape)))
        (do let shape ← ofReference (Shape.ofSchema (← registry) level'.schema)
            build (level'.require (valueRequired shape))) :=
    fun W₁ level level' h => mirrored_shape .reference h.schema fun shape =>
      hb.alike W₁ _ _ (h.require _ _)
  unfold buildMapLeaf
  rw [ht.complex, ht.anonymous]
  split
  · refine mirrored_madeHere hb hparent hlevel.schema fun W₁ hW h h' hn => ?_
    exact (mirrored_pure (((hlevel.mono hW).referTo hn).addExtra h h')).bind fun W₂ _ => hrest W₂
  · exact (mirrored_pure hlevel).bind fun W₁ _ => hrest W₁

omit hb in
theorem mirrored_joinMapLevel {level level' child child' : Frame}
    (hlevel : level.Matches W top top' level') (hchild : child.Matches W top top' child') :
    Alike W top top' (level.joinMapLevel setting child) (level'.joinMapLevel setting child') := by
  refine (mirrored_populate (hlevel.mapExtraValue hchild.schema)).bind fun W₁ hW g g' hg => ?_
  refine mirrored_resolve hg hg.schema rfl fun t t' ht => ?_
  exact mirrored_pure ((hg.makeMap ht).setValue child child')

theorem mirrored_buildMapLevel (value : Schema) :
    ∀ (W : World docs) (value' : Schema) (parent parent' : Frame), value.Matches W value' →
      parent.Matches W top top' parent' →
      Alike W top top' (parent.buildMapLevel setting build value)
        (parent'.buildMapLevel setting build value') := by
  induction value using Schema.children_induction with
  | step value ih =>
    intro W value' parent parent' hvalue hparent
    have hlevel := hparent.mapValue hvalue
    have hextra := hvalue.additionalProperties
    have hnone := hvalue.isNone_reference
    -- both levels are taken apart so that the recursion unfolds on either side
    obtain ⟨keywords, properties, allOf, items, extra, extraItems⟩ := value
    obtain ⟨keywords', properties', allOf', items', extra', extraItems'⟩ := value'
    unfold buildMapLevel
    refine mirrored_resolve hlevel hlevel.schema hnone fun t t' ht => ?_
    cases hextra with
    | none => exact mirrored_buildMapLeaf hb hparent hlevel ht
    | flag b => exact mirrored_buildMapLeaf hb hparent hlevel ht
    | schema hnext =>
      refine mirrored_ite (by rw [ht.map, hnone]) (fun _ => ?_) fun _ =>
        mirrored_buildMapLeaf hb hparent hlevel ht
      refine (ih _ (Schema.value_mem_children rfl) W _ _ _ hnext hlevel).bind ?_
      exact fun W₁ hW child child' hchild => mirrored_joinMapLevel (hlevel.mono hW) hchild

theorem mirrored_buildMap (h : f.Matches W top top' f') (hc : c.Matches W c') :
    Alike W top top' (f.buildMap setting build c) (f'.buildMap setting build c') := by
  refine (mirrored_buildMapLevel hb c W c' f f' hc h).bind fun W₁ hW child child' hchild => ?_
  exact mirrored_pure (((h.mono hW).mapExtraValue hchild.schema).setValue child child')

theorem mirrored_hoistExtended (h : f.Matches W top top' f') :
    Alike W top top' (f.hoistExtended build) (f'.hoistExtended build) := by
  refine mirrored_madeHere hb h h.schema fun W₁ hW hoisted hoisted' hn => ?_
  refine (hb.alike W₁ _ _ ((h.mono hW).referTo hn).restart).bind fun W₂ hW₂ g g' hg => ?_
  exact mirrored_pure (hg.addExtra hoisted hoisted')

theorem mirrored_hoistExtraValue (h : f.Matches W top top' f') (hc : c.Matches W c')
    {t t' : TypeInfo} (ht : t.Matches t') :
    Mirrored W (f.hoistExtraValue build c t) (f'.hoistExtraValue build c' t')
      (GenerationError.Moved top top') fun W₁ p p' =>
        p.1.Matches W₁ top top' p'.1 ∧ p.2.1.Matches W₁ p'.2.1 := by
  unfold hoistExtraValue
  rw [ht.complex, ht.anonymous]
  split
  · refine mirrored_madeHere hb h hc fun W₁ hW hoisted hoisted' hn => ?_
    exact mirrored_pure ⟨(h.mono hW).referValue hn, Schema.matches_referenceTo hn⟩
  · exact mirrored_pure ⟨h, hc⟩

theorem mirrored_buildExtraValues (h : f.Matches W top top' f') (hc : c.Matches W c') :
    Alike W top top' (f.buildExtraValues setting build c)
      (f'.buildExtraValues setting build c') := by
  refine mirrored_resolve h hc hc.isNone_reference fun t t' ht => ?_
  refine (mirrored_hoistExtraValue hb h hc ht).bind ?_
  rintro W₁ hW ⟨g, value, hoisted⟩ ⟨g', value', hoisted'⟩ ⟨hg, hvalue⟩
  refine mirrored_shape .reference hvalue fun shape => ?_
  refine (hb.alike W₁ _ _ ((hg.mapValue hvalue).require _ _)).bind ?_
  exact fun W₂ hW₂ child child' _ => mirrored_pure ((hg.mono hW₂).setStore _ _)

theorem mirrored_buildAnyValues (h : f.Matches W top top' f') (declared : Bool) :
    Alike W top top' (f.buildAnyValues build declared) (f'.buildAnyValues build declared) := by
  have hvalues := h.allowAny declared
  refine (hb.alike W _ _ (hvalues.mapValue (Schema.matches_typed W "object"))).bind ?_
  exact fun W₁ hW value value' _ => mirrored_pure ((hvalues.mono hW).setValue value value')

theorem mirrored_buildAdditionalProperties (h : f.Matches W top top' f') :
    Alike W top top' (f.buildAdditionalProperties setting build)
      (f'.buildAdditionalProperties setting build) := by
  have hextra := h.schema.additionalProperties
  unfold buildAdditionalProperties
  generalize f.schema.additionalProperties = extra, f'.schema.additionalProperties = extra'
    at hextra ⊢
  -- both frames have declared properties or neither has
  have hdeclared (e e' : Extra Schema) :
      (f'.deny e').model.type.complex = (f.deny e).model.type.complex := h.model.complex
  cases hextra with
  | none => exact mirrored_pure h
  | flag b =>
    refine mirrored_ite rfl (fun _ => mirrored_pure (h.deny _ _)) fun _ => ?_
    dsimp only
    rw [hdeclared (.flag b) (.flag b)]
    exact mirrored_buildAnyValues hb ((h.deny _ _).markExtra _) _
  | schema hvalue =>
    refine mirrored_ite rfl (fun _ => mirrored_pure (h.deny _ _)) fun _ => ?_
    dsimp only
    rw [hdeclared (.schema _) (.schema _)]
    rename_i value value' _
    have hmarked := (h.deny (.schema value) (.schema value')).markExtra
      (f.deny (.schema value)).model.type.complex
    refine mirrored_ite rfl (fun _ => mirrored_buildMap hb hmarked hvalue) fun _ => ?_
    refine mirrored_ite (by rw [hmarked.place.named]) (fun _ => mirrored_hoistExtended hb hmarked)
      fun _ => mirrored_buildExtraValues hb hmarked hvalue

/-! ### Properties -/

omit hb in
/-- A property takes over from counterparts alike. -/
theorem mirrored_decorate (h : f.Matches W top top' f') {reference : String}
    (hreach : W.left.registry.Reaches reference) :
    Mirrored W (f.decorate setting reference)
      (f'.decorate setting (Reference.rename W.name reference)) (GenerationError.Moved top top')
      fun _ g g' => Decorated setting f g ∧ Decorated setting f' g' := by
  -- the mark of a role does not move the property, so errors are placed as before
  have hmarked : ∀ (f : Frame) reference, (f.markRole setting reference).path = f.path := by
    intro f reference
    unfold markRole
    dsimp only
    split <;> split <;> rfl
  obtain ⟨below, hpath, hpath'⟩ := h.place.path
  unfold decorate
  dsimp only
  rw [hmarked, hmarked, hpath, hpath']
  refine mirrored_registry (mirrored_target .reference hreach fun c c' hc => ?_)
  refine Mirrored.bind (mirrored_ofType (hc.types rfl rfl rfl rfl)
    fun _ _ => GenerationError.moved_type) fun _ _ _ _ _ => ?_
  rw [hc.eq, Schema.isConstrained_rename, Schema.ofSchema_rename]
  split
  · split
    · exact mirrored_throw (.complexEnumValue below)
    · exact mirrored_pure ⟨Or.inr ⟨_, Or.inr ⟨_, rfl⟩⟩, Or.inr ⟨_, Or.inr ⟨_, rfl⟩⟩⟩
  · exact mirrored_pure ⟨Or.inr ⟨_, Or.inl rfl⟩, Or.inr ⟨_, Or.inl rfl⟩⟩

theorem mirrored_hoistProperty (h : f.Matches W top top' f') (hc : c.Matches W c')
    {t t' : TypeInfo} (ht : t.Matches t') (name : String) :
    Mirrored W (f.hoistProperty build name c t) (f'.hoistProperty build name c' t')
      (GenerationError.Moved top top') fun W₁ p p' =>
        p.1.Matches W₁ top top' p'.1 ∧ p.2.Matches W₁ p'.2 := by
  have hneeds : propertyNeedsName c' t' = propertyNeedsName c t := by
    rw [propertyNeedsName, propertyNeedsName, ht.complex, ht.anonymous, hc.eq,
      Schema.properties_rename, Schema.allOf_rename, List.isEmpty_map, List.isEmpty_map]
  unfold hoistProperty
  rw [hneeds]
  split
  · refine mirrored_made hb h hc (·.within f name) (·.within f' name)
      (fun _ => ⟨rfl, rfl, rfl, rfl⟩) (fun _ => ⟨rfl, rfl, rfl, rfl⟩)
      (fun W₁ hW g g' hg => (h.mono hW).within hg name) fun W₁ hW hoisted hoisted' hn => ?_
    exact mirrored_pure ⟨(h.mono hW).addExtra _ _, Schema.matches_referenceTo hn⟩
  · exact mirrored_pure ⟨h, hc⟩

theorem mirrored_buildProperty (h : f.Matches W top top' f') (hc : c.Matches W c')
    (position : Nat) (name : String) :
    Alike W top top' (f.buildProperty setting build position name c)
      (f'.buildProperty setting build position name c') := by
  refine mirrored_resolve h hc rfl fun t t' ht => ?_
  refine (mirrored_hoistProperty hb h hc ht name).bind ?_
  rintro W₁ hW ⟨g, s⟩ ⟨g', s'⟩ ⟨hg, hs⟩
  refine (hb.alike W₁ _ _ (hg.propertyPlace hs name _ _)).gives.bind ?_
  rintro W₂ hW₂ property property' ⟨hproperty, hgives, hgives'⟩
  have hname : property.model.name = name := hb.below.names _ _ _ _ ⟨rfl, rfl, rfl⟩ hgives
  have hname' : property'.model.name = name := hb.below.names _ _ _ _ ⟨rfl, rfl, rfl⟩ hgives'
  -- whatever is taken over in the end, the property has the name that was asked for
  have hrest : ∀ (W₃ : World docs) (p p' : Frame), W₂.Before W₃ → Decorated setting property p →
      Decorated setting property' p' → (g.addProperty p position).Matches W₃ top top'
        (g'.addProperty p' position) := fun W₃ p p' hW₃ hd hd' =>
    (hg.mono (hW₂.trans hW₃)).addProperty (by
      rw [decorated_name hd, decorated_name hd', hname, hname'])
  cases href : property.schema.reference with
  | none =>
    have href' : property'.schema.reference = none := by
      rw [hproperty.schema.eq, Schema.reference_rename, href]
      rfl
    dsimp only
    rw [href']
    refine Mirrored.bind (Q := fun W₃ p p' => Decorated setting property p ∧
      Decorated setting property' p') (mirrored_pure ⟨Or.inl rfl, Or.inl rfl⟩) ?_
    exact fun W₃ hW₃ p p' hd => mirrored_pure (hrest W₃ p p' hW₃ hd.1 hd.2)
  | some reference =>
    obtain ⟨href', hreach⟩ := hproperty.schema.reference href
    dsimp only
    rw [href']
    refine (mirrored_decorate hproperty hreach).bind fun W₃ hW₃ p p' hd => ?_
    exact mirrored_pure (hrest W₃ p p' hW₃ hd.1 hd.2)

theorem mirrored_buildPropertyList (properties : List (String × Schema)) :
    ∀ (W : World docs) (properties' : List (String × Schema)) (f f' : Frame) (position : Nat),
      List.Forall₂ (Schema.PropertyMatches W) properties properties' → f.Matches W top top' f' →
      Alike W top top' (f.buildPropertyList setting build position properties)
        (f'.buildPropertyList setting build position properties') := by
  induction properties with
  | nil =>
    intro W properties' f f' position hc h
    cases hc
    exact mirrored_pure h
  | cons e rest ih =>
    intro W properties' f f' position hc h
    obtain _ | ⟨⟨hname, hproperty⟩, hrest⟩ := hc
    rename_i e' rest'
    obtain ⟨name, s⟩ := e
    obtain ⟨name', s'⟩ := e'
    obtain rfl : name' = name := hname
    refine (mirrored_buildProperty hb h hproperty position name').bind fun W₁ hW g g' hg => ?_
    exact ih W₁ _ g g' (position + 1) (hrest.imp fun _ _ h => ⟨h.1, h.2.mono hW⟩) hg

theorem mirrored_buildProperties (h : f.Matches W top top' f') :
    Alike W top top' (f.buildProperties setting build) (f'.buildProperties setting build) :=
  (mirrored_buildPropertyList hb _ W _ f f' 0 h.schema.properties h).bind fun _ _ _ _ hg =>
    mirrored_pure (hg.orderProperties setting)

/-! ### Items -/

theorem mirrored_buildArray (h : f.Matches W top top' f') (hc : c.Matches W c') :
    Alike W top top' (f.buildArray setting build c) (f'.buildArray setting build c') := by
  refine mirrored_resolve h hc rfl fun t t' ht => ?_
  rw [ht.complex, ht.anonymous]
  split
  · refine mirrored_madeHere hb h hc fun W₁ hW hoisted hoisted' hn => ?_
    have hagain := ((h.mono hW).mapItem (Schema.matches_referenceTo hn)).restart
    refine (hb.alike W₁ _ _ hagain).bind fun W₂ hW₂ g g' hg => ?_
    exact mirrored_pure (hg.addExtra hoisted hoisted')
  · refine (hb.alike W _ _ (h.element hc setting.polymorphism)).bind ?_
    intro W₁ hW element element' helement
    exact mirrored_pure ((h.mono hW).markElements helement)

theorem mirrored_hoistPlace (h : f.Matches W top top' f') (hc : c.Matches W c') (index : Nat) :
    Alike W top top' (f.hoistPlace setting build index c)
      (f'.hoistPlace setting build index c') := by
  have hplace := h.tuplePlace hc index
  unfold hoistPlace
  dsimp only
  rw [hc.isSome_reference]
  split
  · exact mirrored_pure hplace
  · refine mirrored_resolve h hc rfl fun t t' ht => ?_
    rw [ht.complex, ht.anonymous]
    split
    · refine mirrored_madeHere hb h hc fun W₁ hW hoisted hoisted' hn => ?_
      exact mirrored_pure (((hplace.mono hW).referTo hn).addExtra hoisted hoisted')
    · exact mirrored_pure hplace

theorem mirrored_buildPlaces (places : List Schema) :
    ∀ (W : World docs) (places' : List Schema) (f f' : Frame) (index : Nat),
      List.Forall₂ (Schema.Matches W) places places' → f.Matches W top top' f' →
      Alike W top top' (f.buildPlaces setting build index places)
        (f'.buildPlaces setting build index places') := by
  induction places with
  | nil =>
    intro W places' f f' index hc h
    cases hc
    exact mirrored_pure h
  | cons place rest ih =>
    intro W places' f f' index hc h
    obtain _ | ⟨hplace, hrest⟩ := hc
    refine (mirrored_hoistPlace hb h hplace index).bind fun W₁ hW g g' hg => ?_
    refine (hb.alike W₁ _ _ hg).bind fun W₂ hW₂ element element' _ => ?_
    have hW' := hW.trans hW₂
    exact ih W₂ _ _ _ (index + 1) (hrest.imp fun _ _ h => h.mono hW')
      ((h.mono hW').addPlace element element' index)

theorem mirrored_hoistTuple {places places' : List Schema} (h : f.Matches W top top' f')
    (hitems : f.schema.items = some (.tuple places))
    (hitems' : f'.schema.items = some (.tuple places')) :
    Alike W top top' (f.hoistTuple build places) (f'.hoistTuple build places') := by
  have hrecord := h.tupleRecord hitems hitems'
  refine mirrored_made hb h hrecord (fun g => { g with tuple := true })
    (fun g => { g with tuple := true }) (fun _ => ⟨rfl, rfl, rfl, rfl⟩)
    (fun _ => ⟨rfl, rfl, rfl, rfl⟩) (fun W₁ _ g g' hg => hg.stays rfl rfl hg.schema) ?_
  intro W₁ hW hoisted hoisted' hn
  refine (hb.alike W₁ _ _ ((h.mono hW).referTo hn).restart).bind fun W₂ hW₂ g g' hg => ?_
  exact mirrored_pure (hg.addExtra _ _)

theorem mirrored_buildItems (h : f.Matches W top top' f') :
    Alike W top top' (f.buildItems setting build) (f'.buildItems setting build) := by
  have hitems := h.schema.items
  unfold buildItems
  generalize hi : f.schema.items = items, hi' : f'.schema.items = items' at hitems ⊢
  cases hitems with
  | none => exact mirrored_pure h
  | single hitem => exact mirrored_buildArray hb h hitem
  | tuple hplaces =>
    refine mirrored_ite h.place.named (fun _ => ?_) fun _ => mirrored_hoistTuple hb h hi hi'
    exact mirrored_resolver (mirrored_buildPlaces hb _ W _ _ _ 0 hplaces (h.markTuple _ _))

/-- Schemas that may be absent match. -/
theorem mirrored_hoistExtraItems {s s' : Option Schema} (h : f.Matches W top top' f')
    (hs : Option.Rel (Schema.Matches W) s s') {t t' : TypeInfo} (ht : t.Matches t') :
    Mirrored W (f.hoistExtraItems build s t) (f'.hoistExtraItems build s' t')
      (GenerationError.Moved top top') fun W₁ p p' =>
        p.1.Matches W₁ top top' p'.1 ∧ Option.Rel (Schema.Matches W₁) p.2.1 p'.2.1 := by
  unfold hoistExtraItems
  cases hs with
  | none => exact mirrored_pure ⟨h, .none⟩
  | some hc =>
    dsimp only
    rw [ht.complex, ht.anonymous]
    split
    · refine mirrored_madeHere hb h hc fun W₁ hW hoisted hoisted' hn => ?_
      have href := Schema.matches_referenceTo hn
      exact mirrored_pure ⟨(h.mono hW).mapExtraItem href, .some href⟩
    · exact mirrored_pure ⟨h, .some hc⟩

theorem mirrored_buildExtraItems {s s' : Option Schema} (h : f.Matches W top top' f')
    (hs : Option.Rel (Schema.Matches W) s s') :
    Alike W top top' (f.buildExtraItems setting build s) (f'.buildExtraItems setting build s') := by
  -- both ways to the type of the items go on alike
  have hrest : ∀ t t' : TypeInfo, t.Matches t' → Alike W top top'
      (do let x ← hoistExtraItems build f s t
          let items ← build (x.1.extraItemsPlace (x.2.1.getD {}) t.array)
          return x.1.setExtraItems (items.addExtra? x.2.2))
      (do let x ← hoistExtraItems build f' s' t'
          let items ← build (x.1.extraItemsPlace (x.2.1.getD {}) t'.array)
          return x.1.setExtraItems (items.addExtra? x.2.2)) := by
    intro t t' ht
    refine (mirrored_hoistExtraItems hb h hs ht).bind ?_
    rintro W₁ hW ⟨g, s, hoisted⟩ ⟨g', s', hoisted'⟩ ⟨hg, hs⟩
    dsimp only at hg hs ⊢
    rw [ht.array]
    have hitem : (s.getD {}).Matches W₁ (s'.getD {}) := by
      cases hs with
      | none => exact Schema.matches_of_childless rfl rfl
      | some hc => exact hc
    refine (hb.alike W₁ _ _ (hg.extraItemsPlace hitem t.array)).bind ?_
    exact fun W₂ hW₂ items items' _ => mirrored_pure ((hg.mono hW₂).setExtraItems _ _)
  cases hs with
  | none => exact mirrored_resolver (hrest .any .any (.refl _))
  | some hc => exact mirrored_resolve h hc rfl hrest

theorem mirrored_buildAdditionalItems (h : f.Matches W top top' f') :
    Alike W top top' (f.buildAdditionalItems setting build)
      (f'.buildAdditionalItems setting build) := by
  have hextra := h.schema.additionalItems
  have hsingle : f'.schema.singleItem?.isSome = f.schema.singleItem?.isSome := by
    rw [h.schema.eq, Schema.singleItem?_rename, Option.isSome_map]
  obtain ⟨below, hpath, hpath'⟩ := h.place.path
  unfold buildAdditionalItems
  rw [hsingle, hpath, hpath']
  generalize f.schema.additionalItems = extra, f'.schema.additionalItems = extra' at hextra ⊢
  cases hextra with
  | none => exact mirrored_pure h
  | flag b =>
    refine mirrored_ite rfl (fun _ => mirrored_pure (h.allowItems _ _)) fun _ => ?_
    exact mirrored_ite rfl (fun _ => mirrored_throw (.mixedItems below)) fun _ =>
      mirrored_buildExtraItems hb (h.allowItems _ _) .none
  | schema hc =>
    refine mirrored_ite rfl (fun _ => mirrored_pure (h.allowItems _ _)) fun _ => ?_
    exact mirrored_ite rfl (fun _ => mirrored_throw (.mixedItems below)) fun _ =>
      mirrored_buildExtraItems hb (h.allowItems _ _) (.some hc)

/-! ### Schemas -/

/-- **Counterparts are built alike**, if the frames below them are. -/
theorem mirrored_buildStep (h : f.Matches W top top' f') :
    Alike W top top' (f.buildStep setting build) (f'.buildStep setting build) := by
  refine (mirrored_populate h).bind fun W hW f f' h => ?_
  have hstart := h.dependOn f.schema.referenceName.toList f'.schema.referenceName.toList
  refine mirrored_ite (by rw [hstart.place.named, hstart.schema.isSome_reference])
    (fun _ => mirrored_buildReference hb hstart) fun _ => ?_
  refine (mirrored_liftBranch hstart).bind fun W hW f f' h => ?_
  refine (mirrored_buildAllOf hb h.fillContainer).bind fun W hW f f' h => ?_
  refine mirrored_resolve h h.schema (by rw [h.place.named]) fun t t' ht => ?_
  refine (mirrored_buildAdditionalProperties hb (h.setType ht.complex ht.baseType)).bind ?_
  intro W hW f f' h
  refine mirrored_resolve h.pointMap h.pointMap.schema (by rw [h.pointMap.place.named]) ?_
  intro t t' ht
  refine (mirrored_buildProperties hb (h.pointMap.retype ht)).bind fun W hW f f' h => ?_
  refine (mirrored_buildAdditionalItems hb h).bind fun W hW f f' h => ?_
  exact mirrored_buildItems hb h

end Steps

/-- **Counterparts are built alike**, to any depth. -/
theorem buildsAlike_buildIn (setting : Setting) (top top' : String) (depth : Nat) :
    BuildsAlike docs setting top top' (buildIn setting depth) where
  below _ _ _ _ h := ⟨depth, h⟩
  alike := by
    induction depth with
    | zero => exact fun _ _ _ _ => mirrored_throw .endless
    | succ depth ih => exact fun _ _ _ h => mirrored_buildStep ⟨fun _ _ _ _ h => ⟨depth, h⟩, ih⟩ h

end KclModels.Frame
