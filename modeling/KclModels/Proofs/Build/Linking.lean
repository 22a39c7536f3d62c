import KclModels.Proofs.Build.Links

/-!
# Building keeps frames linked

Each step of building is followed through its cases: it changes facts that links do not go by, or
takes over a frame that was built below, or makes a definition and takes its model out. A schema
that was replaced by a reference refers to a definition that was just made.
-/

namespace KclModels.Frame

open Build

variable {tr : Text.Transliteration}
variable {setting : Setting} {build : Frame → Build Frame} {known : String → Prop}
variable {bare : String → Option Bool} {s s' s₁ s₂ : Session} {f f' g h made : Frame}
variable {c d : Schema} {base : String}

/-- The way to build frames keeps them linked. -/
def BuildsLinked (bare : String → Option Bool) (build : Frame → Build Frame) : Prop :=
  ∀ known f s f' s', f.Linked known bare s.registry → f.Open → (build f).Gives s f' s' →
    Built known bare f s.registry f' s'.registry

/-- What is built of a frame below. -/
theorem BuildsLinked.below (hb : BuildsLinked bare build) (hs : (build g).Gives s f' s')
    (hg : g.Fresh) (hc : g.schema.Known known bare) :
    Built known bare g s.registry f' s'.registry :=
  hb known g s f' s' (hg.linked hc) hg.open hs

/-- The name that a definition is given is plain. -/
theorem plain_hoist [Text.Transliteration] (r : Registry) (f : Frame) (base : String) (c : Schema) :
    Naming.Plain (r.hoist (hoistBase f base) c).1 := by
  have hbase : Naming.Plain (hoistBase f base) := by
    unfold hoistBase
    dsimp only
    split <;> exact Naming.pascalize_plain _
  exact Naming.freshFrom_plain hbase _ _

/-- So it is a schema name as it is. -/
theorem schemaName_hoist (r : Registry) (f : Frame) (base : String) (c : Schema) :
    Naming.schemaName (r.hoist (hoistBase f base) c).1 = (r.hoist (hoistBase f base) c).1 :=
  Naming.schemaName_of_plain (plain_hoist r f base c)

/-- **A definition that is made is linked** as far as the frame it is made in knows. -/
theorem made_of_hoist (hb : BuildsLinked bare build) (hc : c.Known known bare)
    (hm : (hoist f base c).Gives s made s₁) (hh : (build g).Gives s₁ h s₂)
    (hname : g.name = made.name) (hs : g.schema = made.schema) (hg : g.Fresh) :
    Made known bare s.registry c h s₂.registry := by
  rw [gives_hoist] at hm
  obtain ⟨rfl, rfl⟩ := hm
  have hgrows := Registry.hoist_grows s.registry (hoistBase f base) c
  have hbuilt := hb.below hh hg (by rw [hs]; exact hc)
  have hn : h.name = (s.registry.hoist (hoistBase f base) c).1 :=
    hbuilt.carries.name.trans hname
  refine ⟨hbuilt.linked, hgrows.trans hbuilt.grows, hbuilt.titled, hc, ?_, ?_, ?_, ?_⟩
  · rw [hn]
    refine hbuilt.grows.keeps _ _ ?_
    rw [Registry.get?_hoist, if_pos rfl]
  · rw [hn]
    refine hbuilt.grows.hoisted _ ?_
    rw [Registry.hoisted_hoist]
    exact List.mem_append_right _ (List.mem_singleton_self _)
  · rw [hn]
    exact schemaName_hoist s.registry f base c
  · -- the registry got the definition itself and what was taken out while it was built
    intro n d hd
    rcases hbuilt.made n d hd with hd | hd
    · rw [Registry.get?_hoist] at hd
      split at hd
      · rename_i heq
        exact Or.inr (Or.inl (heq.trans hn.symm))
      · exact Or.inl hd
    · exact Or.inr (Or.inr hd)

/-- Of a definition that was just made nothing is built. -/
theorem made_fresh (hm : (hoist f base c).Gives s made s₁) : made.Fresh := by
  rw [gives_hoist] at hm
  obtain ⟨rfl, -⟩ := hm
  exact ⟨rfl, rfl, rfl⟩

/-! ## Changes of facts -/

theorem fillContainer_same (f : Frame) : Same f f.fillContainer := by
  unfold fillContainer
  split <;> exact ⟨rfl, rfl, rfl, rfl, rfl, rfl, fun ht => ht, rfl, rfl, fun _ hp => hp⟩

theorem setType_same (f : Frame) (t : TypeInfo) (isBase : Bool) : Same f (f.setType t isBase) :=
  ⟨rfl, rfl, rfl, rfl, rfl, rfl, fun ht => ht, rfl, rfl, fun _ hp => hp⟩

theorem deny_same (f : Frame) (extra : Extra Schema) : Same f (f.deny extra) :=
  ⟨rfl, rfl, rfl, rfl, rfl, rfl, fun ht => ht, rfl, rfl, fun _ hp => hp⟩

theorem markExtra_same (f : Frame) (declared : Bool) : Same f (f.markExtra declared) := by
  unfold markExtra
  split <;> exact ⟨rfl, rfl, rfl, rfl, rfl, rfl, fun ht => ht, rfl, rfl, fun _ hp => hp⟩

theorem allowAny_same (f : Frame) (declared : Bool) : Same f (f.allowAny declared) := by
  unfold allowAny
  split <;> exact ⟨rfl, rfl, rfl, rfl, rfl, rfl, fun ht => ht, rfl, rfl, fun _ hp => hp⟩

theorem require_same (f : Frame) (required : Bool) : Same f (f.require required) :=
  ⟨rfl, rfl, rfl, rfl, rfl, rfl, fun ht => ht, rfl, rfl, fun _ hp => hp⟩

theorem allowItems_same (f : Frame) (extra : Extra Schema) : Same f (f.allowItems extra) :=
  ⟨rfl, rfl, rfl, rfl, rfl, rfl, fun ht => ht, rfl, rfl, fun _ hp => hp⟩

theorem asTuple_same (f : Frame) : Same f f.asTuple :=
  ⟨rfl, rfl, rfl, rfl, rfl, rfl, fun ht => ht, rfl, rfl, fun _ hp => hp⟩

theorem markElements_same (f : Frame) (c : Schema) (p : Polymorphism) :
    Same f (f.markElements c p) := by
  unfold markElements
  split <;> exact ⟨rfl, rfl, rfl, rfl, rfl, rfl, fun ht => ht, rfl, rfl, fun _ hp => hp⟩

theorem markDiscriminated_same (f : Frame) (c : Schema) : Same f (f.markDiscriminated c) := by
  unfold markDiscriminated
  split <;> exact ⟨rfl, rfl, rfl, rfl, rfl, rfl, fun ht => ht, rfl, rfl, fun _ hp => hp⟩

theorem Same.trans (h : Same f f') (h' : Same f' g) : Same f g where
  name := h'.name.trans h.name
  named := h'.named.trans h.named
  schema := h'.schema.trans h.schema
  dependencies := h'.dependencies.trans h.dependencies
  extras := h'.extras.trans h.extras
  reference := h'.reference.trans h.reference
  titled ht := h'.titled (h.titled ht)
  items := h'.items.trans h.items
  value := h'.value.trans h.value
  parts p hp := h.parts p (h'.parts p hp)

theorem markRole_same (setting : Setting) (f : Frame) (reference : String) :
    Same f (f.markRole setting reference) ∧
      (f.markRole setting reference).model.type = f.model.type := by
  unfold markRole
  split <;> split <;> exact ⟨⟨rfl, rfl, rfl, rfl, rfl, rfl, fun ht => ht, rfl, rfl, fun _ hp => hp⟩, rfl⟩

theorem inheritConstraints_same (f : Frame) (c : Constraints) : Same f (f.inheritConstraints c) :=
  ⟨rfl, rfl, rfl, rfl, rfl, rfl, fun ht => ht, rfl, rfl, fun _ hp => hp⟩

theorem decorated_same (h : Decorated setting f f') : Same f f' ∧ f'.model.type = f.model.type := by
  rcases h with rfl | ⟨reference, rfl | ⟨c, rfl⟩⟩
  · exact ⟨⟨rfl, rfl, rfl, rfl, rfl, rfl, fun ht => ht, rfl, rfl, fun _ hp => hp⟩, rfl⟩
  · exact markRole_same setting f reference
  · obtain ⟨hs, ht⟩ := markRole_same setting f reference
    exact ⟨hs.trans (inheritConstraints_same _ c), ht⟩

theorem orderProperties_same (f : Frame) : Same f (f.orderProperties setting) where
  name := rfl
  named := rfl
  schema := rfl
  dependencies := rfl
  extras := rfl
  reference := rfl
  titled ht := ht
  items := rfl
  value := rfl
  parts p hp := by
    have hsorted : p ∈ Model.sortProperties f.model.properties setting.options.keepOrder ↔
        p ∈ f.model.properties := mem_sortBy
    rw [Model.mem_parts_iff] at hp ⊢
    exact hp.imp_right (Or.imp_right (Or.imp_left hsorted.mp))

theorem start_facts (setting : Setting) (f : Frame) (k : Constraints) :
    (f.start setting k).toPlace = f.toPlace ∧ (f.start setting k).schema = f.schema ∧
      (f.start setting k).dependencies = f.dependencies ++ f.schema.referenceName.toList ∧
      (f.start setting k).extras = f.extras ∧
      (f.start setting k).model.reference = f.schema.referenceName ∧
      (f.start setting k).model.name = f.name ∧
      (f.start setting k).model.declaredName = Naming.schemaName f.name ∧
      (f.start setting k).model.parts = f.model.parts ∧
      (f.start setting k).model.items = f.model.items ∧
      (f.start setting k).model.additionalProperties = f.model.additionalProperties := by
  refine ⟨rfl, rfl, rfl, rfl, rfl, rfl, ?_, rfl, rfl, rfl⟩
  dsimp only [start, dependOn, filled, mapModel]

theorem start_advances (setting : Setting) {r : Registry} (hf : f.Linked known bare r)
    (hopen : f.Open) (k : Constraints) :
    Advances known bare f r (f.start setting k) r ∧ (f.start setting k).Titled ∧
      (f.start setting k).Open := by
  obtain ⟨hplace, hs, hd, hx, href, hname, hdecl, hparts, hitems, hvalue⟩ :=
    start_facts setting f k
  generalize f.start setting k = f₀ at *
  -- to start a frame takes nothing out, but it notes what the schema refers to
  have hknows : f₀.Knows known = f.Knows known := by
    funext n
    rw [Knows, Knows, hx]
  have hdep : ∀ n ∈ f.dependencies, n ∈ f₀.dependencies :=
    fun n hn => hd ▸ List.mem_append_left f.schema.referenceName.toList hn
  have htitled : f₀.Titled := ⟨hname.trans (by rw [hplace]), hdecl.trans (by rw [hplace])⟩
  have hopen₀ : f₀.Open := ⟨hitems.trans hopen.1, hvalue.trans hopen.2⟩
  have hplain : f₀.Plain bare := fun _ _ _ _ _ => ⟨hopen₀.1, fun _ => hopen₀.2⟩
  refine ⟨⟨⟨?_, ?_, ?_, hplain, ?_, ?_, hx ▸ hf.sorted⟩, .refl r, ⟨by rw [hplace], by rw [hplace],
    hdep, fun n hn => hx ▸ hn, fun _ => htitled⟩, fun _ _ => Or.inl⟩, htitled, hopen₀⟩
  · rw [hs, hknows]
    exact hf.schema
  · intro n hn
    rw [hd] at hn
    rw [hknows]
    rcases List.mem_append.mp hn with hn | hn
    · exact hf.dependencies n hn
    · exact hf.schema.here.1 n (Option.mem_toList.mp hn)
  · intro n hn
    rw [href] at hn
    rw [hs, hd]
    exact ⟨List.mem_append_right _ (Option.mem_toList.mpr hn), fun _ _ _ => hn⟩
  · rw [hparts]
    exact fun p hp => (hf.parts p hp).mono fun _ hq => hq.mono hdep (.refl r)
  · rw [hx, hknows]
    exact fun n m hm => (hf.extras n m hm).mono (fun _ hn => hn) hdep (.refl r)

/-- A value that is pointed at an expression differs in that and in the values of the map it is. -/
theorem pointValue_eq (e : String) (m : Model) : pointValue e m = { m with
    valueExpression := e ++ "[" ++ m.keyVar ++ "]"
    additionalProperties := m.additionalProperties.map (pointValue (e ++ "[" ++ m.keyVar ++ "]")) } := by
  obtain ⟨facts, items, extraItems, properties, allOf, value⟩ := m
  cases value <;> rfl

/-- Pointing a model at an expression, and its values in some way, keeps what is said of it. -/
def Pointed (P : Model → Prop) : Prop :=
  ∀ (m : Model) (e : String) (g : Model → Model), P m →
    P { m with valueExpression := e, additionalProperties := m.additionalProperties.map g }

theorem linked_pointed {names : List String} {r : Registry} :
    Pointed (Model.Linked names bare r) := by
  intro m e g h n hn
  refine (h n hn).imp_right fun ht valued hv => ?_
  obtain ⟨htype, hitems, hvalue⟩ := ht valued hv
  refine ⟨htype, hitems, fun hno => ?_⟩
  show m.additionalProperties.map g = none
  rw [hvalue hno, Option.map_none]

/-- The values of maps keep what is said of them when they are pointed at an expression. -/
theorem everywhere_pointValue {P : Model → Prop} (hP : Pointed P) : ∀ (e : String) (m : Model),
    m.Everywhere P → (pointValue e m).Everywhere P
  | e, ⟨facts, items, extraItems, properties, allOf, value⟩, hall => by
    rw [pointValue_eq]
    refine Model.everywhere_of_parts (hP _ _ _ hall.here) fun p hp => ?_
    rw [Model.mem_parts_iff] at hp
    rcases hp with hp | hp | hp | hp | hp
    · exact hall.part (Model.mem_parts_iff.mpr (Or.inl hp))
    · exact hall.part (Model.mem_parts_iff.mpr (Or.inr (Or.inl hp)))
    · exact hall.part (Model.mem_parts_iff.mpr (Or.inr (Or.inr (Or.inl hp))))
    · exact hall.part (Model.mem_parts_iff.mpr (Or.inr (Or.inr (Or.inr (Or.inl hp)))))
    · cases value with
      | none => exact absurd hp (by simp)
      | some v =>
        obtain rfl := Option.some.inj hp
        refine everywhere_pointValue hP (e ++ "[" ++ facts.keyVar ++ "]") v ?_
        exact hall.part (Model.mem_parts_iff.mpr (Or.inr (Or.inr (Or.inr (Or.inr rfl)))))

theorem pointMap_parts {P : Model → Prop} (hP : Pointed P)
    (hp : ∀ p ∈ f.model.parts, p.Everywhere P) :
    ∀ p ∈ f.pointMap.model.parts, p.Everywhere P := by
  unfold pointMap
  split
  · intro p hm
    rw [Model.mem_parts_iff] at hm
    rcases hm with hm | hm | hm | hm | hm
    · exact hp p (Model.mem_parts_iff.mpr (Or.inl hm))
    · exact hp p (Model.mem_parts_iff.mpr (Or.inr (Or.inl hm)))
    · exact hp p (Model.mem_parts_iff.mpr (Or.inr (Or.inr (Or.inl hm))))
    · exact hp p (Model.mem_parts_iff.mpr (Or.inr (Or.inr (Or.inr (Or.inl hm)))))
    · obtain ⟨v, hv, rfl⟩ := Option.map_eq_some_iff.mp hm
      refine everywhere_pointValue hP _ v (hp v ?_)
      exact Model.mem_parts_iff.mpr (Or.inr (Or.inr (Or.inr (Or.inr hv))))
  · exact hp

/-- Everything of a pointed map but its values is as before. -/
theorem pointMap_facts (f : Frame) :
    f.pointMap.dependencies = f.dependencies ∧ f.pointMap.extras = f.extras ∧
      f.pointMap.model.reference = f.model.reference ∧ f.pointMap.model.type = f.model.type ∧
      f.pointMap.model.name = f.model.name ∧
      f.pointMap.model.declaredName = f.model.declaredName ∧
      f.pointMap.model.items = f.model.items ∧
      (f.model.additionalProperties = none → f.pointMap.model.additionalProperties = none) := by
  unfold pointMap
  split
  · refine ⟨rfl, rfl, rfl, rfl, rfl, rfl, rfl, fun hnone => ?_⟩
    show f.model.additionalProperties.map _ = none
    rw [hnone, Option.map_none]
  · exact ⟨rfl, rfl, rfl, rfl, rfl, rfl, rfl, id⟩

theorem pointMap_advances {r : Registry} (hf : f.Linked known bare r) :
    Advances known bare f r f.pointMap r := by
  obtain ⟨hdep, hextras, href, -, hname, hdecl, hitems, hvalue⟩ := pointMap_facts f
  have hplace : f.pointMap.toPlace = f.toPlace := pointMap_toPlace
  have hknows : f.pointMap.Knows known = f.Knows known := by
    funext n
    rw [Knows, Knows, hextras]
  refine ⟨⟨?_, ?_, ?_, ?_, ?_, ?_, ?_⟩, .refl r, ⟨?_, ?_, ?_, ?_, ?_⟩, fun _ _ => Or.inl⟩
  · rw [pointMap_schema, hknows]
    exact hf.schema
  · rw [hdep, hknows]
    exact hf.dependencies
  · rw [href, hdep, pointMap_schema, hplace]
    exact hf.reference
  · rw [Plain, hplace, pointMap_schema, hitems]
    intro n hn valued hv hnamed
    exact (hf.plain n hn valued hv hnamed).imp_right fun hnone hno => hvalue (hnone hno)
  · rw [hdep]
    exact pointMap_parts linked_pointed hf.parts
  · rw [hextras, hdep, hknows]
    exact hf.extras
  · rw [hextras]
    exact hf.sorted
  · rw [hplace]
  · rw [hplace]
  · rw [hdep]
    exact fun _ hn => hn
  · rw [hextras]
    exact fun _ hn => hn
  · rintro ⟨h₁, h₂⟩
    rw [Titled, hname, hdecl, hplace]
    exact ⟨h₁, h₂⟩

theorem Built.pointMap {r r' : Registry} (h : Built known bare f r f' r') :
    Built known bare f r f'.pointMap r' where
  toAdvances := h.toAdvances.trans (pointMap_advances h.linked)
  titled := (pointMap_advances h.linked).carries.titled h.titled
  settled := by
    obtain ⟨-, -, href, htype, -, -, hitems, hvalue⟩ := pointMap_facts f'
    have hplace : f'.pointMap.toPlace = f'.toPlace := pointMap_toPlace
    intro hnamed n hn valued hv
    rw [hplace] at hnamed
    rw [href] at hn
    obtain ⟨hname, hi, hnone⟩ := h.settled hnamed n hn valued hv
    exact ⟨htype ▸ hname, hitems.trans hi, fun hno => hvalue (hnone hno)⟩

/-! ## Compositions -/

theorem addBranch_takes (f g : Frame) : Takes f g (f.addBranch g) where
  name := rfl
  named := rfl
  schema := rfl
  dependencies := rfl
  extras := rfl
  reference := rfl
  modelName := rfl
  declaredName := rfl
  parts p hp := by
    rw [Model.mem_parts_iff] at hp ⊢
    rcases hp with hp | hp | hp | hp | hp
    · exact Or.inl (Or.inl hp)
    · exact Or.inl (Or.inr (Or.inl hp))
    · exact Or.inl (Or.inr (Or.inr (Or.inl hp)))
    · rcases List.mem_append.mp hp with hp | hp
      · exact Or.inl (Or.inr (Or.inr (Or.inr (Or.inl hp))))
      · rw [List.mem_singleton.mp hp]
        exact Or.inr ⟨rfl, rfl, rfl, rfl, rfl⟩
    · exact Or.inl (Or.inr (Or.inr (Or.inr (Or.inr hp))))

theorem Lifts.sole {r : Resolver} {b : Schema} (h : Lifts r c b) : c.Sole b := ⟨h.1, h.2.1⟩

/-- A branch that is lifted is a reference or a type without structure. -/
theorem Lifts.kind {r : Resolver} {b : Schema} (h : Lifts r c b) :
    b.reference.isSome = true ∨ b.isScalar = true := by
  obtain ⟨-, -, t, ht, hkind⟩ := h
  cases href : b.reference with
  | some reference => exact .inl rfl
  | none =>
    obtain ⟨hcomplex, hprimitive⟩ := Resolver.resolveWith_kind href ht
    rcases hkind with ⟨hnamed, hrecord⟩ | hscalar
    · rw [hcomplex, Schema.isRecord, Bool.and_eq_true] at hrecord
      exact absurd ((Resolver.resolve_saysObject href hrecord.1 ht).1.symm.trans hnamed) (by decide)
    · exact .inr (hprimitive.symm.trans hscalar)

/-- A steady schema gives way to no branch. -/
theorem not_lifts_of_steady {r : Resolver} (hc : c.Steady) (branch : Schema) :
    ¬ Lifts r c branch := by
  intro hlifts
  obtain ⟨href, hobject, -⟩ := hc.plain_of_sole hlifts.sole
  rcases hlifts.kind with hsome | hscalar
  · exact absurd (hsome.symm.trans (congrArg Option.isSome href)) (by decide)
  · exact absurd (hscalar.symm.trans (Schema.isScalar_of_saysObject hobject)) (by decide)

/-- No definition is made of a plain branch. -/
theorem branchNeedsName_of_plain {r : Resolver} {t : TypeInfo} (hc : c.Plain)
    (ht : r.resolve c c.reference.isNone false = .ok t) : branchNeedsName c t = false := by
  rw [hc.reference] at ht
  have harray := (Resolver.resolve_saysObject hc.reference hc.object ht).2
  have hprimitive := (Resolver.resolveWith_kind hc.reference ht).2
  rw [Schema.isScalar_of_saysObject hc.object] at hprimitive
  rw [branchNeedsName, hc.allOf, harray, hprimitive]
  simp

/-- A composition with a reference in the place of a branch that a definition was made of. -/
theorem known_mapBranch {branch : Schema} {index : Nat} {n : String}
    (hf : f.schema.Known known bare) (hi : f.schema.allOf[index]? = some branch)
    (hbranch : ¬ branch.Plain) (hc : (Schema.referenceTo n).Known known bare) :
    (f.mapBranch index (.referenceTo n)).schema.Known known bare := by
  refine hf.rewrite rfl (fun _ _ hb => ?_) fun d hd => ?_
  · exact ⟨hb.items, hb.branches.rename (.set hi hbranch n), hb.values⟩
  · rcases Schema.mem_children_setBranch hd with hd | rfl
    · exact Or.inl hd
    · exact Or.inr hc

theorem liftBranch_advances (hf : f.Linked known bare s.registry) (hopen : f.Open)
    (h : (f.liftBranch setting).Gives s f' s') :
    Advances known bare f s.registry f' s.registry := by
  obtain ⟨-, ⟨rfl, -⟩ | ⟨branch, hl, rfl⟩⟩ := liftBranch_cases h
  · exact hf.advances
  · have hbranch := hf.schema.child (Schema.branch_mem_children hl.mem)
    have hdep : ∀ n ∈ f.dependencies, n ∈ (f.lift branch).dependencies :=
      fun n hn => List.mem_append_left branch.referenceName.toList hn
    have hplain : (f.lift branch).Plain bare := fun _ _ _ _ _ => ⟨hopen.1, fun _ => hopen.2⟩
    refine ⟨⟨hbranch, ?_, ?_, hplain, ?_, ?_, hf.sorted⟩, .refl _,
      ⟨rfl, rfl, hdep, fun _ hn => hn, fun ht => ht⟩, fun _ _ => Or.inl⟩
    · intro n hn
      rcases List.mem_append.mp hn with hn | hn
      · exact hf.dependencies n hn
      · exact hbranch.here.1 n (Option.mem_toList.mp hn)
    · intro n hn
      obtain ⟨hmem, hb⟩ := hf.reference n hn
      refine ⟨hdep n hmem, fun valued hv hnamed => ?_⟩
      -- a bare reference has no branch to lift
      have hbare := hf.schema.here.2 n (hb valued hv hnamed) valued hv
      exact absurd hl (not_lifts_of_steady hbare.branches branch)
    · exact fun p hp => (hf.parts p hp).mono fun _ hq => hq.mono hdep (.refl _)
    · exact fun n m hm => (hf.extras n m hm).mono (fun _ hn => hn) hdep (.refl _)

/-- The branches after the one that is built are still those of the schema. -/
theorem buildBranch_rest {index : Nat} {branch : Schema} {rest : List Schema} {array : Bool}
    (hs : (f.buildBranch setting build index branch).Gives s (f', array) s')
    (hsame : ∀ j : Nat, (branch :: rest)[j]? = f.schema.allOf[index + j]?) (j : Nat) :
    rest[j]? = f'.schema.allOf[index + 1 + j]? := by
  have hlater : f'.schema.allOf[index + 1 + j]? = f.schema.allOf[index + 1 + j]? := by
    obtain ⟨t, -, ⟨-, _, _, _, h, _, _, -, -, -, rfl⟩ | ⟨-, _, -, rfl⟩⟩ := buildBranch_cases hs
    · exact List.getElem?_set_ne (by omega)
    · rfl
  rw [hlater, show index + 1 + j = index + (j + 1) by omega, ← hsame (j + 1), List.getElem?_cons_succ]

variable (hb : BuildsLinked bare build)

include hb

theorem buildBranch_advances {index : Nat} {branch : Schema} {array : Bool}
    (hf : f.Linked known bare s.registry) (hc : branch.Known (f.Knows known) bare)
    (hi : f.schema.allOf[index]? = some branch)
    (hs : (f.buildBranch setting build index branch).Gives s (f', array) s') :
    Advances known bare f s.registry f' s'.registry := by
  obtain ⟨t, ht, ⟨hneeds, base, made, s₁, h, s₂, g, hm, hh, hg, rfl⟩ | ⟨-, g, hg, rfl⟩⟩ :=
    buildBranch_cases hs
  · have H := made_of_hoist hb hc hm hh rfl rfl (made_fresh hm)
    have hplain : ¬ branch.Plain := fun hplain =>
      absurd (hneeds.symm.trans (branchNeedsName_of_plain hplain ht)) (by decide)
    have href : (Schema.referenceTo h.name).Known (f.Knows (knownWith known h)) bare :=
      Schema.known_referenceTo (Or.inl (Or.inr (Or.inl rfl)))
    have hf₁ : (f.mapBranch index (.referenceTo h.name)).Linked (knownWith known h) bare
        s₂.registry :=
      (H.after hf).rewrite rfl rfl rfl (known_mapBranch (H.after hf).schema hi hplain href)
        (Or.inr ⟨rfl, rfl⟩)
    have hbuilt := hb.below hg ⟨rfl, rfl, rfl⟩ href
    exact H.takes hf₁ (mapSchema_carries f _) hbuilt rfl (addBranch_takes _ _) hf.plain
      fun _ hn => hn
  · have hbuilt := hb.below hg ⟨rfl, rfl, rfl⟩ hc
    exact (addBranch_takes f g.pointMap).advances hf hbuilt.pointMap rfl hf.plain

theorem buildBranches_advances {branches : List Schema} : ∀ {index : Nat} {arrays : List Bool}
    {f f' : Frame} {s s' : Session}, f.Linked known bare s.registry →
    (∀ c ∈ branches, c.Known (f.Knows known) bare) →
    (∀ j : Nat, branches[j]? = f.schema.allOf[index + j]?) →
    (f.buildBranches setting build index branches).Gives s (f', arrays) s' →
    Advances known bare f s.registry f' s'.registry := by
  induction branches with
  | nil =>
    intro index arrays f f' s s' hf _ _ hs
    simp only [buildBranches, gives_pure, Prod.mk.injEq] at hs
    obtain ⟨⟨rfl, -⟩, rfl⟩ := hs
    exact hf.advances
  | cons branch rest ih =>
    intro index arrays f f' s s' hf hc hsame hs
    obtain ⟨f₁, array, s₁, arrays', h₁, h₂⟩ := buildBranches_cons_cases hs
    have hstep := buildBranch_advances hb hf (hc branch List.mem_cons_self) (hsame 0).symm h₁
    refine hstep.trans (ih hstep.linked (fun c hm => ?_) (buildBranch_rest h₁ hsame) h₂)
    exact (hc c (List.mem_cons_of_mem _ hm)).mono fun _ hn => hn.carried hstep.carries

theorem buildAllOf_advances (hf : f.Linked known bare s.registry)
    (hs : (f.buildAllOf setting build).Gives s f' s') :
    Advances known bare f s.registry f' s'.registry := by
  rcases buildAllOf_cases hs with ⟨-, rfl, rfl⟩ | ⟨-, arrays, s₁, hbranches, hreg⟩
  · exact hf.advances
  · rw [hreg]
    exact buildBranches_advances hb hf
      (fun c hc => hf.schema.child (Schema.branch_mem_children hc))
      (fun j => by rw [Nat.zero_add]) hbranches

/-! ## Additional properties -/

omit hb in
theorem setValue_takes (f g : Frame) : Takes f g (f.setValue g) where
  name := rfl
  named := rfl
  schema := rfl
  dependencies := rfl
  extras := rfl
  reference := rfl
  modelName := rfl
  declaredName := rfl
  parts p hp := by
    rw [Model.mem_parts_iff] at hp ⊢
    rcases hp with hp | hp | hp | hp | hp
    · exact Or.inl (Or.inl hp)
    · exact Or.inl (Or.inr (Or.inl hp))
    · exact Or.inl (Or.inr (Or.inr (Or.inl hp)))
    · exact Or.inl (Or.inr (Or.inr (Or.inr (Or.inl hp))))
    · obtain rfl := Option.some.inj hp
      exact Or.inr ⟨rfl, rfl, rfl, rfl, rfl⟩

omit hb in
theorem setStore_takes (f g : Frame) : Takes f g (f.setStore g) where
  name := rfl
  named := rfl
  schema := rfl
  dependencies := rfl
  extras := rfl
  reference := rfl
  modelName := rfl
  declaredName := rfl
  parts p hp := by
    rw [Model.mem_parts_iff] at hp ⊢
    rcases hp with hp | hp | hp | hp | hp
    · exact Or.inl (Or.inl hp)
    · exact Or.inl (Or.inr (Or.inl hp))
    · exact Or.inl (Or.inr (Or.inr (Or.inl hp)))
    · exact Or.inl (Or.inr (Or.inr (Or.inr (Or.inl hp))))
    · obtain rfl := Option.some.inj hp
      exact Or.inr ⟨rfl, rfl, rfl, rfl, rfl⟩

omit hb in
theorem hasAdditionalProperties_of_value {value : Schema}
    (h : c.additionalProperties = some (.schema value)) : c.hasAdditionalProperties = true := by
  rw [Schema.hasAdditionalProperties, h]
  rfl

omit hb in
/-- A bare reference that is not valued has no values beyond declared properties. -/
theorem plain_of_values {r : Registry} (hf : f.Linked known bare r)
    (h : f.schema.hasAdditionalProperties = true) (hnamed : f'.named = f.named)
    (href : f'.schema.reference = f.schema.reference) (hitems : f'.model.items = f.model.items) :
    f'.Plain bare := by
  intro n hn valued hv hunnamed
  rw [Schema.referenceName, href] at hn
  refine ⟨hitems.trans (hf.plain n hn valued hv (hnamed ▸ hunnamed)).1, fun hno => ?_⟩
  exact absurd (h.symm.trans ((hf.schema.here.2 n hn valued hv).values hno)) (by decide)

omit hb in
/-- An object with another schema of its values. -/
theorem known_mapExtraValue {c : Schema} (hf : f.schema.Known known bare)
    (hv : f.schema.reference.isSome = true → f.schema.hasAdditionalProperties = true)
    (hc : c.Known known bare) : (f.mapExtraValue c).schema.Known known bare := by
  refine hf.rewrite rfl (fun _ href hb => ?_) fun d hd => ?_
  · exact ⟨hb.items, hb.branches,
      fun hno => absurd ((hv href).symm.trans (hb.values hno)) (by decide)⟩
  · rcases Schema.mem_children_setValue hd with hd | rfl
    · exact Or.inl hd
    · exact Or.inr hc

theorem buildMapLeaf_built {parent level : Frame} {t : TypeInfo} (hlevel : level.Fresh)
    (hc : level.schema.Known known bare)
    (hs : (buildMapLeaf build parent level t).Gives s f' s') :
    Built known bare level s.registry f' s'.registry := by
  obtain ⟨hmodel, hdep, hextras⟩ := hlevel
  -- the level is fresh, so it had nothing that could be lost
  have hnone : ∀ g : Frame, (∀ n ∈ level.dependencies, n ∈ g.dependencies) ∧
      ∀ n ∈ Assoc.keys level.extras, n ∈ Assoc.keys g.extras := by
    rw [hdep, hextras]
    exact fun _ => ⟨fun _ hn => absurd hn List.not_mem_nil, fun _ hn => absurd hn List.not_mem_nil⟩
  rcases buildMapLeaf_cases hs with ⟨-, base, made, s₁, h, s₂, required, hm, hh, hg⟩ |
    ⟨-, required, hg⟩
  · have H := made_of_hoist hb hc hm hh rfl rfl (made_fresh hm)
    have hlinked := H.refer (g := level.referTo h.name) ⟨hmodel, hdep, hextras⟩ rfl
    have hopen : (((level.referTo h.name).addExtra h).require required).Open := by
      show level.model.items = none ∧ level.model.additionalProperties = none
      rw [hmodel]
      exact ⟨rfl, rfl⟩
    have hbuilt := hb _ _ _ _ _ ((require_same _ required).linked hlinked) hopen hg
    have hfrom := H.built hbuilt (mem_keys_addExtra (Or.inl rfl))
      fun _ hn => mem_keys_addExtra (Or.inr hn)
    exact hfrom.of_place rfl rfl (hnone _).1 (hnone _).2
  · have hbuilt := hb.below hg ⟨hmodel, hdep, hextras⟩ hc
    exact hbuilt.of_place rfl rfl (hnone _).1 (hnone _).2

omit hb in
/-- A level of maps before its values are taken over: it has its name and nothing below it. -/
theorem mapLevel_facts (setting : Setting) {level : Frame} (hlevel : level.Fresh) (c : Schema)
    (k : Constraints) (t : TypeInfo) :
    (((level.mapExtraValue c).filled setting k).makeMap t).toPlace = level.toPlace ∧
      (((level.mapExtraValue c).filled setting k).makeMap t).schema =
        (level.mapExtraValue c).schema ∧
      (((level.mapExtraValue c).filled setting k).makeMap t).dependencies = [] ∧
      (((level.mapExtraValue c).filled setting k).makeMap t).extras = [] ∧
      (((level.mapExtraValue c).filled setting k).makeMap t).model.reference =
        level.schema.referenceName ∧
      (((level.mapExtraValue c).filled setting k).makeMap t).model.parts = [] ∧
      (((level.mapExtraValue c).filled setting k).makeMap t).Titled := by
  obtain ⟨hmodel, hdep, hextras⟩ := hlevel
  refine ⟨rfl, rfl, hdep, hextras, rfl, ?_, rfl, ?_⟩
  · show level.model.parts = []
    rw [hmodel]
    rfl
  · dsimp only [filled, makeMap, mapModel]

omit hb in
theorem joinMapLevel_built {level child g₀ : Frame} {r : Registry} (hlevel : level.Fresh)
    (href : level.schema.reference = none) (hc : level.schema.Known known bare)
    (hchild : Built known bare g₀ r child s.registry) (hg₀ : g₀.named = false)
    (hs : (level.joinMapLevel setting child).Gives s f' s') :
    Built known bare level r f' s'.registry := by
  obtain ⟨k, t, -, rfl, hreg⟩ := joinMapLevel_cases hs
  obtain ⟨hplace, hschema, hdep, hextras, hreference, hparts, htitled⟩ :=
    mapLevel_facts setting hlevel child.schema k t
  generalize ((level.mapExtraValue child.schema).filled setting k).makeMap t = f₁ at *
  have hnone : f₁.model.reference = none := by
    rw [hreference, Schema.referenceName_eq_none href]
  have hplain : ∀ f : Frame, f.schema = f₁.schema → f.Plain bare := by
    intro f hf n hn
    rw [hf, hschema] at hn
    have hreference : (level.mapExtraValue child.schema).schema.reference = none := href
    rw [Schema.referenceName_eq_none hreference] at hn
    exact absurd hn (by simp)
  rw [hreg]
  have htakes := setValue_takes f₁ child
  -- the level knows what was taken out below it, too, before it takes that over
  let known₁ : String → Prop := fun n => known n ∨ n ∈ Assoc.keys child.extras
  have hf₁ : f₁.Linked known₁ bare r := by
    refine ⟨?_, ?_, ?_, hplain f₁ rfl, ?_, ?_, ?_⟩
    · rw [hschema]
      have hlevel₁ : level.schema.Known known₁ bare := hc.mono fun _ => Or.inl
      have hvalue : child.schema.Known known₁ bare := hchild.linked.schema
      exact (known_mapExtraValue hlevel₁ (by rw [href]; simp) hvalue).mono fun _ => Or.inl
    · rw [hdep]
      exact fun _ hn => absurd hn List.not_mem_nil
    · rw [hnone]
      exact fun n hn => absurd hn (by simp)
    · rw [hparts]
      exact fun _ hn => absurd hn List.not_mem_nil
    · rw [hextras]
      exact fun _ _ hn => absurd hn List.not_mem_nil
    · rw [hextras]
      exact Assoc.sorted_nil
  refine ⟨⟨?_, hchild.grows, ⟨?_, ?_, ?_, ?_, fun _ => ?_⟩, ?_⟩, ?_, ?_⟩
  · refine htakes.linked hf₁ ?_ hchild.grows hchild.linked (fun _ => Or.inl)
      (hchild.everywhere hg₀) (hplain _ rfl)
    exact fun n hn => hn.imp_right (htakes.extras_below n)
  · exact htakes.name.trans (by rw [hplace])
  · exact htakes.named.trans (by rw [hplace])
  · rw [hlevel.dependencies]
    exact fun _ hn => absurd hn List.not_mem_nil
  · rw [hlevel.extras]
    exact fun _ hn => absurd hn List.not_mem_nil
  · exact htakes.carries.titled htitled
  · exact fun n c hc => (hchild.made n c hc).imp_right (htakes.extras_below n)
  · exact htakes.carries.titled htitled
  · intro _ n hn
    rw [htakes.reference, hnone] at hn
    exact absurd hn (by simp)

theorem buildMapLevel_built (v : Schema) : ∀ {parent f' : Frame} {s s' : Session},
    v.Known known bare → (buildMapLevel setting build parent v).Gives s f' s' →
    Built known bare (parent.mapValue v) s.registry f' s'.registry := by
  induction v using Schema.value_induction with
  | step v ih =>
    intro parent f' s s' hc hs
    obtain ⟨t, -, ⟨next, child, s₁, hv, -, href, hchild, hjoin⟩ | ⟨-, hleaf⟩⟩ :=
      buildMapLevel_cases hs
    · have hnext := ih next hv (hc.child (Schema.value_mem_children hv)) hchild
      exact joinMapLevel_built ⟨rfl, rfl, rfl⟩ href hc hnext rfl hjoin
    · exact buildMapLeaf_built hb ⟨rfl, rfl, rfl⟩ hc hleaf

theorem buildMap_advances {value : Schema} (hf : f.Linked known bare s.registry)
    (hv : f.schema.additionalProperties = some (.schema value))
    (hs : (f.buildMap setting build value).Gives s f' s') :
    Advances known bare f s.registry f' s'.registry := by
  obtain ⟨child, hchild, rfl⟩ := buildMap_cases hs
  have hbuilt := buildMapLevel_built hb value
    (hf.schema.child (Schema.value_mem_children hv)) hchild
  have htakes := setValue_takes (f.mapExtraValue child.schema) child
  have hhas := hasAdditionalProperties_of_value hv
  -- the schema of the frame changes first, to one that refers to what was taken out below
  let known₁ : String → Prop := fun n => known n ∨ n ∈ Assoc.keys child.extras
  have hvalue : child.schema.Known (f.Knows known₁) bare := by
    refine hbuilt.linked.schema.mono fun n hn => ?_
    rcases hn with (hn | hn) | hn
    · exact Or.inl (Or.inl hn)
    · exact Or.inr hn
    · exact Or.inl (Or.inr hn)
  have hf₁ : (f.mapExtraValue child.schema).Linked known₁ bare s.registry := by
    have hf' : f.Linked known₁ bare s.registry := hf.mono fun _ => Or.inl
    exact hf'.rewrite rfl rfl rfl (known_mapExtraValue hf'.schema (fun _ => hhas) hvalue)
      (Or.inr ⟨rfl, rfl⟩)
  have hcarries : Carries f ((f.mapExtraValue child.schema).setValue child) :=
    (mapSchema_carries f _).trans htakes.carries
  refine ⟨?_, hbuilt.grows, hcarries, ?_⟩
  · refine htakes.linked hf₁ ?_ hbuilt.grows hbuilt.linked ?_ (hbuilt.everywhere rfl)
      (plain_of_values hf hhas rfl rfl rfl)
    · exact fun n hn => hn.imp_right (htakes.extras_below n)
    · exact fun n hn => hn.imp_right (hcarries.extras n)
  · exact fun n c hc => (hbuilt.made n c hc).imp_right (htakes.extras_below n)

theorem hoistExtended_advances (hf : f.Linked known bare s.registry)
    (hs : (f.hoistExtended build).Gives s f' s') :
    Advances known bare f s.registry f' s'.registry := by
  obtain ⟨base, made, s₁, h, s₂, g, hm, hh, hg, rfl⟩ := hoistExtended_cases hs
  have H := made_of_hoist hb hf.schema hm hh rfl rfl (made_fresh hm)
  have hf₁ : (f.referTo h.name).restart.Linked (knownWith known h) bare s₂.registry :=
    (H.after hf).rewrite rfl rfl rfl (Schema.known_referenceTo (Or.inl (Or.inr (Or.inl rfl))))
      (Or.inl rfl)
  exact (H.again (hb _ _ _ _ _ hf₁ ⟨rfl, rfl⟩ hg) rfl rfl rfl rfl).1

theorem buildExtraValues_advances {value : Schema} (hf : f.Linked known bare s.registry)
    (hv : f.schema.additionalProperties = some (.schema value))
    (hs : (f.buildExtraValues setting build value).Gives s f' s') :
    Advances known bare f s.registry f' s'.registry := by
  obtain ⟨t, -, ⟨-, base, made, s₁, h, s₂, g, required, hm, hh, hg, rfl⟩ |
    ⟨-, g, required, hg, rfl⟩⟩ := buildExtraValues_cases hs
  all_goals
    have hc : value.Known (f.Knows known) bare := hf.schema.child (Schema.value_mem_children hv)
    have hhas := hasAdditionalProperties_of_value hv
  · have H := made_of_hoist hb hc hm hh rfl rfl (made_fresh hm)
    have href : (Schema.referenceTo h.name).Known (f.Knows (knownWith known h)) bare :=
      Schema.known_referenceTo (Or.inl (Or.inr (Or.inl rfl)))
    -- a reference to the definition takes the place of the values, in the schema as well
    have hf₁ : (f.referValue h.name).Linked (knownWith known h) bare s₂.registry :=
      (H.after hf).rewrite rfl rfl rfl (known_mapExtraValue (H.after hf).schema (fun _ => hhas) href)
        (Or.inr ⟨rfl, rfl⟩)
    have hbuilt := hb.below hg ⟨rfl, rfl, rfl⟩ href
    have hcarries : Carries f (f.referValue h.name) :=
      ⟨rfl, rfl, fun _ hn => hn, fun _ hn => hn, fun ht => ht⟩
    exact H.takes hf₁ hcarries hbuilt rfl (setStore_takes _ _)
      (plain_of_values hf hhas rfl rfl rfl) fun _ hn => hn
  · have hbuilt := hb.below hg ⟨rfl, rfl, rfl⟩ hc
    exact (setStore_takes f g).advances hf hbuilt rfl (plain_of_values hf hhas rfl rfl rfl)

theorem buildAnyValues_advances {declared : Bool} (hf : f.Linked known bare s.registry)
    (hhas : f.schema.hasAdditionalProperties = true)
    (hs : (f.buildAnyValues build declared).Gives s f' s') :
    Advances known bare f s.registry f' s'.registry := by
  obtain ⟨g, hg, rfl⟩ := buildAnyValues_cases hs
  have hsame := allowAny_same f declared
  have hstep := hsame.advances hf
  have hc : (Schema.typed "object").Known ((f.allowAny declared).Knows known) bare := by
    refine Schema.known_of_plain rfl fun d hd => ?_
    rw [Schema.children_typed] at hd
    exact absurd hd List.not_mem_nil
  have hbuilt := hb.below hg ⟨rfl, rfl, rfl⟩ hc
  have hplain : ((f.allowAny declared).setValue g).Plain bare :=
    plain_of_values hf hhas hsame.named (congrArg (fun c : Schema => c.reference) hsame.schema)
      hsame.items
  exact hstep.trans ((setValue_takes _ g).advances hstep.linked hbuilt rfl hplain)

theorem buildAdditionalProperties_advances (hf : f.Linked known bare s.registry)
    (hs : (f.buildAdditionalProperties setting build).Gives s f' s') :
    Advances known bare f s.registry f' s'.registry := by
  rcases buildAdditionalProperties_cases hs with ⟨-, rfl, rfl⟩ | ⟨extra, hextra, hcases⟩
  · exact hf.advances
  · -- to note what is known of the values touches nothing that links are about
    have hsame : ∀ declared, Same f ((f.deny extra).markExtra declared) := fun declared =>
      (deny_same f extra).trans (markExtra_same _ declared)
    have hmark : ∀ declared, Advances known bare f s.registry
        ((f.deny extra).markExtra declared) s.registry := fun declared =>
      (hsame declared).advances hf
    have hvalue : ∀ declared,
        ((f.deny extra).markExtra declared).schema.additionalProperties = some extra := by
      intro declared
      rw [(hsame declared).schema]
      exact hextra
    rcases hcases with ⟨-, rfl, rfl⟩ | ⟨rfl, hany⟩ | ⟨value, rfl, ⟨-, hmap⟩ | ⟨-, -, hhoist⟩ |
      ⟨-, -, hvalues⟩⟩
    · exact (deny_same f extra).advances hf
    · refine (hmark _).trans (buildAnyValues_advances hb (hmark _).linked ?_ hany)
      rw [Schema.hasAdditionalProperties, hvalue]
      rfl
    · exact (hmark _).trans (buildMap_advances hb (hmark _).linked (hvalue _) hmap)
    · exact (hmark _).trans (hoistExtended_advances hb (hmark _).linked hhoist)
    · exact (hmark _).trans (buildExtraValues_advances hb (hmark _).linked (hvalue _) hvalues)

/-! ## Properties -/

omit hb in
theorem addProperty_takes (f g : Frame) (position : Nat) :
    Takes f g (f.addProperty g position) where
  name := rfl
  named := rfl
  schema := rfl
  dependencies := rfl
  extras := rfl
  reference := rfl
  modelName := rfl
  declaredName := rfl
  parts p hp := by
    rw [Model.mem_parts_iff] at hp ⊢
    rcases hp with hp | hp | hp | hp | hp
    · exact Or.inl (Or.inl hp)
    · exact Or.inl (Or.inr (Or.inl hp))
    · rcases List.mem_append.mp hp with hp | hp
      · exact Or.inl (Or.inr (Or.inr (Or.inl hp)))
      · rw [List.mem_singleton.mp hp]
        exact Or.inr ⟨rfl, rfl, rfl, rfl, rfl⟩
    · exact Or.inl (Or.inr (Or.inr (Or.inr (Or.inl hp))))
    · exact Or.inl (Or.inr (Or.inr (Or.inr (Or.inr hp))))

omit hb in
/-- A property is added to a frame that stays the same but for it. -/
theorem buildProperty_retains {position : Nat} {name : String}
    (hs : (f.buildProperty setting build position name c).Gives s f' s') : Retains f f' := by
  obtain ⟨t, -, ⟨-, _, _, _, _, _, _, _, _, -, -, -, -, rfl⟩ | ⟨-, _, _, _, -, -, rfl⟩⟩ :=
    buildProperty_cases hs
  · exact ⟨⟨rfl, rfl, rfl, rfl, rfl⟩, rfl, rfl, f.schema.exists_additionalItems⟩
  · exact ⟨⟨rfl, rfl, rfl, rfl, rfl⟩, rfl, rfl, f.schema.exists_additionalItems⟩

theorem buildProperty_advances {position : Nat} {name : String}
    (hf : f.Linked known bare s.registry) (hc : c.Known (f.Knows known) bare)
    (hs : (f.buildProperty setting build position name c).Gives s f' s') :
    Advances known bare f s.registry f' s'.registry := by
  obtain ⟨t, -, ⟨-, base, made, s₁, h, s₂, required, g, g', hm, hh, hg, hd, rfl⟩ |
    ⟨-, required, g, g', hg, hd, rfl⟩⟩ := buildProperty_cases hs
  · have hmade := made_fresh hm
    have H := (made_of_hoist hb hc hm hh rfl rfl ⟨hmade.1, hmade.2, hmade.3⟩).same
      (markDiscriminated_same h c)
    have hstep := H.taken hf
    have href : (Schema.referenceTo h.name).Known
        ((f.addExtra (h.markDiscriminated c)).Knows known) bare := by
      refine Schema.known_referenceTo (Or.inr (mem_keys_addExtra (Or.inl ?_)))
      exact (markDiscriminated_same h c).name.symm
    have hbuilt := hb.below hg ⟨rfl, rfl, rfl⟩ href
    -- what the property refers to is looked at last, which changes none of its links
    obtain ⟨hsame, htype⟩ := decorated_same hd
    have hbuilt' := hbuilt.same hsame htype
    have htakes := addProperty_takes (f.addExtra (h.markDiscriminated c)) g' position
    exact hstep.trans (htakes.advances hstep.linked hbuilt' rfl hstep.linked.plain)
  · have hbuilt := hb.below hg ⟨rfl, rfl, rfl⟩ hc
    obtain ⟨hsame, htype⟩ := decorated_same hd
    have hbuilt' := hbuilt.same hsame htype
    exact (addProperty_takes f g' position).advances hf hbuilt' rfl hf.plain

omit hb in
theorem buildPropertyList_retains {position : Nat} {properties : List (String × Schema)}
    (hs : (f.buildPropertyList setting build position properties).Gives s f' s') : Retains f f' :=
  buildPropertyList_run (R := fun f _ f' _ => Retains f f') (fun f _ => .refl f) Retains.trans
    buildProperty_retains hs

theorem buildPropertyList_advances {properties : List (String × Schema)} : ∀ {position : Nat}
    {f f' : Frame} {s s' : Session}, f.Linked known bare s.registry →
    (∀ p ∈ properties, p.2.Known (f.Knows known) bare) →
    (f.buildPropertyList setting build position properties).Gives s f' s' →
    Advances known bare f s.registry f' s'.registry := by
  induction properties with
  | nil =>
    intro position f f' s s' hf _ hs
    simp only [buildPropertyList, gives_pure] at hs
    obtain ⟨rfl, rfl⟩ := hs
    exact hf.advances
  | cons p rest ih =>
    intro position f f' s s' hf hc hs
    obtain ⟨f₁, s₁, h₁, h₂⟩ := buildPropertyList_cons_cases hs
    have hstep := buildProperty_advances hb hf (hc p List.mem_cons_self) h₁
    have hrest : ∀ q ∈ rest, q.2.Known (f₁.Knows known) bare := fun q hq =>
      (hc q (List.mem_cons_of_mem _ hq)).mono fun _ hn => hn.carried hstep.carries
    exact hstep.trans (ih hstep.linked hrest h₂)

omit hb in
theorem buildProperties_retains (hs : (f.buildProperties setting build).Gives s f' s') :
    Retains f f' := by
  obtain ⟨f₁, hlist, rfl⟩ := buildProperties_cases hs
  have hordered : Retains f₁ (f₁.orderProperties setting) :=
    ⟨⟨rfl, rfl, rfl, rfl, rfl⟩, rfl, rfl, f₁.schema.exists_additionalItems⟩
  exact (buildPropertyList_retains hlist).trans hordered

theorem buildProperties_advances (hf : f.Linked known bare s.registry)
    (hs : (f.buildProperties setting build).Gives s f' s') :
    Advances known bare f s.registry f' s'.registry := by
  obtain ⟨f₁, hlist, rfl⟩ := buildProperties_cases hs
  have hc : ∀ p ∈ f.schema.properties, p.2.Known (f.Knows known) bare :=
    fun p hp => hf.schema.child (Schema.property_mem_children hp)
  have hsteps := buildPropertyList_advances hb hf hc hlist
  exact hsteps.trans ((orderProperties_same f₁).advances hsteps.linked)

/-! ## Items -/

omit hb in
/-- An array with another schema of its elements. -/
theorem known_mapItem {c item : Schema} (hf : f.schema.Known known bare)
    (hitem : f.schema.items = some (.single item)) (hc : c.Known known bare) :
    (f.mapItem c).schema.Known known bare := by
  refine hf.rewrite rfl (fun _ _ hb => ?_) fun d hd => ?_
  · have hnone := hb.items
    rw [Schema.singleItem?, hitem] at hnone
    exact absurd hnone (by simp)
  · rcases Schema.mem_children_setItem hd with hd | rfl
    · exact Or.inl hd
    · exact Or.inr hc

omit hb in
theorem setElement_takes (f g : Frame) : Takes f g (f.setElement g) where
  name := rfl
  named := rfl
  schema := rfl
  dependencies := rfl
  extras := rfl
  reference := rfl
  modelName := rfl
  declaredName := rfl
  parts p hp := by
    rw [Model.mem_parts_iff] at hp ⊢
    rcases hp with hp | hp | hp | hp | hp
    · obtain rfl := Option.some.inj hp
      exact Or.inr ⟨rfl, rfl, rfl, rfl, rfl⟩
    · exact Or.inl (Or.inr (Or.inl hp))
    · exact Or.inl (Or.inr (Or.inr (Or.inl hp)))
    · exact Or.inl (Or.inr (Or.inr (Or.inr (Or.inl hp))))
    · exact Or.inl (Or.inr (Or.inr (Or.inr (Or.inr hp))))

theorem buildArray_advances {item : Schema} (hf : f.Linked known bare s.registry)
    (hitem : f.schema.items = some (.single item))
    (hs : (f.buildArray setting build item).Gives s f' s') :
    Advances known bare f s.registry f' s'.registry ∧ f'.Settled bare s'.registry := by
  have hc : item.Known (f.Knows known) bare := hf.schema.child (Schema.item_mem_children hitem)
  obtain ⟨t, -, ⟨-, base, made, s₁, h, s₂, g, hm, hh, hg, rfl⟩ | ⟨-, g, hg, rfl⟩⟩ :=
    buildArray_cases hs
  · have H := made_of_hoist hb hc hm hh rfl rfl (made_fresh hm)
    have href : (Schema.referenceTo h.name).Known (f.Knows (knownWith known h)) bare :=
      Schema.known_referenceTo (Or.inl (Or.inr (Or.inl rfl)))
    have hf₁ : (f.mapItem (.referenceTo h.name)).makeVirtual.restart.Linked (knownWith known h)
        bare s₂.registry :=
      (H.after hf).rewrite rfl rfl rfl (known_mapItem (H.after hf).schema hitem href) (Or.inl rfl)
    obtain ⟨hstep, -, hsettled⟩ := H.again (hb _ _ _ _ _ hf₁ ⟨rfl, rfl⟩ hg) rfl rfl rfl rfl
    exact ⟨hstep, hsettled⟩
  · have hmark := (markElements_same f item setting.polymorphism).advances hf
    have hknows : (f.markElements item setting.polymorphism).Knows known = f.Knows known := by
      funext n
      rw [Knows, Knows, (markElements_same f item setting.polymorphism).extras]
    have hbuilt := hb.below hg ⟨rfl, rfl, rfl⟩ hc
    rw [← hknows] at hbuilt
    have hsame := markElements_same f item setting.polymorphism
    -- a bare reference has no elements
    have hnone : ∀ n, f.schema.referenceName = some n → ∀ valued, valued ∉ bare n := by
      intro n hn valued hv
      have hitems := (hf.schema.here.2 n hn valued hv).items
      rw [Schema.singleItem?, hitem] at hitems
      exact absurd hitems (by simp)
    have hplain : ((f.markElements item setting.polymorphism).setElement g).Plain bare := by
      intro n hn valued hv
      rw [(setElement_takes _ g).schema, hsame.schema] at hn
      exact absurd hv (hnone n hn valued)
    refine ⟨hmark.trans ((setElement_takes _ g).advances hmark.linked hbuilt rfl hplain), ?_⟩
    intro hnamed n hn valued hv
    have hname := (hf.reference n (hsame.reference ▸ hn)).2 valued hv (hsame.named ▸ hnamed)
    exact absurd hv (hnone n hname valued)

omit hb in
theorem addPlace_takes (f g : Frame) (index : Nat) : Takes f g (f.addPlace g index) where
  name := rfl
  named := rfl
  schema := rfl
  dependencies := rfl
  extras := rfl
  reference := rfl
  modelName := rfl
  declaredName := rfl
  parts p hp := by
    rw [Model.mem_parts_iff] at hp ⊢
    rcases hp with hp | hp | hp | hp | hp
    · exact Or.inl (Or.inl hp)
    · exact Or.inl (Or.inr (Or.inl hp))
    · rcases List.mem_append.mp hp with hp | hp
      · exact Or.inl (Or.inr (Or.inr (Or.inl hp)))
      · rw [List.mem_singleton.mp hp]
        exact Or.inr ⟨rfl, rfl, rfl, rfl, rfl⟩
    · exact Or.inl (Or.inr (Or.inr (Or.inr (Or.inl hp))))
    · exact Or.inl (Or.inr (Or.inr (Or.inr (Or.inr hp))))

theorem hoistPlace_built {index : Nat} {place : Frame} (hf : f.Linked known bare s.registry)
    (hc : c.Known (f.Knows known) bare)
    (hp : (f.hoistPlace setting build index c).Gives s place s₁)
    (hg : (build place).Gives s₁ g s') :
    Built (f.Knows known) bare (f.tuplePlace c index) s.registry g s'.registry := by
  rcases hoistPlace_cases hp with ⟨rfl, rfl, -⟩ |
    ⟨-, t, -, -, base, made, s₀, h, hm, hh, rfl⟩
  · exact hb.below hg ⟨rfl, rfl, rfl⟩ hc
  · have H := made_of_hoist hb hc hm hh rfl rfl (made_fresh hm)
    have hlinked := H.refer (g := (f.tuplePlace c index).referTo h.name) ⟨rfl, rfl, rfl⟩ rfl
    have hbuilt := H.built (hb _ _ _ _ _ hlinked ⟨rfl, rfl⟩ hg) (mem_keys_addExtra (Or.inl rfl))
      fun _ hn => mem_keys_addExtra (Or.inr hn)
    exact hbuilt.of_place rfl rfl (fun _ hn => absurd hn List.not_mem_nil)
      fun _ hn => absurd hn List.not_mem_nil

theorem buildPlaces_advances {places : List Schema} : ∀ {index : Nat} {f f' : Frame}
    {s s' : Session}, f.Linked known bare s.registry →
    (∀ c ∈ places, c.Known (f.Knows known) bare) →
    (f.buildPlaces setting build index places).Gives s f' s' →
    Advances known bare f s.registry f' s'.registry := by
  induction places with
  | nil =>
    intro index f f' s s' hf _ hs
    simp only [buildPlaces, gives_pure] at hs
    obtain ⟨rfl, rfl⟩ := hs
    exact hf.advances
  | cons c rest ih =>
    intro index f f' s s' hf hc hs
    obtain ⟨place, s₁, g, s₂, hp, hg, hrest⟩ := buildPlaces_cons_cases hs
    have hbuilt := hoistPlace_built hb hf (hc c List.mem_cons_self) hp hg
    have hstep := (addPlace_takes f g index).advances hf hbuilt rfl hf.plain
    refine hstep.trans (ih hstep.linked (fun d hd => ?_) hrest)
    exact (hc d (List.mem_cons_of_mem _ hd)).mono fun _ hn => hn.carried hstep.carries

omit hb in
theorem markTuple_same (f : Frame) (kclType : String) : Same f (f.markTuple kclType) where
  name := rfl
  named := rfl
  schema := rfl
  dependencies := rfl
  extras := rfl
  reference := rfl
  titled _ := ⟨rfl, by dsimp only [markTuple, mapType, mapModel]⟩
  items := rfl
  value := rfl
  parts _ hp := hp

omit hb in
theorem known_tupleRecord {places : List Schema} (hf : f.schema.Known known bare)
    (hp : f.schema.items = some (.tuple places)) :
    (tupleRecord places f.schema.additionalItems).Known known bare := by
  refine Schema.known_of_plain rfl fun d hd => ?_
  rw [Schema.mem_children_iff] at hd
  rcases hd with ⟨n, hd⟩ | hd | hd | ⟨l, hl, -⟩ | hd | hd
  · obtain ⟨⟨c, i⟩, hci, heq⟩ := List.mem_map.mp hd
    obtain rfl : c = d := (Prod.mk.inj heq).2
    exact hf.child (Schema.place_mem_children hp (List.fst_mem_of_mem_zipIdx hci))
  · exact absurd hd List.not_mem_nil
  · exact absurd hd (by simp [tupleRecord])
  · exact absurd hl (by simp [tupleRecord])
  · exact absurd hd (by simp [tupleRecord])
  · exact hf.child (Schema.extraItem_mem_children hd)

theorem hoistTuple_advances {places : List Schema} (hf : f.Linked known bare s.registry)
    (hp : f.schema.items = some (.tuple places))
    (hs : (f.hoistTuple build places).Gives s f' s') :
    Advances known bare f s.registry f' s'.registry ∧ f'.Settled bare s'.registry := by
  obtain ⟨base, made, s₁, h, s₂, g, hm, hh, hg, rfl⟩ := hoistTuple_cases hs
  have hmade := made_fresh hm
  have H := (made_of_hoist hb (known_tupleRecord hf.schema hp) hm hh rfl rfl
    ⟨hmade.1, hmade.2, hmade.3⟩).same (asTuple_same h)
  have hf₁ : (f.referTo h.name).restart.Linked (knownWith known h.asTuple) bare s₂.registry :=
    (H.after hf).rewrite rfl rfl rfl (Schema.known_referenceTo (Or.inl (Or.inr (Or.inl rfl))))
      (Or.inl rfl)
  obtain ⟨hstep, -, hsettled⟩ := H.again (hb _ _ _ _ _ hf₁ ⟨rfl, rfl⟩ hg) rfl rfl rfl rfl
  exact ⟨hstep, hsettled⟩

theorem buildItems_advances (hf : f.Linked known bare s.registry)
    (hsettled : f.Settled bare s.registry) (hs : (f.buildItems setting build).Gives s f' s') :
    Advances known bare f s.registry f' s'.registry ∧ f'.Settled bare s'.registry := by
  rcases buildItems_cases hs with ⟨-, rfl, rfl⟩ | ⟨item, hitem, harray⟩ |
    ⟨places, hplaces, ⟨hnamed, htuple⟩ | ⟨-, htuple⟩⟩
  · exact ⟨hf.advances, hsettled⟩
  · exact buildArray_advances hb hf hitem harray
  · have hmark := (markTuple_same f (resolverAt setting f s).modelTypeName).advances hf
    have hc : ∀ c ∈ places, c.Known ((f.markTuple
        (resolverAt setting f s).modelTypeName).Knows known) bare :=
      fun c hc => hf.schema.child (Schema.place_mem_children hplaces hc)
    have hsteps := hmark.trans (buildPlaces_advances hb hmark.linked hc htuple)
    refine ⟨hsteps, fun hn => ?_⟩
    rw [hsteps.carries.named, hnamed] at hn
    exact absurd hn (by simp)
  · exact hoistTuple_advances hb hf hplaces htuple

omit hb in
theorem setExtraItems_takes (f g : Frame) : Takes f g (f.setExtraItems g) where
  name := rfl
  named := rfl
  schema := rfl
  dependencies := rfl
  extras := rfl
  reference := rfl
  modelName := rfl
  declaredName := rfl
  parts p hp := by
    rw [Model.mem_parts_iff] at hp ⊢
    rcases hp with hp | hp | hp | hp | hp
    · exact Or.inl (Or.inl hp)
    · obtain rfl := Option.some.inj hp
      exact Or.inr ⟨rfl, rfl, rfl, rfl, rfl⟩
    · exact Or.inl (Or.inr (Or.inr (Or.inl hp)))
    · exact Or.inl (Or.inr (Or.inr (Or.inr (Or.inl hp))))
    · exact Or.inl (Or.inr (Or.inr (Or.inr (Or.inr hp))))

omit hb in
/-- A tuple with another schema of the items past its places. -/
theorem known_mapExtraItem {c : Schema} (hf : f.schema.Known known bare)
    (hc : c.Known known bare) : (f.mapExtraItem c).schema.Known known bare := by
  refine hf.rewrite rfl (fun _ _ hb => ⟨hb.items, hb.branches, hb.values⟩) fun d hd => ?_
  rcases Schema.mem_children_setExtraItem hd with hd | rfl
  · exact Or.inl hd
  · exact Or.inr hc

omit hb in
theorem extraItemsPlace_facts (f : Frame) (c : Schema) (array : Bool) :
    (f.extraItemsPlace c array).Fresh ∧ (f.extraItemsPlace c array).schema = c ∧
      (f.extraItemsPlace c array).named = false := by
  unfold extraItemsPlace
  split <;> exact ⟨⟨rfl, rfl, rfl⟩, rfl, rfl⟩

theorem buildExtraItems_advances {c? : Option Schema} (hf : f.Linked known bare s.registry)
    (hc : ∀ c, c? = some c → c.Known (f.Knows known) bare)
    (hs : (f.buildExtraItems setting build c?).Gives s f' s') :
    Advances known bare f s.registry f' s'.registry := by
  obtain ⟨t, -, ⟨c, rfl, -, base, made, s₁, h, s₂, g, hm, hh, hg, rfl⟩ | ⟨-, g, hg, rfl⟩⟩ :=
    buildExtraItems_cases hs
  · have H := made_of_hoist hb (hc c rfl) hm hh rfl rfl (made_fresh hm)
    have href : (Schema.referenceTo h.name).Known (f.Knows (knownWith known h)) bare :=
      Schema.known_referenceTo (Or.inl (Or.inr (Or.inl rfl)))
    have hf₁ : (f.mapExtraItem (.referenceTo h.name)).Linked (knownWith known h) bare
        s₂.registry :=
      (H.after hf).rewrite rfl rfl rfl (known_mapExtraItem (H.after hf).schema href)
        (Or.inr ⟨rfl, rfl⟩)
    obtain ⟨hfresh, hschema, hnamed⟩ := extraItemsPlace_facts
      (f.mapExtraItem (.referenceTo h.name)) (.referenceTo h.name) t.array
    have hbuilt := hb.below hg hfresh (by rw [hschema]; exact href)
    exact H.takes hf₁ (mapSchema_carries f _) hbuilt hnamed (setExtraItems_takes _ _) hf.plain
      fun _ hn => hn
  · -- the empty schema refers to nothing
    have hknown : (c?.getD {}).Known (f.Knows known) bare := by
      cases c? with
      | none => exact Schema.known_of_plain rfl fun _ hd => absurd hd List.not_mem_nil
      | some c => exact hc c rfl
    obtain ⟨hfresh, hschema, hnamed⟩ := extraItemsPlace_facts f (c?.getD {}) t.array
    have hbuilt := hb.below hg hfresh (by rw [hschema]; exact hknown)
    exact (setExtraItems_takes f g).advances hf hbuilt hnamed hf.plain

omit hb in
/-- The items past the places of a tuple are added to a frame that stays the same but for them. -/
theorem buildAdditionalItems_retains (hs : (f.buildAdditionalItems setting build).Gives s f' s') :
    Retains f f' := by
  have hallow : ∀ extra, Retains f (f.allowItems extra) := fun _ =>
    ⟨⟨rfl, rfl, rfl, rfl, rfl⟩, rfl, rfl, f.schema.exists_additionalItems⟩
  rcases buildAdditionalItems_cases hs with ⟨-, rfl, -⟩ |
    ⟨extra, -, ⟨-, rfl, -⟩ | ⟨-, -, hitems⟩⟩
  · exact .refl _
  · exact hallow extra
  · obtain ⟨t, -, ⟨c, -, -, _, _, _, h, _, _, -, -, -, rfl⟩ | ⟨-, _, -, rfl⟩⟩ :=
      buildExtraItems_cases hitems
    · exact (hallow extra).trans
        ⟨⟨rfl, rfl, rfl, rfl, rfl⟩, rfl, rfl, some (.schema (.referenceTo h.name)), rfl⟩
    · exact (hallow extra).trans
        ⟨⟨rfl, rfl, rfl, rfl, rfl⟩, rfl, rfl, f.schema.exists_additionalItems⟩

theorem buildAdditionalItems_advances (hf : f.Linked known bare s.registry)
    (hs : (f.buildAdditionalItems setting build).Gives s f' s') :
    Advances known bare f s.registry f' s'.registry := by
  rcases buildAdditionalItems_cases hs with ⟨-, rfl, rfl⟩ |
    ⟨extra, hextra, ⟨-, rfl, rfl⟩ | ⟨-, -, hitems⟩⟩
  · exact hf.advances
  · exact (allowItems_same f extra).advances hf
  · have hstep := (allowItems_same f extra).advances hf
    have hc : ∀ c, extra.schema? = some c →
        c.Known ((f.allowItems extra).Knows known) bare := by
      intro c heq
      match extra with
      | .flag allowed => simp [Extra.schema?] at heq
      | .schema d =>
        obtain rfl : d = c := by simpa [Extra.schema?] using heq
        exact hf.schema.child (Schema.extraItem_mem_children hextra)
    exact hstep.trans (buildExtraItems_advances hb hstep.linked hc hitems)

/-! ## Definitions that are references -/

omit hb in
/-- A definition that takes over its alias has its name and what the alias came to. -/
theorem takeAlias_advances {shape : Shape} {target : TypeInfo} {r r' : Registry}
    (hf : f.Linked known bare r) (hnamed : f.named = true)
    (hg : Built (f.Knows known) bare f.aliasOf r g r') :
    Advances known bare f r (f.takeAlias g shape target) r' ∧
      (f.takeAlias g shape target).Titled := by
  -- it keeps what it had and takes what the alias had
  have hx : ∀ n ∈ Assoc.keys f.extras, n ∈ Assoc.keys (f.takeAlias g shape target).extras :=
    fun n hn => Assoc.mem_keys_mergeSorted.mpr (Or.inl hn)
  have hx' : ∀ n ∈ Assoc.keys g.extras, n ∈ Assoc.keys (f.takeAlias g shape target).extras :=
    fun n hn => Assoc.mem_keys_mergeSorted.mpr (Or.inr hn)
  have hd : ∀ n ∈ f.dependencies, n ∈ (f.takeAlias g shape target).dependencies :=
    fun n hn => List.mem_append_left g.dependencies hn
  have hd' : ∀ n ∈ g.dependencies, n ∈ (f.takeAlias g shape target).dependencies :=
    fun n hn => List.mem_append_right f.dependencies hn
  have hown : ∀ n, f.Knows known n → (f.takeAlias g shape target).Knows known n :=
    fun n hn => hn.imp_right (hx n)
  have hbelow : ∀ n, g.Knows (f.Knows known) n → (f.takeAlias g shape target).Knows known n :=
    fun n hn => hn.elim (hown n) fun hm => Or.inr (hx' n hm)
  have htitled : (f.takeAlias g shape target).Titled := by
    obtain ⟨hname, hdecl⟩ := hg.titled
    rw [hg.carries.name] at hname hdecl
    exact ⟨hname, hdecl⟩
  have hfalse : (f.takeAlias g shape target).named = false → False := by
    rw [show (f.takeAlias g shape target).named = f.named from rfl, hnamed]
    simp
  refine ⟨⟨⟨?_, ?_, ?_, fun _ _ _ _ hn => (hfalse hn).elim, ?_, ?_, hf.sorted.mergeSorted⟩,
    hg.grows, ⟨rfl, rfl, hd, hx, fun _ => htitled⟩,
    fun n c hc => (hg.made n c hc).imp_right (hx' n)⟩, htitled⟩
  · exact hf.schema.mono hown
  · intro n hn
    rcases List.mem_append.mp hn with hn | hn
    · exact hown n (hf.dependencies n hn)
    · exact hbelow n (hg.linked.dependencies n hn)
  · exact fun n hn => ⟨hd' n (hg.linked.reference n hn).1, fun _ _ hn => (hfalse hn).elim⟩
  · exact fun p hp => (hg.linked.parts p hp).mono fun _ hq => hq.mono hd' (.refl r')
  · intro n m hm
    rcases Assoc.mem_mergeSorted hm with hm | hm
    · exact (hf.extras n m hm).mono hown hd hg.grows
    · exact (hg.linked.extras n m hm).mono hbelow hd' (.refl r')

theorem buildReference_advances (hf : f.Linked known bare s.registry) (hnamed : f.named = true)
    (htitled : f.Titled) (hs : (f.buildReference setting build).Gives s f' s') :
    Advances known bare f s.registry f' s'.registry ∧ f'.Titled := by
  rcases buildReference_cases hs with ⟨shape, target, g, -, hg, rfl⟩ | ⟨g, hg, rfl⟩
  · have hplain : f.aliasOf.schema.Known (f.Knows known) bare :=
      Schema.known_of_plain rfl fun _ hd => absurd hd List.not_mem_nil
    exact takeAlias_advances hf hnamed (hb.below hg ⟨rfl, rfl, rfl⟩ hplain)
  · have hbuilt := hb.below hg ⟨rfl, rfl, rfl⟩ hf.schema
    have hstep : Same f (f.mapType fun _ =>
        soleBranchType (resolverAt setting f s).modelTypeName) :=
      ⟨rfl, rfl, rfl, rfl, rfl, rfl, fun ht => ht, rfl, rfl, fun _ hp => hp⟩
    have hsteps := (hstep.advances hf).trans
      ((addBranch_takes _ g).advances (hstep.linked hf) hbuilt rfl hf.plain)
    exact ⟨hsteps, hsteps.carries.titled htitled⟩

/-! ## Schemas -/

omit hb in
/-- The properties and additional items change nothing else. -/
theorem buildParts_retains (hprops : (f.buildProperties setting build).Gives s g s₁)
    (hadd : (g.buildAdditionalItems setting build).Gives s₁ f' s') : Retains f f' :=
  (buildProperties_retains hprops).trans (buildAdditionalItems_retains hadd)

theorem buildParts_advances (hf : f.Linked known bare s.registry)
    (hprops : (f.buildProperties setting build).Gives s g s₁)
    (hadd : (g.buildAdditionalItems setting build).Gives s₁ f' s') :
    Advances known bare f s.registry f' s'.registry := by
  have hstep := buildProperties_advances hb hf hprops
  exact hstep.trans (buildAdditionalItems_advances hb hstep.linked hadd)

/-- What a step of building does once the branches are built. -/
theorem finish_advances {f₃ f₄ f₅ : Frame} {s₃ s₄ s₅ : Session} {t t' : TypeInfo}
    {required : Bool} (hf : f.Linked known bare s.registry)
    (hextra : ((f.setType t t.baseType).buildAdditionalProperties setting build).Gives s f₃ s₃)
    (ht' : (resolverAt setting f₃ s₃).resolve f₃.schema (!f₃.named) required = .ok t')
    (hprops : ((f₃.pointMap.retype t').buildProperties setting build).Gives s₃ f₄ s₄)
    (hadd : (f₄.buildAdditionalItems setting build).Gives s₄ f₅ s₅)
    (hitems : (f₅.buildItems setting build).Gives s₅ f' s') :
    Advances known bare f s.registry f' s'.registry ∧ f'.Settled bare s'.registry := by
  have h₂ := (setType_same f t t.baseType).advances hf
  have h₃ := h₂.trans (buildAdditionalProperties_advances hb h₂.linked hextra)
  have h₃' := h₃.trans (pointMap_advances h₃.linked)
  have hretype : Same f₃.pointMap (f₃.pointMap.retype t') := setType_same _ _ _
  have h₃'' := h₃'.trans (hretype.advances h₃'.linked)
  -- the type is that of the schema as it is now, and stays
  have hsettled : (f₃.pointMap.retype t').Settled bare s₃.registry := by
    intro hnamed n hn valued hv
    have hname := (h₃''.linked.reference n hn).2 valued hv hnamed
    obtain ⟨hitems, hvalue⟩ := h₃''.linked.plain n hname valued hv hnamed
    rw [show (f₃.pointMap.retype t').schema = f₃.schema from pointMap_schema] at hname
    exact ⟨Resolver.resolve_reference_declares hname ht', hitems, hvalue⟩
  have hstep₅ := buildParts_advances hb h₃''.linked hprops hadd
  have hsettled₅ := hsettled.kept hstep₅.grows (buildParts_retains hprops hadd).toKeeps
  obtain ⟨hstep₆, hsettled₆⟩ := buildItems_advances hb hstep₅.linked hsettled₅ hitems
  exact ⟨(h₃''.trans hstep₅).trans hstep₆, hsettled₆⟩

/-- What a step of building does once the frame is filled in. -/
theorem buildStep_advances (hf : f.Linked known bare s.registry) (hopen : f.Open)
    (hs : (f.buildStep setting build).Gives s f' s') :
    ∃ k, Advances known bare f s.registry (f.start setting k) s.registry ∧
      (f.start setting k).Titled ∧
      Advances known bare (f.start setting k) s.registry f' s'.registry ∧
      f'.Settled bare s'.registry := by
  obtain ⟨k, s₀, hreg, hcases⟩ := buildStep_cases hs
  obtain ⟨hstart, htitled, hopen₀⟩ := start_advances setting hf hopen k
  refine ⟨k, hstart, htitled, ?_⟩
  rw [← hreg] at hstart ⊢
  rcases hcases with ⟨hnamed, -, href⟩ | ⟨-, f₁, f₂, s₂, t, f₃, s₃, t', f₄, s₄, f₅, s₅, required,
    hlift, hall, -, hextra, ht', hprops, hadd, hitems⟩
  · obtain ⟨hstep, -⟩ := buildReference_advances hb hstart.linked
      (hstart.carries.named.trans hnamed) htitled href
    refine ⟨hstep, fun hn => ?_⟩
    rw [(hstart.trans hstep).carries.named, hnamed] at hn
    exact absurd hn (by simp)
  · have h₁ := liftBranch_advances hstart.linked hopen₀ hlift
    have h₁' := h₁.trans ((fillContainer_same f₁).advances h₁.linked)
    have h₂ := h₁'.trans (buildAllOf_advances hb h₁'.linked hall)
    exact (finish_advances hb h₂.linked hextra ht' hprops hadd hitems).imp_left h₂.trans

/-- A step of building keeps frames linked, if building the frames below does. -/
theorem buildStep_built (hf : f.Linked known bare s.registry) (hopen : f.Open)
    (hs : (f.buildStep setting build).Gives s f' s') :
    Built known bare f s.registry f' s'.registry := by
  obtain ⟨k, hstart, htitled, hstep, hsettled⟩ := buildStep_advances hb hf hopen hs
  exact ⟨hstart.trans hstep, hstep.carries.titled htitled, hsettled⟩

omit hb in
/-- Frames are kept linked at any depth. -/
theorem buildIn_linked (setting : Setting) (depth : Nat) :
    BuildsLinked bare (buildIn setting depth) := by
  have hall := buildIn_all setting
    (R := fun f s f' s' => ∀ known, f.Linked known bare s.registry → f.Open →
      Built known bare f s.registry f' s'.registry)
    fun build ih f s f' s' hs known hf hopen =>
      buildStep_built (fun known f s f' s' hf hopen hs => ih f s f' s' hs known hf hopen) hf
        hopen hs
  exact fun known f s f' s' hf hopen hs => hall depth f s f' s' hs known hf hopen

omit hb in
/-- **Building keeps frames linked.** -/
theorem build_built (hf : f.Linked known bare s.registry) (hopen : f.Open)
    (hs : (f.build setting).Gives s f' s') : Built known bare f s.registry f' s'.registry :=
  buildIn_linked setting _ known f s f' s' hf hopen hs

/-! ## References are noted -/

/-- What the schema and its branches refer to is among the dependencies. -/
structure Noted (f f' : Frame) : Prop where
  own : ∀ n, f.schema.referenceName = some n → n ∈ f'.dependencies
  branches : f.schema.reference = none → ∀ c ∈ f.schema.allOf, ∀ n, c.referenceName = some n →
    n ∈ f'.dependencies

/-- The way to build frames notes what they refer to. -/
def BuildsNoted (bare : String → Option Bool) (build : Frame → Build Frame) : Prop :=
  ∀ known f s f' s', f.Linked known bare s.registry → f.Open → (build f).Gives s f' s' →
    Noted f f'

omit hb in
theorem buildBranch_noted (hnoted : BuildsNoted bare build) {index : Nat} {branch : Schema}
    {array : Bool} (hc : branch.Known (f.Knows known) bare)
    (hs : (f.buildBranch setting build index branch).Gives s (f', array) s') (n : String)
    (hn : branch.referenceName = some n) : n ∈ f'.dependencies := by
  obtain ⟨reference, href, -⟩ := Option.bind_eq_some_iff.mp hn
  have hsome : branch.reference.isSome = true := by rw [href]; rfl
  obtain ⟨t, ht, ⟨hneeds, -⟩ | ⟨-, g, hg, rfl⟩⟩ := buildBranch_cases hs
  · -- a reference does not become a definition
    have hnamed := Resolver.resolve_named (Or.inl hsome) ht
    rw [branchNeedsName, hnamed, href] at hneeds
    exact absurd hneeds (by simp)
  · have hg₀ : (f.branch branch index).Fresh := ⟨rfl, rfl, rfl⟩
    have hmem := (hnoted _ _ _ _ _ (hg₀.linked hc) hg₀.open hg).own n hn
    refine List.mem_append_right f.dependencies ?_
    rw [(pointMap_facts g).1]
    exact hmem

theorem buildBranches_noted (hnoted : BuildsNoted bare build) {branches : List Schema} :
    ∀ {index : Nat} {arrays : List Bool} {f f' : Frame} {s s' : Session},
    f.Linked known bare s.registry → (∀ c ∈ branches, c.Known (f.Knows known) bare) →
    (∀ j : Nat, branches[j]? = f.schema.allOf[index + j]?) →
    (f.buildBranches setting build index branches).Gives s (f', arrays) s' →
    ∀ c ∈ branches, ∀ n, c.referenceName = some n → n ∈ f'.dependencies := by
  induction branches with
  | nil => exact fun _ _ _ _ c hm => absurd hm List.not_mem_nil
  | cons branch rest ih =>
    intro index arrays f f' s s' hf hc hsame hs c hm n hn
    obtain ⟨f₁, array, s₁, arrays', h₁, h₂⟩ := buildBranches_cons_cases hs
    have hstep := buildBranch_advances hb hf (hc branch List.mem_cons_self) (hsame 0).symm h₁
    have hrest := buildBranch_rest h₁ hsame
    have hknown : ∀ c ∈ rest, c.Known (f₁.Knows known) bare := fun c hm =>
      (hc c (List.mem_cons_of_mem _ hm)).mono fun _ hn => hn.carried hstep.carries
    rcases List.mem_cons.mp hm with rfl | hm
    · refine (buildBranches_advances hb hstep.linked hknown hrest h₂).carries.dependencies n ?_
      exact buildBranch_noted hnoted (hc c List.mem_cons_self) h₁ n hn
    · exact ih hstep.linked hknown hrest h₂ c hm n hn

theorem buildStep_noted (hnoted : BuildsNoted bare build) (hf : f.Linked known bare s.registry)
    (hopen : f.Open) (hs : (f.buildStep setting build).Gives s f' s') : Noted f f' := by
  refine ⟨fun n hn => ?_, fun hnone c hc n hn => ?_⟩
  · obtain ⟨k, -, -, hstep, -⟩ := buildStep_advances hb hf hopen hs
    refine hstep.carries.dependencies n ?_
    rw [(start_facts setting f k).2.2.1]
    exact List.mem_append_right _ (Option.mem_toList.mpr hn)
  · obtain ⟨k, s₀, hreg, hcases⟩ := buildStep_cases hs
    obtain ⟨hstart, -, hopen₀⟩ := start_advances setting hf hopen k
    have hschema := (start_facts setting f k).2.1
    rw [← hreg] at hstart
    rcases hcases with ⟨-, hsome, -⟩ | ⟨-, f₁, f₂, s₂, t, f₃, s₃, t', f₄, s₄, f₅, s₅, required,
      hlift, hall, -, hextra, ht', hprops, hadd, hitems⟩
    · rw [hnone] at hsome
      exact absurd hsome (by simp)
    · have h₁ := liftBranch_advances hstart.linked hopen₀ hlift
      have h₁' := h₁.trans ((fillContainer_same f₁).advances h₁.linked)
      have h₂ := buildAllOf_advances hb h₁'.linked hall
      have hrest := (finish_advances hb h₂.linked hextra ht' hprops hadd hitems).1
      have hlater := h₂.trans hrest
      obtain ⟨-, ⟨rfl, -⟩ | ⟨branch, hl, rfl⟩⟩ := liftBranch_cases hlift
      · have hsame : (f.start setting k).fillContainer.schema = f.schema :=
          (fillContainer_same _).schema.trans hschema
        rcases buildAllOf_cases hall with ⟨hnil, -⟩ | ⟨-, arrays, s₁, hbranches, -⟩
        · rw [hsame] at hnil
          rw [hnil] at hc
          exact absurd hc List.not_mem_nil
        · have hknown : ∀ c ∈ (f.start setting k).fillContainer.schema.allOf,
              c.Known ((f.start setting k).fillContainer.Knows known) bare :=
            fun c hc => h₁'.linked.schema.child (Schema.branch_mem_children hc)
          refine hrest.carries.dependencies n ?_
          exact buildBranches_noted hb hnoted h₁'.linked hknown (fun j => by rw [Nat.zero_add])
            hbranches c (hsame ▸ hc) n hn
      · -- the branch that was lifted is the only reference
        rw [hschema] at hl
        have hmem : c ∈ f.schema.allOf.filter isSubstantive := by
          refine List.mem_filter.mpr ⟨hc, ?_⟩
          obtain ⟨reference, href, -⟩ := Option.bind_eq_some_iff.mp hn
          simp [isSubstantive, href]
        rw [hl.2.1, List.mem_singleton] at hmem
        subst hmem
        refine hlater.carries.dependencies n ?_
        rw [(fillContainer_same _).dependencies]
        exact List.mem_append_right _ (Option.mem_toList.mpr hn)

omit hb in
/-- **Building notes what a schema and its branches refer to.** -/
theorem build_noted (hf : f.Linked known bare s.registry) (hopen : f.Open)
    (hs : (f.build setting).Gives s f' s') : Noted f f' := by
  have hall := buildIn_induction setting
    (R := fun f s f' s' => ∀ known, f.Linked known bare s.registry → f.Open →
      Built known bare f s.registry f' s'.registry ∧ Noted f f')
    fun build ih f s f' s' hs known hf hopen => by
      have hb : BuildsLinked bare build := fun known f s f' s' hf hopen hs =>
        (ih f s f' s' hs known hf hopen).1
      exact ⟨buildStep_built hb hf hopen hs, buildStep_noted hb
        (fun known f s f' s' hf hopen hs => (ih f s f' s' hs known hf hopen).2) hf hopen hs⟩
  exact (hall f s f' s' hs known hf hopen).2

end KclModels.Frame
