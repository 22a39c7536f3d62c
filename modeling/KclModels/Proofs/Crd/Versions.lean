import KclModels.Crd
import KclModels.Proofs.Assoc.Sorted
import KclModels.Proofs.Canonical.Output
import KclModels.Proofs.Resolve.References

/-!
# The versions that get a definition

A manifest describes each version by a schema of its own, or all of them by one. Every version with a
schema of its own gets a definition. The schema for all of them is used once: for the version that
the manifest names, or else the first it lists. So the versions beside that one get no definition,
unless they are of the same name.
-/

namespace KclModels.Crd

variable {documents : List Value} {swagger : Swagger} {definitions out : Definitions} {m : Manifest}
variable {versions described : List (String × Value)} {version n : String} {index : Nat} {t : Schema}

namespace Manifest

/-- The version that a schema for all versions is used for. -/
def chosen? (m : Manifest) : Option String := m.version.or ((m.versions.head?).map (·.name))

/--
The versions that a schema is there for: all of them if there is one for all versions, else those
with a schema of their own.
-/
def covered (m : Manifest) : List String :=
  match m.validation with
  | some _ => m.version.toList ++ m.versions.map (·.name)
  | none => (m.versions.filter (·.schema.isSome)).map (·.name)

/-- If there is a schema for all versions, they all have one name. -/
def Unanimous (m : Manifest) : Prop :=
  m.validation.isSome → ∀ v ∈ m.versions, m.chosen? = some v.name

instance (m : Manifest) : Decidable m.Unanimous :=
  inferInstanceAs (Decidable (m.validation.isSome = true → ∀ v ∈ m.versions, m.chosen? = some v.name))

theorem described_of_validation {schema : Value} (hvalidation : m.validation = some schema)
    (h : m.described = .ok described) :
    ∃ version, m.chosen? = some version ∧ described = [(version, schema)] := by
  unfold Manifest.described at h
  rw [hvalidation] at h
  dsimp only at h
  split at h
  · rename_i version hchosen
    exact ⟨version, hchosen, (Except.ok.inj h).symm⟩
  · simp at h

theorem described_of_versions (hvalidation : m.validation = none)
    (h : m.described = .ok described) :
    described = m.versions.filterMap fun v => v.schema.map fun s => (v.name, s) := by
  unfold Manifest.described at h
  rw [hvalidation] at h
  dsimp only at h
  split at h
  · simp at h
  · exact (Except.ok.inj h).symm

/-- Only versions that a schema is there for are described. -/
theorem covered_of_described (h : m.described = .ok described)
    (hversion : version ∈ described.map Prod.fst) : version ∈ m.covered := by
  unfold covered
  cases hvalidation : m.validation with
  | some schema =>
    obtain ⟨chosen, hchosen, rfl⟩ := described_of_validation hvalidation h
    obtain rfl : version = chosen := List.mem_singleton.mp hversion
    rw [List.mem_append, Option.mem_toList, List.mem_map]
    unfold chosen? at hchosen
    rcases Option.or_eq_some_iff.mp hchosen with hnamed | ⟨-, hfirst⟩
    · exact Or.inl hnamed
    · obtain ⟨v, hv, rfl⟩ := Option.map_eq_some_iff.mp hfirst
      exact Or.inr ⟨v, List.mem_of_mem_head? hv, rfl⟩
  | none =>
    obtain rfl := described_of_versions hvalidation h
    obtain ⟨e, he, rfl⟩ := List.mem_map.mp hversion
    obtain ⟨v, hv, hschema⟩ := List.mem_filterMap.mp he
    obtain ⟨s, hs, rfl⟩ := Option.map_eq_some_iff.mp hschema
    exact List.mem_map.mpr ⟨v, List.mem_filter.mpr ⟨hv, by rw [hs]; rfl⟩, rfl⟩

/-- **All versions that a schema is there for are described** just if one for all has one name. -/
theorem described_covered_iff (h : m.described = .ok described) :
    (∀ version ∈ m.covered, version ∈ described.map Prod.fst) ↔ m.Unanimous := by
  unfold covered Unanimous
  cases hvalidation : m.validation with
  | some schema =>
    obtain ⟨chosen, hchosen, rfl⟩ := described_of_validation hvalidation h
    simp only [List.map_cons, List.map_nil, List.mem_singleton, List.mem_append, Option.mem_toList,
      List.mem_map, hchosen, Option.some.injEq, Option.isSome_some, forall_const]
    constructor
    · exact fun hall v hv => (hall v.name (Or.inr ⟨v, hv, rfl⟩)).symm
    · -- a schema for all versions is described under one name only
      rintro hall version (hnamed | ⟨v, hv, rfl⟩)
      · rw [chosen?, hnamed, Option.some_or] at hchosen
        exact Option.some.inj hchosen
      · exact (hall v hv).symm
  | none =>
    obtain rfl := described_of_versions hvalidation h
    refine iff_of_true (fun version hversion => ?_) (fun hsome => absurd hsome (by simp))
    obtain ⟨v, hv, rfl⟩ := List.mem_map.mp hversion
    obtain ⟨hv, hschema⟩ := List.mem_filter.mp hv
    obtain ⟨s, hs⟩ := Option.isSome_iff_exists.mp hschema
    exact List.mem_map.mpr ⟨(v.name, s),
      List.mem_filterMap.mpr ⟨v, hv, Option.map_eq_some_iff.mpr ⟨s, hs, rfl⟩⟩, rfl⟩

end Manifest

/-! ## The definitions of a manifest -/

/-- What definitions that were added to others are. -/
structure Adds (P : String → Schema → Prop) (definitions out : Definitions) : Prop where
  keys : ∀ n, n ∈ Assoc.keys out ↔ n ∈ Assoc.keys definitions ∨ ∃ t, P n t
  lookup : ∀ n t, out.lookup n = some t → definitions.lookup n = some t ∨ P n t

theorem Adds.mono {P Q : String → Schema → Prop} (h : Adds P definitions out)
    (hPQ : ∀ n t, P n t ↔ Q n t) : Adds Q definitions out := by
  have heq : P = Q := funext fun n => funext fun t => propext (hPQ n t)
  exact heq ▸ h

theorem Adds.refl (definitions : Definitions) : Adds (fun _ _ => False) definitions definitions :=
  ⟨by simp, fun _ _ => Or.inl⟩

theorem Adds.trans {P Q : String → Schema → Prop} {middle : Definitions}
    (h : Adds P definitions middle) (h' : Adds Q middle out) :
    Adds (fun n t => P n t ∨ Q n t) definitions out where
  keys n := by
    rw [h'.keys, h.keys, or_assoc, exists_or]
  lookup n t ht := by
    rcases h'.lookup n t ht with ht | hq
    · exact (h.lookup n t ht).imp_right Or.inl
    · exact Or.inr (Or.inr hq)

theorem adds_put (definitions : Definitions) (name : String) (s : Schema) :
    Adds (fun n t => n = name ∧ t = s) definitions (Assoc.put definitions name s) where
  keys n := by simp [Assoc.mem_keys_put, or_comm]
  lookup n t ht := by
    rw [Assoc.lookup_put] at ht
    split at ht
    · rename_i heq
      exact Or.inr ⟨heq, (Option.some.inj ht).symm⟩
    · exact Or.inl ht

/-- The definition `n` of one of the versions that a resource is described in is `t`. -/
def DefinedIn (m : Manifest) (versions : List (String × Value)) (n : String) (t : Schema) : Prop :=
  ∃ e ∈ versions, ∃ s, Schema.ofValue e.2 = .ok s ∧ n = definitionName m.group e.1 m.kind ∧
    t = withCommon s m.group e.1 m.kind

theorem addVersions_adds (h : addVersions m definitions versions = .ok out) :
    Adds (DefinedIn m versions) definitions out := by
  induction versions generalizing definitions with
  | nil =>
    obtain rfl : definitions = out := Except.ok.inj h
    exact (Adds.refl definitions).mono fun n t => by simp [DefinedIn]
  | cons e rest ih =>
    obtain ⟨version, value⟩ := e
    obtain ⟨s, hs, hrest⟩ := bind_eq_ok.mp h
    have hs := mapError_ok hs
    refine ((adds_put _ _ _).trans (ih hrest)).mono fun n t => ?_
    simp [DefinedIn, hs]

theorem addVersions_decoded (h : addVersions m definitions versions = .ok out) :
    ∀ e ∈ versions, ∃ s, Schema.ofValue e.2 = .ok s := by
  induction versions generalizing definitions with
  | nil => exact fun _ he => absurd he List.not_mem_nil
  | cons e rest ih =>
    obtain ⟨version, value⟩ := e
    obtain ⟨s, hs, hrest⟩ := bind_eq_ok.mp h
    exact List.forall_mem_cons.mpr ⟨⟨s, mapError_ok hs⟩, ih hrest⟩

/-! ## The definitions of several manifests -/

/-- The value is a manifest that defines `n` as `t`. -/
def DefinedBy (v : Value) (n : String) (t : Schema) : Prop :=
  ∃ m described, Manifest.ofValue v = .ok m ∧ m.described = .ok described ∧
    DefinedIn m described n t

theorem addManifests_cons {v : Value}
    (h : addManifests index definitions (v :: documents) = .ok out) :
    ∃ m described middle, Manifest.ofValue v = .ok m ∧ m.described = .ok described ∧
      addVersions m definitions described = .ok middle ∧
      addManifests (index + 1) middle documents = .ok out := by
  rw [addManifests] at h
  split at h
  · simp [throw, throwThe, MonadExceptOf.throw, bind, Except.bind] at h
  · obtain ⟨m, hm, h⟩ := bind_eq_ok.mp h
    obtain ⟨described, hdescribed, h⟩ := bind_eq_ok.mp h
    obtain ⟨middle, hmiddle, h⟩ := bind_eq_ok.mp h
    exact ⟨m, described, middle, mapError_ok hm, hdescribed, hmiddle, h⟩

theorem addManifests_adds (h : addManifests index definitions documents = .ok out) :
    Adds (fun n t => ∃ v ∈ documents, DefinedBy v n t) definitions out := by
  induction documents generalizing index definitions with
  | nil =>
    obtain rfl : definitions = out := Except.ok.inj h
    exact (Adds.refl definitions).mono fun n t => by simp
  | cons v rest ih =>
    obtain ⟨m, described, middle, hm, hdescribed, hversions, hrest⟩ := addManifests_cons h
    refine ((addVersions_adds hversions).trans (ih hrest)).mono fun n t => ?_
    have hfirst : DefinedBy v n t ↔ DefinedIn m described n t := by
      simp [DefinedBy, hm, hdescribed]
    rw [List.exists_mem_cons_iff, hfirst]

/-- Documents that are accepted are manifests that describe something. -/
theorem addManifests_described (h : addManifests index definitions documents = .ok out) :
    ∀ v ∈ documents, ∃ m described, Manifest.ofValue v = .ok m ∧ m.described = .ok described ∧
      ∀ e ∈ described, ∃ s, Schema.ofValue e.2 = .ok s := by
  induction documents generalizing index definitions with
  | nil => exact fun _ hv => absurd hv List.not_mem_nil
  | cons v rest ih =>
    obtain ⟨m, described, middle, hm, hdescribed, hversions, hrest⟩ := addManifests_cons h
    exact List.forall_mem_cons.mpr
      ⟨⟨m, described, hm, hdescribed, addVersions_decoded hversions⟩, ih hrest⟩

theorem toSwagger_ok (h : toSwagger documents = .ok swagger) :
    ∃ definitions, addManifests 0 [] documents = .ok definitions ∧
      swagger.definitions = Assoc.put definitions objectMetaName objectMeta := by
  unfold toSwagger at h
  split at h
  · simp [throw, throwThe, MonadExceptOf.throw, bind, Except.bind] at h
  · obtain ⟨definitions, hall, h⟩ := bind_eq_ok.mp h
    exact ⟨definitions, hall, (congrArg Swagger.definitions (Except.ok.inj h)).symm⟩

/-- The manifests define `n`: it is the definition of a version that one of them describes. -/
def Described (documents : List Value) (n : String) : Prop :=
  ∃ v ∈ documents, ∃ m described, Manifest.ofValue v = .ok m ∧ m.described = .ok described ∧
    ∃ version ∈ described.map Prod.fst, n = definitionName m.group version m.kind

/-- A version that one of the manifests has a schema for has the definition `n`. -/
def Covered (documents : List Value) (n : String) : Prop :=
  ∃ v ∈ documents, ∃ m, Manifest.ofValue v = .ok m ∧
    ∃ version ∈ m.covered, n = definitionName m.group version m.kind

theorem mem_keys_toSwagger (h : toSwagger documents = .ok swagger) (n : String) :
    n ∈ Assoc.keys swagger.definitions ↔ n = objectMetaName ∨ Described documents n := by
  obtain ⟨definitions, hall, hdefinitions⟩ := toSwagger_ok h
  rw [hdefinitions, Assoc.mem_keys_put, (addManifests_adds hall).keys]
  refine or_congr_right (Iff.trans (or_iff_right List.not_mem_nil) ⟨?_, ?_⟩)
  · rintro ⟨t, v, hv, m, described, hm, hdescribed, e, he, s, -, rfl, -⟩
    exact ⟨v, hv, m, described, hm, hdescribed, e.1, List.mem_map_of_mem he, rfl⟩
  · rintro ⟨v, hv, m, described, hm, hdescribed, version, hversion, rfl⟩
    obtain ⟨e, he, rfl⟩ := List.mem_map.mp hversion
    obtain ⟨m', described', hm', hdescribed', hdecoded⟩ := addManifests_described hall v hv
    obtain rfl := Except.ok.inj (hm.symm.trans hm')
    obtain rfl := Except.ok.inj (hdescribed.symm.trans hdescribed')
    obtain ⟨s, hs⟩ := hdecoded e he
    exact ⟨_, v, hv, m, described, hm, hdescribed, e, he, s, hs, rfl, rfl⟩

/--
**Every version that has a schema gets its definition**, and there are no others beside that of the
metadata; except that of the versions which share a schema, only one gets a definition.
-/
theorem toSwagger_defines (h : toSwagger documents = .ok swagger) :
    (∀ n, n ∈ Assoc.keys swagger.definitions ↔ n = objectMetaName ∨ Described documents n) ∧
    (∀ v ∈ documents, ∃ m described, Manifest.ofValue v = .ok m ∧ m.described = .ok described ∧
      (∀ version ∈ described.map Prod.fst, version ∈ m.covered) ∧
      ((∀ version ∈ m.covered, version ∈ described.map Prod.fst) ↔ m.Unanimous)) ∧
    ((∀ v ∈ documents, ∀ m, Manifest.ofValue v = .ok m → m.Unanimous) →
      ∀ n, n ∈ Assoc.keys swagger.definitions ↔ n = objectMetaName ∨ Covered documents n) ∧
    swagger.definitions.lookup objectMetaName = some objectMeta ∧
    ∀ n t, n ≠ objectMetaName → swagger.definitions.lookup n = some t →
      ∃ v ∈ documents, DefinedBy v n t := by
  obtain ⟨definitions, hall, hdefinitions⟩ := toSwagger_ok h
  have hmanifests := addManifests_described hall
  refine ⟨mem_keys_toSwagger h, fun v hv => ?_, fun hone n => ?_, ?_, fun n t hne ht => ?_⟩
  · obtain ⟨m, described, hm, hdescribed, -⟩ := hmanifests v hv
    exact ⟨m, described, hm, hdescribed, fun _ => Manifest.covered_of_described hdescribed,
      Manifest.described_covered_iff hdescribed⟩
  · rw [mem_keys_toSwagger h]
    refine or_congr_right ⟨?_, ?_⟩
    · rintro ⟨v, hv, m, described, hm, hdescribed, version, hversion, rfl⟩
      exact ⟨v, hv, m, hm, version, Manifest.covered_of_described hdescribed hversion, rfl⟩
    · rintro ⟨v, hv, m, hm, version, hversion, rfl⟩
      -- decoding is a function, so this is the manifest that was described
      obtain ⟨m', described, hm', hdescribed, -⟩ := hmanifests v hv
      obtain rfl := Except.ok.inj (hm.symm.trans hm')
      exact ⟨v, hv, m, described, hm, hdescribed, version,
        (Manifest.described_covered_iff hdescribed).mpr (hone v hv m hm) version hversion, rfl⟩
  · rw [hdefinitions, Assoc.lookup_put, if_pos rfl]
  · rw [hdefinitions, Assoc.lookup_put, if_neg hne] at ht
    exact ((addManifests_adds hall).lookup n t ht).resolve_left (by simp)

/-! ## Manifests for an example -/

/-- The manifest of a resource with the members of its specification beside group and names. -/
def manifestOf (kind : String) (members : List (String × Value)) : Value :=
  .obj [("kind", .str kindName), ("spec", .obj (
    [("group", .str "example.org"), ("names", .obj [("kind", .str kind)])] ++ members))]

/-- What describes an object. -/
def objectSchema : Value := .obj [("openAPIV3Schema", .obj [("type", .str "object")])]

/-- Seats with a schema for each version but one, and rows with one schema for their versions. -/
def hall : List Value := [
  manifestOf "Seat" [("versions", .arr [
    .obj [("name", .str "v1"), ("schema", objectSchema)],
    .obj [("name", .str "v2"), ("schema", objectSchema)],
    .obj [("name", .str "v3")]])],
  manifestOf "Row" [("version", .str "v1beta1"), ("validation", objectSchema),
    ("versions", .arr [.obj [("name", .str "v1beta1")]])]]

theorem hall_defined : ∃ swagger, toSwagger hall = .ok swagger ∧
    Assoc.keys swagger.definitions = ["example.org.v1.Seat", "example.org.v2.Seat",
      "example.org.v1beta1.Row", objectMetaName] ∧
    (∀ v ∈ hall, ∀ m, Manifest.ofValue v = .ok m → m.Unanimous) ∧
    (∀ n, n ∈ Assoc.keys swagger.definitions ↔ n = objectMetaName ∨ Covered hall n) := by
  have hok : toSwagger hall = .ok _ := rfl
  have hone : ∀ v ∈ hall, ∀ m, Manifest.ofValue v = .ok m → m.Unanimous := by
    refine List.forall_mem_cons.mpr ⟨fun m hm => ?_, List.forall_mem_singleton.mpr fun m hm => ?_⟩
    · obtain rfl : _ = m := Except.ok.inj hm
      decide
    · obtain rfl : _ = m := Except.ok.inj hm
      decide
  exact ⟨_, hok, rfl, hone, (toSwagger_defines hok).2.2.1 hone⟩

/-- Two versions that share a schema. -/
def tickets : Value :=
  manifestOf "Ticket" [("validation", objectSchema),
    ("versions", .arr [.obj [("name", .str "v1")], .obj [("name", .str "v2")]])]

/-- Only the first of them gets a definition. -/
theorem tickets_second_undefined : ∃ swagger, toSwagger [tickets] = .ok swagger ∧
    Covered [tickets] "example.org.v2.Ticket" ∧
    "example.org.v2.Ticket" ∉ Assoc.keys swagger.definitions := by
  refine ⟨_, rfl, ⟨tickets, List.mem_singleton_self _, _, rfl, "v2", ?_, rfl⟩, ?_⟩
  · decide
  · decide

end KclModels.Crd
