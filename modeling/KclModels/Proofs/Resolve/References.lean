import KclModels.Proofs.Registry.Grounded
import KclModels.Proofs.Resolve.Cases

/-!
# The types of references

A reference has the name that its definition is declared under, whatever the definition comes down
to: the name is the one that an extension of the definition gives, else it follows from the name in
the document. That holds for a chain of references and for a definition met inside itself as well.
-/

namespace KclModels

variable {tr : Text.Transliteration}

/-- The type name that a definition has. -/
def Schema.declaredName (c : Schema) (name : String) : String :=
  match c.hints.existing with
  | some existing => existing.name
  | none => Naming.schemaName (c.nameOr name)

namespace Registry

/-- The type has the name of a definition; one that was made has no package. -/
def Declares (r : Registry) (n : String) (t : TypeInfo) : Prop :=
  ∃ c, r.get? n = some c ∧ t.kclType = c.declaredName n ∧
    (n ∈ r.hoisted → c.hints.existing = none → t.package = "")

theorem Declares.mono {r r' : Registry} {n : String} {t : TypeInfo} (h : r.Declares n t)
    (hr : r.Grows r') : r'.Declares n t := by
  obtain ⟨c, hc, hname, hpackage⟩ := h
  refine ⟨c, hr.keeps n c hc, hname, fun hmade => hpackage ?_⟩
  rcases hr.made n hmade with hmade | ⟨hfree, -⟩
  · exact hmade
  · rw [get?_eq_none_of_free hfree] at hc
    exact absurd hc (by simp)

end Registry

namespace Resolver

variable {r : Resolver} {c : Schema} {t : TypeInfo} {anonymous required : Bool}

theorem existing_kclType (e : ExistingType) : (existing e).kclType = e.name := by
  unfold existing
  cases e.importPath <;> rfl

theorem declared_kclType (r : Resolver) (name : String) (c : Schema) :
    (r.declared name c).kclType = c.declaredName name := by
  unfold declared Schema.declaredName
  cases c.hints.existing with
  | none =>
    dsimp only
    rw [apply_ite DeclaredType.kclType, ite_self]
  | some e => exact existing_kclType e

/-- The definition that is being generated goes by the name that it declares. -/
theorem modelTypeName_eq [Text.Transliteration] {r : Resolver} {name : String}
    (hname : r.modelName = name) (hget : r.registry.get? name = some c) :
    r.modelTypeName = c.declaredName name := by
  rw [modelTypeName, hname, hget]
  exact declared_kclType r name c

theorem resolve_of_reference {reference : String} (href : c.reference = some reference) :
    r.resolve c anonymous required =
      r.derefIn r.registry.definitions.length [] anonymous required reference := by
  obtain ⟨keywords, properties, allOf, items, value, extraItems⟩ := c
  change keywords.reference = some reference at href
  rw [resolve, resolveWith]
  simp only [href]

theorem knownAs_ok {reference : String} {known : DeclaredType}
    (h : r.knownAs reference = .ok known) :
    ∃ n d, Reference.name? reference = some n ∧ r.registry.get? n = some d ∧
      known = r.declared n d := by
  obtain ⟨d, hl, h⟩ := bind_eq_ok.mp h
  obtain ⟨n, hn, hd⟩ := Registry.lookup_ok (mapError_ok hl)
  rw [hn] at h
  exact ⟨n, d, hn, hd, (Except.ok.inj h).symm⟩

theorem meetAgain_ok {reference : String} (h : r.meetAgain reference = .ok t) :
    ∃ known, r.knownAs reference = .ok known ∧ t = recursive known := by
  obtain ⟨known, hknown, rfl⟩ := map_eq_ok.mp h
  exact ⟨known, hknown, rfl⟩

theorem enter_ok {deref : Deref} {reference : String}
    (h : r.enter deref anonymous required reference = .ok t) :
    ∃ known target t', r.knownAs reference = .ok known ∧
      r.registry.resolve reference = .ok target ∧
      resolveWith r deref false required target = .ok t' ∧ t = ofTarget known anonymous t' := by
  obtain ⟨known, hknown, h⟩ := bind_eq_ok.mp h
  obtain ⟨target, htarget, h⟩ := bind_eq_ok.mp h
  obtain ⟨t', ht', h⟩ := bind_eq_ok.mp h
  exact ⟨known, target, t', hknown, mapError_ok htarget, ht', (Except.ok.inj h).symm⟩

theorem ofTarget_names (known : DeclaredType) (anonymous : Bool) (target : TypeInfo) :
    (ofTarget known anonymous target).kclType = known.kclType ∧
      (ofTarget known anonymous target).package = known.package := by
  unfold ofTarget
  split <;> exact ⟨rfl, rfl⟩

/-- A reference that has a type names a definition, and the type has the name of that. -/
theorem derefIn_ok {unvisited : Nat} {visiting : List String} {reference : String}
    (h : r.derefIn unvisited visiting anonymous required reference = .ok t) :
    ∃ n d, Reference.name? reference = some n ∧ r.registry.get? n = some d ∧
      t.kclType = (r.declared n d).kclType ∧ t.package = (r.declared n d).package := by
  obtain ⟨known, hk, ht⟩ : ∃ known, r.knownAs reference = .ok known ∧
      t.kclType = known.kclType ∧ t.package = known.package := by
    have hmet : r.meetAgain reference = .ok t → ∃ known, r.knownAs reference = .ok known ∧
        t.kclType = known.kclType ∧ t.package = known.package := by
      intro h
      obtain ⟨known, hk, rfl⟩ := meetAgain_ok h
      exact ⟨known, hk, rfl, rfl⟩
    unfold derefIn at h
    split at h
    · exact hmet h
    · split at h
      · exact hmet h
      · obtain ⟨known, -, t', hk, -, -, rfl⟩ := enter_ok h
        exact ⟨known, hk, ofTarget_names known anonymous t'⟩
  obtain ⟨n, d, hn, hd, rfl⟩ := knownAs_ok hk
  exact ⟨n, d, hn, hd, ht⟩

/-- **The type of a reference has the name of the definition** that the reference names. -/
theorem resolve_reference {n : String} (hn : c.referenceName = some n)
    (h : r.resolve c anonymous required = .ok t) :
    ∃ d, r.registry.get? n = some d ∧ t.kclType = (r.declared n d).kclType ∧
      t.package = (r.declared n d).package := by
  obtain ⟨reference, href, hname⟩ := Option.bind_eq_some_iff.mp hn
  rw [resolve_of_reference href] at h
  obtain ⟨m, d, hm, hd, ht⟩ := derefIn_ok h
  rw [hname] at hm
  obtain rfl := Option.some.inj hm
  exact ⟨d, hd, ht⟩

theorem declared_package_of_hoisted {n : String} (hn : n ∈ r.registry.hoisted)
    (hc : c.hints.existing = none) : (r.declared n c).package = "" := by
  unfold declared
  rw [hc, Registry.isHoisted, List.contains_iff_mem.mpr hn]
  rfl

theorem resolve_reference_declares {n : String} (hn : c.referenceName = some n)
    (h : r.resolve c anonymous required = .ok t) : r.registry.Declares n t := by
  obtain ⟨d, hd, hname, hpackage⟩ := resolve_reference hn h
  refine ⟨d, hd, hname.trans (declared_kclType r n d), fun hmade hnone => ?_⟩
  exact hpackage.trans (declared_package_of_hoisted hmade hnone)

/-! ## Types with a name -/

theorem hasScalar_anonymous (h : HasScalar r required c t) : t.anonymous = false := by
  cases h with
  | byFormat hf =>
    obtain ⟨format, -, hf⟩ := Option.bind_eq_some_iff.mp hf
    obtain ⟨kclType, -, hf⟩ := Option.bind_eq_some_iff.mp hf
    rw [← Option.some.inj hf]
  | intOrString => rfl
  | byName _ _ _ _ _ hu =>
    unfold scalarOf at hu
    split at hu
    · rw [← Except.ok.inj hu]
      rfl
    · split at hu
      · rw [← Except.ok.inj hu]
        rfl
      · simp at hu

theorem objectOf_anonymous (r : Resolver) (c : Schema) (anonymous : Bool) :
    (r.objectOf c anonymous).anonymous = anonymous := by
  unfold objectOf
  cases anonymous <;> rfl

theorem objectWith_anonymous (r : Resolver) (c : Schema) (value : Option TypeInfo) :
    (r.objectWith c anonymous value).anonymous = anonymous := by
  have ht : (r.objectOf c anonymous).anonymous = anonymous := objectOf_anonymous r c anonymous
  unfold objectWith
  split
  · unfold withValues
    split <;> exact ht
  · dsimp only
    split
    · exact ht
    · split <;> exact ht

theorem resolveWith_named {deref : Deref}
    (hd : ∀ required reference t, deref false required reference = .ok t → t.anonymous = false)
    (h : resolveWith r deref false required c = .ok t) : t.anonymous = false := by
  rcases resolveWith_ok h with ⟨reference, -, h⟩ | ⟨-, h⟩ | ⟨-, element, -, rfl⟩ | ⟨-, -, rfl⟩ |
    ⟨-, -, value, -, rfl⟩
  · exact hd _ _ _ h
  · exact hasScalar_anonymous h
  · cases element <;> rfl
  · show (r.objectOf c false).anonymous = false
    exact objectOf_anonymous r c false
  · exact objectWith_anonymous r c value

theorem derefIn_named {unvisited : Nat} {visiting : List String} {reference : String}
    (h : r.derefIn unvisited visiting anonymous required reference = .ok t) :
    t.anonymous = false := by
  have hmet : ∀ {reference t}, r.meetAgain reference = .ok t → t.anonymous = false := by
    intro reference t h
    obtain ⟨known, -, rfl⟩ := meetAgain_ok h
    rfl
  induction unvisited generalizing visiting anonymous required reference t with
  | zero => exact hmet h
  | succ unvisited ih =>
    unfold derefIn at h
    split at h
    · exact hmet h
    · obtain ⟨known, target, u, -, -, hu, rfl⟩ := enter_ok h
      have hnamed := resolveWith_named (fun _ _ _ h => ih h) hu
      unfold ofTarget
      split <;> exact hnamed

/-- The type of a reference has a name, and so has a type that is asked for with one. -/
theorem resolve_named (hnamed : c.reference.isSome = true ∨ anonymous = false)
    (h : r.resolve c anonymous required = .ok t) : t.anonymous = false := by
  rcases hnamed with href | rfl
  · obtain ⟨reference, href⟩ := Option.isSome_iff_exists.mp href
    rw [resolve_of_reference href] at h
    exact derefIn_named h
  · exact resolveWith_named (fun _ _ _ h => derefIn_named h) h

end Resolver

end KclModels
