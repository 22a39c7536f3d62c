import KclModels.Proofs.Registry.Grounded
import KclModels.Proofs.Resolve.References
import KclModels.Proofs.Schema.Size
import KclModels.Shape

/-!
# How resolving fails

Where every reference comes to an end there is one way for a schema to have no type: a list of type
names that is not supported. What a schema comes down to is then always known.
-/

namespace KclModels

variable {tr : Text.Transliteration}

/-- The schema has types that are not supported. -/
def TypeError.Unsupported (e : TypeError) : Prop :=
  ∃ path types format, e = .unsupported path types format

namespace Resolver

variable {r : Resolver} {deref : Deref} {c : Schema} {e : TypeError} {anonymous required : Bool}
variable {reference : String}

theorem map_error {α β ε : Type} {g : α → β} {x : Except ε α} {e : ε} (h : g <$> x = .error e) :
    x = .error e := by
  cases x with
  | error e' => exact congrArg Except.error (Except.error.inj h)
  | ok a => simp at h

theorem typeName_error (h : r.typeName c = .error e) : e.Unsupported := by
  unfold typeName at h
  split at h
  · simp at h
  · simp at h
  · split at h
    · simp at h
    · exact ⟨_, _, _, (Except.error.inj h).symm⟩
  · exact ⟨_, _, _, (Except.error.inj h).symm⟩

theorem scalarOf_error {type : String} (h : r.scalarOf c type = .error e) : e.Unsupported := by
  unfold scalarOf at h
  split at h
  · simp at h
  · split at h
    · simp at h
    · exact ⟨_, _, _, (Except.error.inj h).symm⟩

theorem resolveItems_error {items : Option (Items Schema)}
    (h : resolveItems r deref items = .error e) :
    ∃ item, items = some (.single item) ∧ resolveWith r deref true false item = .error e := by
  unfold resolveItems at h
  split at h
  · simp at h
  · rename_i item
    exact ⟨item, rfl, map_error h⟩
  · simp at h

theorem resolveValue_error {extra : Option (Extra Schema)}
    (h : resolveValue r deref extra = .error e) :
    ∃ v, extra = some (.schema v) ∧ resolveWith r deref v.reference.isNone false v = .error e := by
  unfold resolveValue at h
  split at h
  · rename_i v
    exact ⟨v, rfl, map_error h⟩
  · simp at h

/-- A type by name fails by the name, or by the type of a part. -/
theorem byName_error {type : String} (h : r.byName deref anonymous required c type = .error e) :
    e.Unsupported ∨ ∃ d ∈ c.children, ∃ anonymous, resolveWith r deref anonymous false d = .error e := by
  unfold byName at h
  split at h
  · obtain ⟨item, hitem, hfails⟩ := resolveItems_error (map_error h)
    exact Or.inr ⟨item, Schema.item_mem_children hitem, true, hfails⟩
  · split at h
    · split at h
      · obtain ⟨v, hvalue, hfails⟩ := resolveValue_error (map_error h)
        exact Or.inr ⟨v, Schema.value_mem_children hvalue, _, hfails⟩
      · simp at h
    · exact Or.inl (scalarOf_error (map_error h))

/-- **How a schema has no type**: by its reference, by its type names, or by the schemas in it. -/
theorem resolveWith_error (h : resolveWith r deref anonymous required c = .error e) :
    (∃ reference, c.reference = some reference ∧ deref anonymous required reference = .error e) ∨
    e.Unsupported ∨
    ∃ d ∈ c.children, ∃ anonymous, resolveWith r deref anonymous false d = .error e := by
  cases href : c.reference with
  | some reference => exact Or.inl ⟨reference, rfl, (resolveWith_of_reference href).symm.trans h⟩
  | none =>
    refine Or.inr ?_
    cases hf : byFormat? c with
    | some t => exact absurd ((resolveWith_of_format href hf).symm.trans h) (by simp)
    | none =>
      cases hh : c.hints.intOrString with
      | true => exact absurd ((resolveWith_of_hint href hf hh).symm.trans h) (by simp)
      | false =>
        rw [resolveWith_of_name href hf hh] at h
        cases htype : r.typeName c with
        | error e' =>
          rw [htype] at h
          exact Or.inl (Except.error.inj h ▸ typeName_error htype)
        | ok type =>
          rw [htype] at h
          exact byName_error h

/-- References that come to an end fail for the types of a schema only. -/
def Follows (r : Resolver) (deref : Deref) : Prop :=
  ∀ anonymous required reference d e, r.registry.Leads reference d →
    deref anonymous required reference = .error e → e.Unsupported

theorem resolveWith_unsupported (hderef : r.Follows deref) :
    ∀ {anonymous required : Bool}, c.Grounded r.registry →
      resolveWith r deref anonymous required c = .error e → e.Unsupported := by
  induction c using Schema.children_induction with
  | step c ih =>
    intro anonymous required hc h
    rcases resolveWith_error h with ⟨reference, href, h⟩ | h | ⟨d, hd, anonymous', h⟩
    · obtain ⟨d, hd⟩ := Schema.Everywhere.here hc reference href
      exact hderef anonymous required reference d e hd h
    · exact h
    · exact ih d hd (Schema.Everywhere.child hc hd) h

variable {d : Schema}

theorem knownAs_of_leads (h : r.registry.Leads reference d) :
    ∃ known, r.knownAs reference = .ok known := by
  obtain ⟨n, c, hn, hc⟩ : ∃ n c, Reference.name? reference = some n ∧
      r.registry.get? n = some c := by
    cases h with
    | stop hn hc _ => exact ⟨_, _, hn, hc⟩
    | next hn hc _ _ => exact ⟨_, _, hn, hc⟩
  refine ⟨r.declared n c, ?_⟩
  unfold knownAs
  rw [Registry.lookup_of_name? hn hc, hn]
  rfl

theorem meetAgain_of_leads (h : r.registry.Leads reference d) :
    ∃ t, r.meetAgain reference = .ok t := by
  obtain ⟨known, hknown⟩ := knownAs_of_leads h
  exact ⟨recursive known, by rw [meetAgain, hknown]; rfl⟩

theorem enter_follows (hr : r.registry.Grounded) (hderef : r.Follows deref) :
    r.Follows (r.enter deref) := by
  intro anonymous required reference d e hd h
  obtain ⟨known, hknown⟩ := knownAs_of_leads hd
  obtain ⟨n, hn⟩ := hd.exists_stored
  unfold enter at h
  rw [hknown, Registry.resolve_of_leads hd] at h
  simp only [Except.mapError, bind, Except.bind] at h
  split at h
  · rename_i e' ht
    rw [← Except.error.inj h]
    exact resolveWith_unsupported hderef (hr n d hn) ht
  · simp [pure, Except.pure] at h

theorem derefIn_follows (hr : r.registry.Grounded) :
    ∀ unvisited visiting, r.Follows (r.derefIn unvisited visiting) := by
  have hmet : ∀ {reference d e}, r.registry.Leads reference d →
      r.meetAgain reference = .error e → TypeError.Unsupported e := by
    intro reference d e hd h
    obtain ⟨t, ht⟩ := meetAgain_of_leads hd
    exact absurd (ht.symm.trans h) (by simp)
  intro unvisited
  induction unvisited with
  | zero => exact fun visiting anonymous required reference d e hd h => hmet hd h
  | succ unvisited ih =>
    intro visiting anonymous required reference d e hd h
    unfold derefIn at h
    split at h
    · exact hmet hd h
    · exact enter_follows hr (ih _) anonymous required reference d e hd h

/-- **Where every reference comes to an end, only types that are not supported are an error.** -/
theorem resolve_unsupported (hr : r.registry.Grounded) (hc : c.Grounded r.registry)
    (h : r.resolve c anonymous required = .error e) : e.Unsupported :=
  resolveWith_unsupported (derefIn_follows hr _ _) hc h

end Resolver

namespace Shape

variable {r : Registry} {c : Schema}

theorem behind_of_grounded (hr : r.Grounded) (hc : c.Grounded r) :
    ∃ d, behind r c = .ok d ∧ d.Grounded r := by
  unfold behind
  split
  · rename_i reference href
    obtain ⟨d, hd⟩ := Schema.Everywhere.here hc reference href
    obtain ⟨n, hn⟩ := hd.exists_stored
    exact ⟨d, Registry.resolve_of_leads hd, hr n d hn⟩
  · exact ⟨c, rfl, hc⟩

theorem simplePart_of_ok {shape : Schema → Except ReferenceError Shape} {part : Option Schema}
    (h : ∀ c, part = some c → ∃ t, shape c = .ok t) (counts : Bool) :
    ∃ simple, simplePart shape counts part = .ok simple := by
  unfold simplePart
  split
  · rename_i c
    obtain ⟨t, ht⟩ := h c rfl
    split
    · exact ⟨t.simple, by rw [ht]; rfl⟩
    · exact ⟨false, rfl⟩
  · exact ⟨true, rfl⟩

theorem ofSchemaIn_of_grounded (hr : r.Grounded) (levels : Nat) :
    ∀ {c : Schema}, c.Grounded r → ∃ shape, ofSchemaIn r levels c = .ok shape := by
  induction levels with
  | zero =>
    intro c hc
    obtain ⟨d, hd, -⟩ := behind_of_grounded hr hc
    exact ⟨{}, by rw [ofSchemaIn, hd]; rfl⟩
  | succ levels ih =>
    intro c hc
    obtain ⟨d, hd, hground⟩ := behind_of_grounded hr hc
    have hchild : ∀ e ∈ d.children, ∃ shape, ofSchemaIn r levels e = .ok shape :=
      fun e he => ih (Schema.Everywhere.child hground he)
    obtain ⟨simpleItem, hitem⟩ := simplePart_of_ok (fun e (he : d.singleItem? = some e) =>
      hchild e (Schema.item_mem_children (Schema.items_of_singleItem? he)))
      (ofParts d false false).array
    obtain ⟨simpleValue, hvalue⟩ := simplePart_of_ok (fun e (he : d.extraValue? = some e) =>
      hchild e (Schema.value_mem_children (Schema.value_of_extraValue? he)))
      (ofParts d false false).map
    refine ⟨ofParts d simpleItem simpleValue, ?_⟩
    simp only [ofSchemaIn, hd, hitem, hvalue, bind, Except.bind]
    rfl

/-- **Where every reference comes to an end, every schema has a shape.** -/
theorem ofSchema_of_grounded (hr : r.Grounded) (hc : c.Grounded r) :
    ∃ shape, ofSchema r c = .ok shape :=
  ofSchemaIn_of_grounded hr _ hc

end Shape

end KclModels
