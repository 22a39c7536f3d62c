import KclModels.Proofs.Assoc.Sorted
import KclModels.Proofs.Schema.Size
import KclModels.Resolve
import KclModels.Shape

/-!
# Registries that agree

The definitions of a registry stand in an order, and nothing is read off it: a registry is asked for
the definition under a name, for the count of definitions, and for the names that are kept or were
given out. Two registries agree if they answer alike. Then references lead to the same schemas in
both, schemas have the same shapes and types, and the next name that is given out is the same.
-/

namespace KclModels

variable {tr : Text.Transliteration}

namespace Assoc

variable {α : Type} {m : List (String × α)} {k : String} {v : α}

theorem length_put : (put m k v).length = if has m k then m.length else m.length + 1 := by
  induction m with
  | nil => simp [put, has]
  | cons p rest ih =>
    obtain ⟨l, w⟩ := p
    unfold has at ih ⊢
    rw [lookup_pair]
    by_cases h : l = k
    · simp [put, h]
    · rw [if_neg (Ne.symm h)]
      simp only [put, h, if_false, List.length_cons, ih]
      split <;> rfl

end Assoc

namespace Registry

/-- The registries answer alike. -/
structure Agrees (r r' : Registry) : Prop where
  get? : ∀ n, r.get? n = r'.get? n
  length : r.definitions.length = r'.definitions.length
  reserved : r.reserved = r'.reserved
  hoisted : r.hoisted = r'.hoisted

variable {r r' : Registry}

theorem Agrees.contains (h : r.Agrees r') : r.contains = r'.contains := by
  funext n
  have hget := h.get? n
  unfold Registry.get? at hget
  rw [Registry.contains, Registry.contains, Assoc.has, Assoc.has, hget, h.reserved]

theorem Agrees.isHoisted (h : r.Agrees r') (n : String) : r.isHoisted n = r'.isHoisted n := by
  rw [Registry.isHoisted, Registry.isHoisted, h.hoisted]

/-- **Registries that agree give out the same name**, and agree when they have done so. -/
theorem Agrees.hoist (h : r.Agrees r') (base : String) (s : Schema) :
    (r.hoist base s).1 = (r'.hoist base s).1 ∧ (r.hoist base s).2.Agrees (r'.hoist base s).2 := by
  have hname : (r.hoist base s).1 = (r'.hoist base s).1 := by
    show freshName r.contains r.size base = freshName r'.contains r'.size base
    rw [h.contains, size, size, h.length, h.reserved]
  have hhas : Assoc.has r.definitions (r'.hoist base s).1 =
      Assoc.has r'.definitions (r'.hoist base s).1 := congrArg Option.isSome (h.get? _)
  refine ⟨hname, ?_, ?_, ?_, ?_⟩
  · intro n
    show (Assoc.put _ (r.hoist base s).1 s).lookup n = (Assoc.put _ (r'.hoist base s).1 s).lookup n
    rw [Assoc.lookup_put, Assoc.lookup_put, hname]
    exact if_congr Iff.rfl rfl (h.get? n)
  · show (Assoc.put r.definitions (r.hoist base s).1 s).length =
      (Assoc.put r'.definitions (r'.hoist base s).1 s).length
    rw [Assoc.length_put, Assoc.length_put, hname, hhas, h.length]
  · show (Assoc.insertName r.reserved (r.hoist base s).1).erase (r.hoist base s).1 =
      (Assoc.insertName r'.reserved (r'.hoist base s).1).erase (r'.hoist base s).1
    rw [hname, h.reserved]
  · show r.hoisted ++ [(r.hoist base s).1] = r'.hoisted ++ [(r'.hoist base s).1]
    rw [hname, h.hoisted]

theorem Agrees.lookup (h : r.Agrees r') (reference : String) :
    r.lookup reference = r'.lookup reference := by
  have hget : r.get? = r'.get? := funext h.get?
  rw [Registry.lookup, Registry.lookup, hget]

theorem Agrees.followFrom (h : r.Agrees r') (start : String) (steps : Nat) :
    ∀ visited current, r.followFrom start visited current steps =
      r'.followFrom start visited current steps := by
  induction steps with
  | zero => exact fun _ _ => rfl
  | succ steps ih =>
    intro visited current
    simp only [Registry.followFrom, h.lookup, ih]

theorem Agrees.resolve (h : r.Agrees r') (reference : String) :
    r.resolve reference = r'.resolve reference := by
  rw [Registry.resolve, Registry.resolve, h.length, h.followFrom]

end Registry

/-! ## Shapes -/

namespace Shape

variable {r r' : Registry}

theorem behind_agrees (h : r.Agrees r') (s : Schema) : behind r s = behind r' s := by
  unfold behind
  cases s.reference with
  | none => rfl
  | some reference => exact h.resolve reference

theorem ofSchemaIn_agrees (h : r.Agrees r') (levels : Nat) :
    ofSchemaIn r levels = ofSchemaIn r' levels := by
  induction levels with
  | zero =>
    funext s
    rw [ofSchemaIn, ofSchemaIn, behind_agrees h]
  | succ levels ih =>
    funext s
    rw [ofSchemaIn, ofSchemaIn, behind_agrees h, ih]

theorem ofSchema_agrees (h : r.Agrees r') : ofSchema r = ofSchema r' :=
  ofSchemaIn_agrees h (maxDepth + 1)

end Shape

/-! ## Types -/

namespace Resolver

/-- The resolvers look in registries that agree, with the same options, at the same place. -/
structure Agrees (r r' : Resolver) : Prop where
  registry : r.registry.Agrees r'.registry
  options : r.options = r'.options
  modelName : r.modelName = r'.modelName
  path : r.path = r'.path

variable {r r' : Resolver}

theorem Agrees.declared (h : r.Agrees r') (name : String) (s : Schema) :
    r.declared name s = r'.declared name s := by
  unfold Resolver.declared
  rw [h.registry.isHoisted, h.options]

theorem Agrees.modelTypeName (h : r.Agrees r') : r.modelTypeName = r'.modelTypeName := by
  unfold Resolver.modelTypeName
  rw [h.modelName, h.registry.get?]
  simp only [h.declared]

theorem Agrees.unsupported (h : r.Agrees r') (s : Schema) : r.unsupported s = r'.unsupported s := by
  rw [Resolver.unsupported, Resolver.unsupported, h.path]

theorem Agrees.typeName (h : r.Agrees r') (s : Schema) : r.typeName s = r'.typeName s := by
  unfold Resolver.typeName
  simp only [h.unsupported]

theorem Agrees.scalarOf (h : r.Agrees r') (s : Schema) (type : String) :
    r.scalarOf s type = r'.scalarOf s type := by
  unfold Resolver.scalarOf
  simp only [h.unsupported]

theorem Agrees.objectOf (h : r.Agrees r') (s : Schema) (anonymous : Bool) :
    r.objectOf s anonymous = r'.objectOf s anonymous := by
  unfold Resolver.objectOf
  rw [h.modelName, h.declared]

theorem Agrees.objectWith (h : r.Agrees r') (s : Schema) (anonymous : Bool)
    (value : Option TypeInfo) : r.objectWith s anonymous value = r'.objectWith s anonymous value := by
  unfold Resolver.objectWith
  simp only [h.objectOf]

theorem Agrees.composed (h : r.Agrees r') (s : Schema) (anonymous : Bool) :
    r.composed s anonymous = r'.composed s anonymous := by
  unfold Resolver.composed
  rw [h.objectOf, h.modelName]

/--
Resolvers that read the same off a schema itself give it the same type: the schemas in it are resolved
by the same steps.
-/
theorem resolveWith_congr (deref : Deref) (hname : r.typeName = r'.typeName)
    (hscalar : r.scalarOf = r'.scalarOf) (hcomposed : r.composed = r'.composed)
    (hobject : r.objectWith = r'.objectWith) (s : Schema) :
    ∀ anonymous required, resolveWith r deref anonymous required s =
      resolveWith r' deref anonymous required s := by
  induction s using Schema.children_induction with
  | step s ih =>
    intro anonymous required
    -- the schemas below are those of the items and of the values
    have hitems : resolveItems r deref s.items = resolveItems r' deref s.items := by
      unfold resolveItems
      split
      · rfl
      · rename_i item hitem
        rw [ih item (Schema.item_mem_children hitem)]
      · rfl
    have hvalue : resolveValue r deref s.additionalProperties =
        resolveValue r' deref s.additionalProperties := by
      unfold resolveValue
      split
      · rename_i value hvalue
        rw [ih value (Schema.value_mem_children hvalue)]
      · rfl
    obtain ⟨keywords, properties, allOf, items, value, extraItems⟩ := s
    rw [Resolver.resolveWith, Resolver.resolveWith, hitems, hvalue, hname, hscalar, hcomposed,
      hobject]

theorem Agrees.resolveWith (h : r.Agrees r') (deref : Deref) (s : Schema) (anonymous required : Bool) :
    resolveWith r deref anonymous required s = resolveWith r' deref anonymous required s :=
  resolveWith_congr deref (funext h.typeName) (funext₂ h.scalarOf) (funext₂ h.composed)
    (funext₃ h.objectWith) s anonymous required

theorem Agrees.knownAs (h : r.Agrees r') (reference : String) :
    r.knownAs reference = r'.knownAs reference := by
  unfold Resolver.knownAs
  rw [h.registry.lookup]
  simp only [h.declared]

theorem Agrees.meetAgain (h : r.Agrees r') (reference : String) :
    r.meetAgain reference = r'.meetAgain reference := by
  rw [Resolver.meetAgain, Resolver.meetAgain, h.knownAs]

theorem Agrees.enter (h : r.Agrees r') (deref : Deref) : r.enter deref = r'.enter deref := by
  funext anonymous required reference
  unfold Resolver.enter
  simp only [h.knownAs, h.registry.resolve, h.resolveWith]

theorem Agrees.derefIn (h : r.Agrees r') (unvisited : Nat) :
    ∀ visiting, r.derefIn unvisited visiting = r'.derefIn unvisited visiting := by
  induction unvisited with
  | zero =>
    intro visiting
    funext anonymous required reference
    exact h.meetAgain reference
  | succ unvisited ih =>
    intro visiting
    funext anonymous required reference
    rw [Resolver.derefIn, Resolver.derefIn, h.meetAgain, ih, h.enter]

/-- **Resolvers that agree give a schema the same type**, or fail alike. -/
theorem Agrees.resolve (h : r.Agrees r') (s : Schema) (anonymous required : Bool) :
    r.resolve s anonymous required = r'.resolve s anonymous required := by
  rw [Resolver.resolve, Resolver.resolve, h.registry.length, h.derefIn, h.resolveWith]

theorem Agrees.resolveOptional (h : r.Agrees r') (s : Option Schema) (anonymous required : Bool) :
    r.resolveOptional s anonymous required = r'.resolveOptional s anonymous required := by
  cases s with
  | none => rfl
  | some s => exact h.resolve s anonymous required

end Resolver

end KclModels
