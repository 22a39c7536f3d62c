import Mathlib.Data.Prod.Lex
import KclModels.Proofs.Registry.Walks
import KclModels.Proofs.Resolve.Cases
import KclModels.Proofs.Schema.Size

/-!
# Resolving comes to an end

A schema may be in need of the type of another one: of its elements, of its values, or of what it
refers to. Definitions refer to each other and to themselves, and what a reference leads to may well
be larger than the reference, so nothing about schemas alone says that this ends.

What ends it is the list of the references that a call is inside of. A reference is entered once at
most, and only if it names a definition, so each time a definition is left over that was not entered
before. Within the definitions that are left a call goes to a part of its schema. Both together are
the weight of a call, and each call weighs less than the one that it is made for.

The count that resolving is given is thus one that it never uses up: `Evaluates` is resolving without
it.
-/

namespace KclModels.Resolver

variable {tr : Text.Transliteration}
variable {r : Resolver} {visiting : List String} {s target item value : Schema}
variable {anonymous required : Bool} {x type : String} {known : DeclaredType} {t : TypeInfo}

/-- A call: the references that it is inside of, the last first, and the schema it is made for. -/
structure Call where
  visiting : List String
  schema : Schema

/-! ## The weight of a call -/

/-- How many definitions no reference was followed to. -/
def unvisited (r : Resolver) (visiting : List String) : Nat :=
  ((Assoc.keys r.registry.definitions).filter fun n =>
    !visiting.contains (Reference.toDefinition n)).length

/-- The definitions that are not visited count first, then the size of the schema. -/
def Call.weight (r : Resolver) (call : Call) : Nat ×ₗ Nat :=
  toLex (r.unvisited call.visiting, call.schema.size)

theorem unvisited_nil (r : Resolver) : r.unvisited [] = r.registry.definitions.length := by
  simp [unvisited, Assoc.keys]

/-- **To enter a reference leaves fewer definitions.** -/
theorem unvisited_cons_lt (hnew : x ∉ visiting) (hx : r.registry.lookup x = .ok s) :
    r.unvisited (x :: visiting) < r.unvisited visiting := by
  obtain ⟨n, hn, hs⟩ := Registry.lookup_ok hx
  have heq : x = Reference.toDefinition n := Reference.eq_toDefinition hn
  -- those that are left after it are those from before, without the one that it names
  have hfilter : (Assoc.keys r.registry.definitions).filter (fun m =>
        !(x :: visiting).contains (Reference.toDefinition m)) =
      ((Assoc.keys r.registry.definitions).filter fun m =>
        !visiting.contains (Reference.toDefinition m)).filter
        fun m => !(Reference.toDefinition m == x) := by
    rw [List.filter_filter]
    refine List.filter_congr fun m _ => ?_
    rw [List.contains_cons, Bool.not_or]
  have hmem : n ∈ (Assoc.keys r.registry.definitions).filter fun m =>
      !visiting.contains (Reference.toDefinition m) := by
    refine List.mem_filter.mpr ⟨Registry.mem_keys_of_get? hs, ?_⟩
    simpa [← heq] using hnew
  unfold unvisited
  rw [hfilter]
  refine List.length_filter_lt_length_iff_exists.mpr ⟨n, hmem, ?_⟩
  simp [heq]

theorem weight_lt_of_enter (hnew : x ∉ visiting) (hx : r.registry.lookup x = .ok target)
    (s d : Schema) : Call.weight r ⟨x :: visiting, d⟩ < Call.weight r ⟨visiting, s⟩ :=
  Prod.Lex.toLex_lt_toLex.mpr (.inl (unvisited_cons_lt hnew hx))

theorem weight_lt_of_child (r : Resolver) (visiting : List String) (h : item ∈ s.children) :
    Call.weight r ⟨visiting, item⟩ < Call.weight r ⟨visiting, s⟩ :=
  Prod.Lex.toLex_lt_toLex.mpr (.inr ⟨rfl, Schema.size_lt_of_child h⟩)

/-! ## Resolving without a limit -/

/--
How the type of a schema is found inside the references of `visiting`, with the calls that are made
on the way, each for the one before it.
-/
inductive Evaluates [Text.Transliteration] (r : Resolver) : List String → Schema →
    (anonymous required : Bool) → List Call → Except TypeError TypeInfo → Prop
  | again {visiting : List String} {s : Schema} {anonymous required : Bool} {x : String} :
      s.reference = some x → x ∈ visiting →
      Evaluates r visiting s anonymous required [] (r.meetAgain x)
  | unknown {visiting : List String} {s : Schema} {anonymous required : Bool} {x : String}
      {e : TypeError} : s.reference = some x → x ∉ visiting → r.knownAs x = .error e →
      Evaluates r visiting s anonymous required [] (.error e)
  | lost {visiting : List String} {s : Schema} {anonymous required : Bool} {x : String}
      {known : DeclaredType} {e : ReferenceError} : s.reference = some x → x ∉ visiting →
      r.knownAs x = .ok known → r.registry.Walks x [] x (.error e) →
      Evaluates r visiting s anonymous required [] (.error (.reference e))
  | enter {visiting : List String} {s target : Schema} {anonymous required : Bool} {x : String}
      {known : DeclaredType} {calls : List Call} {out : Except TypeError TypeInfo} :
      s.reference = some x → x ∉ visiting → r.knownAs x = .ok known →
      r.registry.Walks x [] x (.ok target) →
      Evaluates r (x :: visiting) target false required calls out →
      Evaluates r visiting s anonymous required (⟨x :: visiting, target⟩ :: calls)
        (ofTarget known anonymous <$> out)
  | byFormat {visiting : List String} {s : Schema} {anonymous required : Bool} {t : TypeInfo} :
      s.reference = none → byFormat? s = some t →
      Evaluates r visiting s anonymous required [] (.ok t)
  | byHint {visiting : List String} {s : Schema} {anonymous required : Bool} :
      s.reference = none → byFormat? s = none → s.hints.intOrString = true →
      Evaluates r visiting s anonymous required [] (.ok (intOrString s))
  | untyped {visiting : List String} {s : Schema} {anonymous required : Bool} {e : TypeError} :
      s.reference = none → byFormat? s = none → s.hints.intOrString = false →
      r.typeName s = .error e → Evaluates r visiting s anonymous required [] (.error e)
  | scalar {visiting : List String} {s : Schema} {anonymous required : Bool} {type : String} :
      Says r s type → type ≠ "array" → type ≠ "object" →
      Evaluates r visiting s anonymous required [] (settle required <$> r.scalarOf s type)
  | anything {visiting : List String} {s : Schema} {anonymous required : Bool} :
      Says r s "array" → s.items = none →
      Evaluates r visiting s anonymous required []
        (.ok (settle required (sequenceOf s anonymous (some .any))))
  | places {visiting : List String} {s : Schema} {anonymous required : Bool}
      {schemas : List Schema} : Says r s "array" → s.items = some (.tuple schemas) →
      Evaluates r visiting s anonymous required []
        (.ok (settle required (sequenceOf s anonymous none)))
  | elements {visiting : List String} {s item : Schema} {anonymous required : Bool}
      {calls : List Call} {out : Except TypeError TypeInfo} :
      Says r s "array" → s.items = some (.single item) →
      Evaluates r visiting item true false calls out →
      Evaluates r visiting s anonymous required (⟨visiting, item⟩ :: calls)
        ((fun t => settle required (sequenceOf s anonymous (some t))) <$> out)
  | composed {visiting : List String} {s : Schema} {anonymous required : Bool} :
      Says r s "object" → s.allOf ≠ [] →
      Evaluates r visiting s anonymous required [] (.ok (settle required (r.composed s anonymous)))
  | closed {visiting : List String} {s : Schema} {anonymous required : Bool} :
      Says r s "object" → s.allOf = [] →
      (∀ value, s.additionalProperties ≠ some (.schema value)) →
      Evaluates r visiting s anonymous required []
        (.ok (settle required (r.objectWith s anonymous none)))
  | values {visiting : List String} {s value : Schema} {anonymous required : Bool}
      {calls : List Call} {out : Except TypeError TypeInfo} :
      Says r s "object" → s.allOf = [] → s.additionalProperties = some (.schema value) →
      Evaluates r visiting value value.reference.isNone false calls out →
      Evaluates r visiting s anonymous required (⟨visiting, value⟩ :: calls)
        ((fun t => settle required (r.objectWith s anonymous (some t))) <$> out)

variable {calls : List Call} {out : Except TypeError TypeInfo}

theorem lookup_of_knownAs (h : r.knownAs x = .ok known) : ∃ s, r.registry.lookup x = .ok s := by
  obtain ⟨s, hs, -⟩ := bind_eq_ok.mp h
  exact ⟨s, mapError_ok hs⟩

/-! ## Every call ends -/

/-- To show something of a call, it may be assumed of the calls that weigh less. -/
theorem call_induction (r : Resolver) {P : Call → Prop}
    (step : ∀ call, (∀ inner : Call, inner.weight r < call.weight r → P inner) → P call)
    (call : Call) : P call :=
  (InvImage.wf (Call.weight r) wellFounded_lt).induction call step

/-- The call comes to an end, whether or not its type is to be anonymous or required. -/
def Call.Ends [Text.Transliteration] (r : Resolver) (call : Call) : Prop :=
  ∀ anonymous required : Bool,
    ∃ calls out, r.Evaluates call.visiting call.schema anonymous required calls out

variable (ih : ∀ inner : Call, inner.weight r < Call.weight r ⟨visiting, s⟩ → inner.Ends r)

include ih

theorem ends_of_reference (href : s.reference = some x) : Call.Ends r ⟨visiting, s⟩ := by
  intro anonymous required
  by_cases hmem : x ∈ visiting
  · exact ⟨_, _, .again href hmem⟩
  · cases hknown : r.knownAs x with
    | error e => exact ⟨_, _, .unknown href hmem hknown⟩
    | ok known =>
      have hwalks := Registry.resolve_walks r.registry x
      cases htarget : r.registry.resolve x with
      | error e =>
        rw [htarget] at hwalks
        exact ⟨_, _, .lost href hmem hknown hwalks⟩
      | ok target =>
        rw [htarget] at hwalks
        obtain ⟨d, hd⟩ := lookup_of_knownAs hknown
        have hlt := weight_lt_of_enter hmem hd s target
        obtain ⟨calls, out, h⟩ := ih ⟨x :: visiting, target⟩ hlt false required
        exact ⟨_, _, .enter href hmem hknown hwalks h⟩

theorem ends_of_array (htyped : Says r s "array") : Call.Ends r ⟨visiting, s⟩ := by
  intro anonymous required
  cases hitems : s.items with
  | none => exact ⟨_, _, .anything htyped hitems⟩
  | some items =>
    cases items with
    | tuple schemas => exact ⟨_, _, .places htyped hitems⟩
    | single item =>
      have hlt := weight_lt_of_child r visiting (Schema.item_mem_children hitems)
      obtain ⟨calls, out, h⟩ := ih ⟨visiting, item⟩ hlt true false
      exact ⟨_, _, .elements htyped hitems h⟩

theorem ends_of_object (htyped : Says r s "object") : Call.Ends r ⟨visiting, s⟩ := by
  intro anonymous required
  by_cases hall : s.allOf = []
  · by_cases hvalue : ∃ value, s.additionalProperties = some (.schema value)
    · obtain ⟨value, hvalue⟩ := hvalue
      have hlt := weight_lt_of_child r visiting (Schema.value_mem_children hvalue)
      obtain ⟨calls, out, h⟩ := ih ⟨visiting, value⟩ hlt value.reference.isNone false
      exact ⟨_, _, .values htyped hall hvalue h⟩
    · exact ⟨_, _, .closed htyped hall fun value h => hvalue ⟨value, h⟩⟩
  · exact ⟨_, _, .composed htyped hall⟩

/-- A call ends if those do that weigh less. -/
theorem ends_of_lighter : Call.Ends r ⟨visiting, s⟩ := by
  intro anonymous required
  cases href : s.reference with
  | some x => exact ends_of_reference ih href anonymous required
  | none =>
    cases hf : byFormat? s with
    | some t => exact ⟨_, _, .byFormat href hf⟩
    | none =>
      cases hh : s.hints.intOrString with
      | true => exact ⟨_, _, .byHint href hf hh⟩
      | false =>
        cases htype : r.typeName s with
        | error e => exact ⟨_, _, .untyped href hf hh htype⟩
        | ok type =>
          have htyped : Says r s type := ⟨href, hf, hh, htype⟩
          by_cases harray : type = "array"
          · exact ends_of_array ih (harray ▸ htyped) anonymous required
          · by_cases hobject : type = "object"
            · exact ends_of_object ih (hobject ▸ htyped) anonymous required
            · exact ⟨_, _, .scalar htyped harray hobject⟩

omit ih

/-- **Every call comes to an end**, for every schema and inside of any references. -/
theorem call_ends (r : Resolver) (call : Call) : call.Ends r := by
  induction call using call_induction r with
  | step call ih => exact ends_of_lighter ih

/-! ## What is found without a limit is found with one -/

variable {deref : Deref}

theorem resolveWith_of_typeName (h : Says r s type) :
    resolveWith r deref anonymous required s = r.byName deref anonymous required s type := by
  rw [resolveWith_of_name h.reference h.format h.intOrString, h.typeName]
  rfl

theorem resolveWith_of_array (h : Says r s "array") :
    resolveWith r deref anonymous required s =
      (fun element => settle required (sequenceOf s anonymous element)) <$>
        resolveItems r deref s.items := by
  rw [resolveWith_of_typeName h, byName, if_pos rfl]

theorem resolveWith_of_object (h : Says r s "object") (hall : s.allOf = []) :
    resolveWith r deref anonymous required s =
      (fun value => settle required (r.objectWith s anonymous value)) <$>
        resolveValue r deref s.additionalProperties := by
  rw [resolveWith_of_typeName h, byName, if_neg (by decide), if_pos rfl,
    if_pos (List.isEmpty_iff.mpr hall)]

theorem enter_of_resolve (hknown : r.knownAs x = .ok known)
    (htarget : r.registry.resolve x = .ok target) :
    r.enter deref anonymous required x =
      ofTarget known anonymous <$> resolveWith r deref false required target := by
  unfold enter
  rw [hknown, htarget]
  simp only [Except.mapError, bind, Except.bind]
  cases resolveWith r deref false required target <;> rfl

theorem derefIn_of_mem (hmem : x ∈ visiting) (limit : Nat) :
    r.derefIn limit visiting anonymous required x = r.meetAgain x := by
  cases limit with
  | zero => rfl
  | succ limit => rw [derefIn, if_pos (List.contains_iff_mem.mpr hmem)]

theorem derefIn_of_new (hnew : x ∉ visiting) (limit : Nat) :
    r.derefIn (limit + 1) visiting anonymous required x =
      r.enter (r.derefIn limit (x :: visiting)) anonymous required x := by
  rw [derefIn, if_neg fun h => hnew (List.contains_iff_mem.mp h)]

/-- Where a reference can be entered the limit is not used up. -/
theorem exists_limit (hnew : x ∉ visiting) (hknown : r.knownAs x = .ok known) {limit : Nat}
    (hlimit : r.unvisited visiting ≤ limit) :
    ∃ rest, limit = rest + 1 ∧ r.unvisited (x :: visiting) ≤ rest := by
  obtain ⟨d, hd⟩ := lookup_of_knownAs hknown
  have hlt := unvisited_cons_lt hnew hd
  exact ⟨limit - 1, by omega, by omega⟩

/-- **A limit of at least the definitions that are left changes nothing.** -/
theorem Evaluates.eq_resolveWith (h : r.Evaluates visiting s anonymous required calls out) :
    ∀ limit, r.unvisited visiting ≤ limit →
      out = resolveWith r (r.derefIn limit visiting) anonymous required s := by
  induction h with
  | again href hmem =>
    intro limit _
    rw [resolveWith_of_reference href, derefIn_of_mem hmem]
  | unknown href hmem hknown =>
    intro limit _
    rw [resolveWith_of_reference href]
    cases limit with
    | zero =>
      rw [derefIn, meetAgain, hknown]
      rfl
    | succ limit =>
      rw [derefIn_of_new hmem, Resolver.enter, hknown]
      rfl
  | lost href hmem hknown hwalks =>
    intro limit hlimit
    -- the definition is left, so the limit is not used up
    obtain ⟨limit, rfl, -⟩ := exists_limit hmem hknown hlimit
    rw [resolveWith_of_reference href, derefIn_of_new hmem, Resolver.enter, hknown,
      Registry.walks_iff.mp hwalks]
    rfl
  | enter href hmem hknown hwalks _ ih =>
    intro limit hlimit
    -- entering it leaves one less to visit, for a limit that is one less
    obtain ⟨limit, rfl, hrest⟩ := exists_limit hmem hknown hlimit
    rw [resolveWith_of_reference href, derefIn_of_new hmem,
      enter_of_resolve hknown (Registry.walks_iff.mp hwalks), ih limit hrest]
  | byFormat href hf =>
    intro limit _
    rw [resolveWith_of_format href hf]
  | byHint href hf hh =>
    intro limit _
    rw [resolveWith_of_hint href hf hh]
  | untyped href hf hh htype =>
    intro limit _
    rw [resolveWith_of_name href hf hh, htype]
    rfl
  | scalar htyped harray hobject =>
    intro limit _
    rw [resolveWith_of_typeName htyped, byName, if_neg harray, if_neg hobject]
  | anything htyped hitems =>
    intro limit _
    rw [resolveWith_of_array htyped, hitems]
    rfl
  | places htyped hitems =>
    intro limit _
    rw [resolveWith_of_array htyped, hitems]
    rfl
  | @elements visiting s item anonymous required calls out htyped hitems _ ih =>
    intro limit hlimit
    rw [resolveWith_of_array htyped, hitems, resolveItems, ih limit hlimit]
    cases resolveWith r (r.derefIn limit visiting) true false item <;> rfl
  | composed htyped hall =>
    intro limit _
    have hsome : ¬ List.isEmpty _ = true := fun h => hall (List.isEmpty_iff.mp h)
    rw [resolveWith_of_typeName htyped, byName, if_neg (by decide), if_pos rfl, if_neg hsome]
  | @closed visiting s anonymous required htyped hall hno =>
    intro limit _
    -- values of any kind, or none: no schema is resolved for them
    have hnone : resolveValue r (r.derefIn limit visiting) s.additionalProperties = .ok none := by
      unfold resolveValue
      split
      · rename_i value hvalue
        exact absurd hvalue (hno value)
      · rfl
    rw [resolveWith_of_object htyped hall, hnone]
    rfl
  | @values visiting s value anonymous required calls out htyped hall hvalue _ ih =>
    intro limit hlimit
    rw [resolveWith_of_object htyped hall, hvalue, resolveValue, ih limit hlimit]
    cases resolveWith r (r.derefIn limit visiting) value.reference.isNone false value <;> rfl

/-! ## Along the calls -/

/-- **The references that a call is inside of name definitions, each another one.** -/
theorem Evaluates.entered (h : r.Evaluates visiting s anonymous required calls out)
    (hvisiting : r.registry.Entered visiting) :
    ∀ call ∈ calls, r.registry.Entered call.visiting := by
  induction h with
  | enter _ hmem hknown _ _ ih =>
    obtain ⟨d, hd⟩ := lookup_of_knownAs hknown
    have hinner := hvisiting.cons hmem hd
    exact List.forall_mem_cons.mpr ⟨hinner, ih hinner⟩
  | elements _ _ _ ih => exact List.forall_mem_cons.mpr ⟨hvisiting, ih hvisiting⟩
  | values _ _ _ _ ih => exact List.forall_mem_cons.mpr ⟨hvisiting, ih hvisiting⟩
  | _ => exact fun _ h => absurd h List.not_mem_nil

/-- **Each call weighs less than the one that it is made for.** -/
theorem Evaluates.descends (h : r.Evaluates visiting s anonymous required calls out) :
    (⟨visiting, s⟩ :: calls).IsChain fun outer inner => inner.weight r < outer.weight r := by
  induction h with
  | enter _ hmem hknown _ _ ih =>
    obtain ⟨d, hd⟩ := lookup_of_knownAs hknown
    exact List.isChain_cons_cons.mpr ⟨weight_lt_of_enter hmem hd _ _, ih⟩
  | elements _ hitems _ ih =>
    have hchild := Schema.item_mem_children hitems
    exact List.isChain_cons_cons.mpr ⟨weight_lt_of_child r _ hchild, ih⟩
  | values _ _ hvalue _ ih =>
    have hchild := Schema.value_mem_children hvalue
    exact List.isChain_cons_cons.mpr ⟨weight_lt_of_child r _ hchild, ih⟩
  | _ => exact .singleton _

/--
**Every schema is resolved**, to a type or to an error, in calls that become smaller: the references
that a call is inside of are distinct and each names a definition, and there are fewer definitions
left or the schema is smaller from one call to the next.
-/
theorem resolve_descends (r : Resolver) (s : Schema) (anonymous required : Bool) :
    (∃ calls, r.Evaluates [] s anonymous required calls (r.resolve s anonymous required)) ∧
    ∀ calls out, r.Evaluates [] s anonymous required calls out →
      out = r.resolve s anonymous required ∧
      (∀ call ∈ calls, r.registry.Entered call.visiting) ∧
      (⟨[], s⟩ :: calls).IsChain fun outer inner => inner.weight r < outer.weight r := by
  have hresolve : ∀ {calls out}, r.Evaluates [] s anonymous required calls out →
      out = r.resolve s anonymous required :=
    fun h => h.eq_resolveWith _ (Nat.le_of_eq r.unvisited_nil)
  constructor
  · obtain ⟨calls, out, h⟩ := r.call_ends ⟨[], s⟩ anonymous required
    exact ⟨calls, hresolve h ▸ h⟩
  · intro calls out h
    exact ⟨hresolve h, h.entered (Registry.entered_nil r.registry), h.descends⟩

end KclModels.Resolver
