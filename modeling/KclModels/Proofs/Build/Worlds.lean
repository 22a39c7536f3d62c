import KclModels.Proofs.Build.Outcome
import KclModels.Proofs.Resolve.Renaming

/-!
# Worlds of two sessions

A world is a pair of sessions of which one mirrors the other, with the names along which it does.
Two runs of building go from world to world: the registries grow in step, and the names that are
known keep their counterparts. What two steps come to is said about the world they end in.

Errors of the two runs are the same but for the root of their paths. The root is the name of the
definition that is built, which may be one that was made on the way.
-/

namespace KclModels

open Registry

variable {tr : Text.Transliteration}

/-- Two sessions, the registry of the one a mirror of that of the other. -/
structure World (docs : List String) where
  left : Session
  right : Session
  /-- The counterpart of a name. -/
  name : String → String
  mirrors : left.registry.Mirrors docs name right.registry

namespace World

variable {docs : List String} {W W₁ W₂ : World docs} {n n' : String}

/-- The name has a definition. -/
def Defines (W : World docs) (n : String) : Prop := W.left.registry.Defines n

/-- What is known in the one world is known in the other. -/
def Before (W W₁ : World docs) : Prop :=
  Extends W.name W.left.registry W₁.name W₁.left.registry

theorem Before.refl (W : World docs) : W.Before W := Extends.refl _ _

theorem Before.trans (h : W.Before W₁) (h' : W₁.Before W₂) : W.Before W₂ := Extends.trans h h'

/-- Counterparts that can be referred to. -/
structure Named (W : World docs) (n n' : String) : Prop where
  defines : W.Defines n
  name : W.name n = n'
  parsed : Reference.name? (Reference.toDefinition n) = some n

theorem Named.mono (h : W.Named n n') (hW : W.Before W₁) : W₁.Named n n' :=
  ⟨(hW n h.defines).1, (hW n h.defines).2.trans h.name, h.parsed⟩

end World

/-! ## Schemas -/

namespace Schema

variable {docs : List String} {W W₁ : World docs} {c c' d d' : Schema} {n n' : String}

/-- The second schema is the first with the counterparts of its names, all of which are known. -/
structure Matches (W : World docs) (c c' : Schema) : Prop where
  eq : c' = c.rename W.name
  known : c.Known W.Defines unasked

theorem Matches.mono (h : c.Matches W c') (hW : W.Before W₁) : c.Matches W₁ c' where
  eq := h.eq.trans (Extends.rename hW h.known).symm
  known := Extends.known hW h.known

theorem Matches.child (h : c.Matches W c') (hd : d ∈ c.children) : d.Matches W (d.rename W.name) :=
  ⟨rfl, h.known.child hd⟩

theorem Matches.isSome_reference (h : c.Matches W c') :
    c'.reference.isSome = c.reference.isSome := by
  rw [h.eq, reference_rename, Option.isSome_map]

theorem Matches.isNone_reference (h : c.Matches W c') :
    c'.reference.isNone = c.reference.isNone := by
  rw [h.eq, reference_rename, Option.isNone_map]

theorem Matches.reference {reference : String} (h : c.Matches W c')
    (href : c.reference = some reference) :
    c'.reference = some (Reference.rename W.name reference) ∧
      W.left.registry.Reaches reference := by
  refine ⟨?_, reaches_of_known h.known href⟩
  rw [h.eq, reference_rename, href, Option.map_some]

/-- What a schema refers to has the name that its counterpart refers to. -/
theorem Matches.referenceName (h : c.Matches W c') :
    c'.referenceName = c.referenceName.map W.name ∧
      ∀ n, c.referenceName = some n → W.Named n (W.name n) := by
  constructor
  · rw [Schema.referenceName, Schema.referenceName, h.eq, reference_rename]
    cases href : c.reference with
    | none => rfl
    | some reference => exact W.mirrors.name? (reaches_of_known h.known href)
  · intro n hn
    obtain ⟨reference, href, hname⟩ := Option.bind_eq_some_iff.mp hn
    refine ⟨h.known.here.1 n hn, rfl, ?_⟩
    rw [← Reference.eq_toDefinition hname]
    exact hname

theorem Matches.allOf (h : c.Matches W c') : List.Forall₂ (Matches W) c.allOf c'.allOf := by
  rw [h.eq, allOf_rename, List.forall₂_map_right_iff]
  exact List.forall₂_same.mpr fun d hd => h.child (branch_mem_children hd)

/-- Properties match if their names are the same and their schemas match. -/
def PropertyMatches (W : World docs) (e e' : String × Schema) : Prop :=
  e'.1 = e.1 ∧ e.2.Matches W e'.2

theorem Matches.properties (h : c.Matches W c') :
    List.Forall₂ (PropertyMatches W) c.properties c'.properties := by
  rw [h.eq, properties_rename, List.forall₂_map_right_iff]
  exact List.forall₂_same.mpr fun e he => ⟨rfl, h.child (property_mem_children he)⟩

/-- The values of the extras match. -/
inductive ExtraMatches (W : World docs) : Option (Extra Schema) → Option (Extra Schema) → Prop
  | none : ExtraMatches W none none
  | flag (b : Bool) : ExtraMatches W (some (.flag b)) (some (.flag b))
  | schema {d d' : Schema} : d.Matches W d' →
      ExtraMatches W (some (.schema d)) (some (.schema d'))

theorem extraMatches {e : Option (Extra Schema)}
    (h : ∀ d, e = some (.schema d) → d.Known W.Defines unasked) :
    ExtraMatches W e (mapExtraReferences (Reference.rename W.name) e) := by
  cases e with
  | none => exact .none
  | some x =>
    cases x with
    | flag b => exact .flag b
    | schema d => exact .schema ⟨rfl, h d rfl⟩

theorem Matches.additionalProperties (h : c.Matches W c') :
    ExtraMatches W c.additionalProperties c'.additionalProperties := by
  rw [h.eq, additionalProperties_rename]
  exact extraMatches fun d hd => h.known.child (value_mem_children hd)

theorem Matches.additionalItems (h : c.Matches W c') :
    ExtraMatches W c.additionalItems c'.additionalItems := by
  rw [h.eq, additionalItems_rename]
  exact extraMatches fun d hd => h.known.child (extraItem_mem_children hd)

/-- The items match. -/
inductive ItemsMatch (W : World docs) : Option (Items Schema) → Option (Items Schema) → Prop
  | none : ItemsMatch W none none
  | single {d d' : Schema} : d.Matches W d' → ItemsMatch W (some (.single d)) (some (.single d'))
  | tuple {l l' : List Schema} : List.Forall₂ (Matches W) l l' →
      ItemsMatch W (some (.tuple l)) (some (.tuple l'))

theorem Matches.items (h : c.Matches W c') : ItemsMatch W c.items c'.items := by
  rw [h.eq, items_rename]
  cases hitems : c.items with
  | none => exact .none
  | some items =>
    cases items with
    | single d => exact .single (h.child (item_mem_children hitems))
    | tuple l =>
      rw [tuple_rename]
      refine .tuple (List.forall₂_map_right_iff.mpr (List.forall₂_same.mpr fun d hd => ?_))
      exact h.child (place_mem_children hitems hd)

/-! ### Schemas that are put together -/

/-- A schema without references of its own but in its parts. -/
theorem matches_of_parts (href : c.reference = none) (heq : c' = c.rename W.name)
    (hc : ∀ d ∈ c.children, d.Known W.Defines unasked) : c.Matches W c' :=
  ⟨heq, known_of_plain href hc⟩

theorem matches_referenceTo (h : W.Named n n') : (referenceTo n).Matches W (referenceTo n') where
  eq := by rw [rename_referenceTo h.parsed, h.name]
  known := known_referenceTo h.defines

/-- A schema in which nothing refers to anything. -/
theorem matches_of_childless (href : c.reference = none) (hc : c.children = []) :
    c.Matches W c := by
  refine matches_of_parts href ?_ fun d hd => absurd (hc ▸ hd) List.not_mem_nil
  have hnone : c.mentions = [] := by
    rw [mentions_eq, href, hc]
    rfl
  have hid : c.rename W.name = c.mapReferences id :=
    mapReferences_congr c fun r hr => absurd (hnone ▸ hr) List.not_mem_nil
  rw [hid, mapReferences_id]

theorem matches_typed (W : World docs) (type : String) : (typed type).Matches W (typed type) :=
  matches_of_childless rfl rfl

/-- A schema in which one part was exchanged. -/
theorem Known.exchange {known : String → Prop} (h : c.Known known unasked)
    (hd : d.Known known unasked) (href : c'.reference = c.reference)
    (hc : ∀ e ∈ c'.children, e ∈ c.children ∨ e = d) : c'.Known known unasked := by
  refine known_unasked.mpr (everywhere_of_children (fun n hn => ?_) fun e he => ?_)
  · rw [Schema.referenceName, href] at hn
    exact h.here.1 n hn
  · rcases hc e he with he | rfl
    · exact known_unasked.mp (h.child he)
    · exact known_unasked.mp hd

theorem Matches.setBranch (h : c.Matches W c') (hd : d.Matches W d') (i : Nat) :
    ({ c with allOf := c.allOf.set i d } : Schema).Matches W
      { c' with allOf := c'.allOf.set i d' } where
  eq := by
    rw [h.eq, hd.eq, rename_eq W.name { c with allOf := _ }, allOf_rename, List.map_set,
      rename_eq W.name c]
  known := h.known.exchange hd.known rfl fun _ => mem_children_setBranch

theorem Matches.setItem (h : c.Matches W c') (hd : d.Matches W d') :
    ({ c with items := some (.single d) } : Schema).Matches W
      { c' with items := some (.single d') } where
  eq := by
    rw [h.eq, hd.eq, rename_eq W.name { c with items := _ }, rename_eq W.name c]
    rfl
  known := h.known.exchange hd.known rfl fun _ => mem_children_setItem

theorem Matches.setValue (h : c.Matches W c') (hd : d.Matches W d') :
    ({ c with additionalProperties := some (.schema d) } : Schema).Matches W
      { c' with additionalProperties := some (.schema d') } where
  eq := by
    rw [h.eq, hd.eq, rename_eq W.name { c with additionalProperties := _ }, rename_eq W.name c]
    rfl
  known := h.known.exchange hd.known rfl fun _ => mem_children_setValue

theorem Matches.setExtraItem (h : c.Matches W c') (hd : d.Matches W d') :
    ({ c with additionalItems := some (.schema d) } : Schema).Matches W
      { c' with additionalItems := some (.schema d') } where
  eq := by
    rw [h.eq, hd.eq, rename_eq W.name { c with additionalItems := _ }, rename_eq W.name c]
    rfl
  known := h.known.exchange hd.known rfl fun _ => mem_children_setExtraItem

/-- Counterparts have types that match wherever they are looked up. -/
theorem Matches.types (h : c.Matches W c') {r r' : Resolver} {path path' : String}
    (hr : r.registry = W.left.registry) (hr' : r'.registry = W.right.registry)
    (hpath : r.path = path) (hpath' : r'.path = path') {anonymous required required' : Bool} :
    Coincide (TypeError.Moved path path') TypeInfo.Matches (r.resolve c anonymous required)
      (r'.resolve c' anonymous required') := by
  have hmirrors : r.registry.Mirrors docs W.name r'.registry := by
    rw [hr, hr']
    exact W.mirrors
  have hknown : c.Known r.registry.Defines unasked := by
    rw [hr]
    exact h.known
  rw [h.eq, ← hpath, ← hpath']
  exact Resolver.resolve_coincide hmirrors hknown anonymous required required'

end Schema

/-! ## Errors -/

/-- The path starts at the definition `top`. -/
def rootOf (top : String) : String := "\"" ++ top ++ "\""

theorem rootOf_ne_empty (top : String) : rootOf top ≠ "" := by simp [rootOf]

/-- The errors are the same but for the root of the path: `top` here and `top'` there. -/
inductive GenerationError.Moved (top top' : String) : GenerationError → GenerationError → Prop
  | reference (e : ReferenceError) : Moved top top' (.type (.reference e)) (.type (.reference e))
  | unsupported (below : String) (types : List String) (format : Option String) :
      Moved top top' (.type (.unsupported (rootOf top ++ below) types format))
        (.type (.unsupported (rootOf top' ++ below) types format))
  | mixedItems (below : String) :
      Moved top top' (.mixedItems (rootOf top ++ below)) (.mixedItems (rootOf top' ++ below))
  | complexEnumValue (below : String) : Moved top top' (.complexEnumValue (rootOf top ++ below))
      (.complexEnumValue (rootOf top' ++ below))
  | endless : Moved top top' .endless .endless

/-- An error of a type at counterparts of places. -/
theorem GenerationError.moved_type {top top' below : String} {e e' : TypeError}
    (h : TypeError.Moved (rootOf top ++ below) (rootOf top' ++ below) e e') :
    Moved top top' (.type e) (.type e') := by
  cases h with
  | reference e => exact .reference e
  | unsupported types format => exact .unsupported below types format

/-! ## Steps -/

namespace Build

variable {docs : List String} {W W₁ : World docs} {α β γ δ : Type}
variable {E : GenerationError → GenerationError → Prop}

/-- Both steps end well, in a later world and with results in `Q` there, or both fail alike. -/
def Mirrored (W : World docs) (m : Build α) (m' : Build β)
    (E : GenerationError → GenerationError → Prop) (Q : World docs → α → β → Prop) : Prop :=
  m.Pairs W.left m' W.right E fun a s b s' =>
    ∃ W₁ : World docs, W.Before W₁ ∧ W₁.left = s ∧ W₁.right = s' ∧ Q W₁ a b

variable {Q Q' : World docs → α → β → Prop} {P : World docs → γ → δ → Prop}
variable {m : Build α} {m' : Build β} {k : α → Build γ} {k' : β → Build δ}

theorem Mirrored.mono (h : Mirrored W m m' E Q)
    (hQ : ∀ W₁, W.Before W₁ → ∀ a b, Q W₁ a b → Q' W₁ a b) : Mirrored W m m' E Q' :=
  Pairs.mono h fun a _ b _ ⟨W₁, hW, hl, hr, h⟩ => ⟨W₁, hW, hl, hr, hQ W₁ hW a b h⟩

/-- More errors are allowed to differ. -/
theorem Mirrored.weaken {E' : GenerationError → GenerationError → Prop} (h : Mirrored W m m' E Q)
    (hE : ∀ e e', E e e' → E' e e') : Mirrored W m m' E' Q := by
  cases h with
  | ok hm hm' h => exact .ok hm hm' h
  | error hm hm' h => exact .error hm hm' (hE _ _ h)

/-- What holds of each of the runs can be used. -/
theorem Mirrored.gives (h : Mirrored W m m' E Q) : Mirrored W m m' E fun W₁ a b =>
    Q W₁ a b ∧ m.Gives W.left a W₁.left ∧ m'.Gives W.right b W₁.right := by
  cases h with
  | error hm hm' h => exact .error hm hm' h
  | ok hm hm' h =>
    obtain ⟨W₁, hW, rfl, rfl, h⟩ := h
    exact .ok hm hm' ⟨W₁, hW, rfl, rfl, h, hm, hm'⟩

theorem Mirrored.bind (h : Mirrored W m m' E Q)
    (hk : ∀ W₁, W.Before W₁ → ∀ a b, Q W₁ a b → Mirrored W₁ (k a) (k' b) E P) :
    Mirrored W (m >>= k) (m' >>= k') E P := by
  refine Pairs.bind h ?_
  rintro a _ b _ ⟨W₁, hW, rfl, rfl, h⟩
  exact Pairs.mono (hk W₁ hW a b h) fun _ _ _ _ ⟨W₂, hW₂, hl, hr, h⟩ =>
    ⟨W₂, hW.trans hW₂, hl, hr, h⟩

theorem mirrored_pure {a : α} {b : β} (h : Q W a b) :
    Mirrored W (pure a) (pure b) E Q := pairs_pure ⟨W, .refl W, rfl, rfl, h⟩

theorem mirrored_throw {e e' : GenerationError} (h : E e e') :
    Mirrored W (throw e : Build α) (throw e' : Build β) E Q := pairs_throw h

/-- Steps that choose go on alike if they choose alike. -/
theorem mirrored_ite {b b' : Bool} {x y : Build α} {x' y' : Build β} (hb : b' = b)
    (hx : b = true → Mirrored W x x' E Q) (hy : b = false → Mirrored W y y' E Q) :
    Mirrored W (if b then x else y) (if b' then x' else y') E Q := by
  subst hb
  cases b' with
  | true => exact hx rfl
  | false => exact hy rfl

theorem mirrored_warnAll (ws ws' : List Warning) :
    Mirrored W (warnAll ws) (warnAll ws') E fun _ _ _ => True :=
  pairs_warnAll ⟨⟨{ W.left with warnings := W.left.warnings ++ ws },
    { W.right with warnings := W.right.warnings ++ ws' }, W.name, W.mirrors⟩,
    .refl W, rfl, rfl, trivial⟩

theorem mirrored_registry {P : World docs → γ → δ → Prop} {k : Registry → Build γ}
    {k' : Registry → Build δ}
    (h : Mirrored W (k W.left.registry) (k' W.right.registry) E P) :
    Mirrored W (registry >>= k) (registry >>= k') E P := by
  refine Mirrored.bind (Q := fun W₁ r r' => W₁ = W ∧ r = W.left.registry ∧ r' = W.right.registry)
    (pairs_registry ⟨W, .refl W, rfl, rfl, rfl, rfl, rfl⟩) ?_
  rintro _ - _ _ ⟨rfl, rfl, rfl⟩
  exact h

theorem mirrored_resolver {setting : Setting} {f f' : Frame} {k : Resolver → Build γ}
    {k' : Resolver → Build δ}
    (h : Mirrored W (k (resolverAt setting f W.left)) (k' (resolverAt setting f' W.right)) E P) :
    Mirrored W (resolver setting f >>= k) (resolver setting f' >>= k') E P := by
  refine Mirrored.bind (Q := fun W₁ r r' => W₁ = W ∧ r = resolverAt setting f W.left ∧
    r' = resolverAt setting f' W.right) (pairs_resolver ⟨W, .refl W, rfl, rfl, rfl, rfl, rfl⟩) ?_
  rintro _ - _ _ ⟨rfl, rfl, rfl⟩
  exact h

/-! ### Steps that leave the world as it is -/

theorem mirrored_ofType {x : Except TypeError α} {y : Except TypeError β}
    {F : TypeError → TypeError → Prop} {R : α → β → Prop} (h : Coincide F R x y)
    (herror : ∀ e e', F e e' → E (.type e) (.type e')) :
    Mirrored W (ofType x) (ofType y) E fun W₁ a b => W₁ = W ∧ R a b := by
  cases h with
  | ok h => exact mirrored_pure ⟨rfl, h⟩
  | error h => exact mirrored_throw (herror _ _ h)

variable (hE : ∀ e, E (.type (.reference e)) (.type (.reference e)))

include hE

/-- A schema that a reference leads to has a counterpart in the other world. -/
theorem mirrored_target {reference : String} {k : Schema → Build γ} {k' : Schema → Build δ}
    (hreach : W.left.registry.Reaches reference)
    (hk : ∀ c c', c.Matches W c' → Mirrored W (k c) (k' c') E P) :
    Mirrored W (ofReference (W.left.registry.resolve reference) >>= k)
      (ofReference (W.right.registry.resolve (Reference.rename W.name reference)) >>= k') E P := by
  rw [W.mirrors.resolve hreach]
  cases hc : W.left.registry.resolve reference with
  | error e => exact Mirrored.bind (Q := fun _ _ _ => False) (mirrored_throw (hE e)) nofun
  | ok c => exact hk c _ ⟨rfl, W.mirrors.known_of_resolve hc⟩

/-- Counterparts have the same shape. -/
theorem mirrored_shape {c c' : Schema} {k : Shape → Build γ} {k' : Shape → Build δ}
    (h : c.Matches W c') (hk : ∀ shape, Mirrored W (k shape) (k' shape) E P) :
    Mirrored W (do let shape ← ofReference (Shape.ofSchema (← registry) c); k shape)
      (do let shape ← ofReference (Shape.ofSchema (← registry) c'); k' shape) E P := by
  refine mirrored_registry ?_
  rw [h.eq, Shape.ofSchema_mirrors W.mirrors h.known]
  cases Shape.ofSchema W.left.registry c with
  | error e =>
    refine Mirrored.bind (Q := fun _ _ _ => False) (mirrored_throw (hE e)) ?_
    intro _ _ _ _ hfalse
    exact hfalse.elim
  | ok shape => exact hk shape

end Build

end KclModels
