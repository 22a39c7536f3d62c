import KclModels.Proofs.Assoc.Sorted
import KclModels.Proofs.Build.Cases
import KclModels.Proofs.Model.Positions
import KclModels.Proofs.Naming.Pascal
import KclModels.Proofs.Registry.Growth
import KclModels.Proofs.Resolve.References
import KclModels.Proofs.Schema.Examined

/-!
# Linked frames

What a model refers to has to be declared in the file of the model or in a file it depends on. The
frames carry this upwards: a frame names every definition that a model below it refers to among its
dependencies, and every definition that was made below it among the models taken out.

`Linked` is the invariant of a frame. It speaks of names that are known: those that were definitions
before the frame was built. A frame below a frame may know more, the definitions that were made
beside it; once their models are taken over by the frame above, they are among its own.

References also have the type of what they refer to, unless elements make an array of it, a branch
takes its place, or values beside it write it anew. That is part of the invariant for the references
to those names of which `bare` says that nothing of this kind stands beside them.
-/

namespace KclModels

/-! ## Schemas with known references -/

/-- Nothing is asked of what stands beside references. -/
def unasked : String → Option Bool := fun _ => none

theorem not_mem_unasked {n : String} {valued : Bool} : valued ∉ unasked n := Option.not_mem_none _

namespace Schema

/--
A reference has no elements beside it, and no branch that would take its place. Values beyond its
properties stand beside it only if it is `valued`.
-/
structure Bare (valued : Bool) (c : Schema) : Prop where
  items : c.singleItem? = none
  branches : c.Steady
  values : valued = false → c.hasAdditionalProperties = false

/-- All references in a schema are to known names, and those to names in `bare` are bare. -/
def Known (known : String → Prop) (bare : String → Option Bool) (c : Schema) : Prop :=
  c.Everywhere fun t => (∀ n, t.referenceName = some n → known n) ∧
    ∀ n, t.referenceName = some n → ∀ valued ∈ bare n, t.Bare valued

variable {known known' : String → Prop} {bare : String → Option Bool} {c c' : Schema}

theorem Known.mono (h : c.Known known bare) (hk : ∀ n, known n → known' n) :
    c.Known known' bare :=
  Everywhere.mono h fun _ ht => ⟨fun n hn => hk n (ht.1 n hn), ht.2⟩

theorem known_unasked :
    c.Known known unasked ↔ c.Everywhere fun t => ∀ n, t.referenceName = some n → known n :=
  ⟨fun h => Everywhere.mono h fun _ ht => ht.1,
    fun h => Everywhere.mono h fun _ ht => ⟨ht, fun _ _ _ hv => absurd hv not_mem_unasked⟩⟩

theorem Known.child (h : c.Known known bare) (hc : c' ∈ c.children) : c'.Known known bare :=
  Everywhere.child h hc

theorem known_referenceTo {n : String} (hn : known n) : (referenceTo n).Known known bare := by
  refine everywhere_of_children
    ⟨fun m hm => ?_, fun _ _ _ _ => ⟨rfl, steady_of_allOf rfl, fun _ => rfl⟩⟩ ?_
  · rw [Reference.eq_of_name?_toDefinition hm]
    exact hn
  · intro c hc
    rw [children_referenceTo] at hc
    exact absurd hc (List.not_mem_nil)

theorem known_of_plain (href : c.reference = none) (hc : ∀ d ∈ c.children, d.Known known bare) :
    c.Known known bare := by
  have hnone : ∀ n, c.referenceName ≠ some n := fun n => by simp [referenceName_eq_none href]
  exact everywhere_of_children ⟨fun n hn => absurd hn (hnone n), fun n hn => absurd hn (hnone n)⟩ hc

/-- A schema with other schemas in it that are known as well. -/
theorem Known.rewrite (h : c.Known known bare) (href : c'.reference = c.reference)
    (hbare : ∀ valued, c.reference.isSome = true → c.Bare valued → c'.Bare valued)
    (hc : ∀ d ∈ c'.children, d ∈ c.children ∨ d.Known known bare) : c'.Known known bare := by
  have hname : c'.referenceName = c.referenceName := by rw [referenceName, referenceName, href]
  refine everywhere_of_children ⟨fun n hn => ?_, fun n hn valued hv => ?_⟩ fun d hd => ?_
  · exact h.here.1 n (hname.symm.trans hn)
  · have hn := hname.symm.trans hn
    obtain ⟨reference, hsome, -⟩ := Option.bind_eq_some_iff.mp hn
    exact hbare valued (by rw [hsome]; rfl) (h.here.2 n hn valued hv)
  · exact (hc d hd).elim h.child id

end Schema

/-! ## Linked models -/

namespace Model

/-- The model has the type of the definition `n`, and nothing below it that it would be written of. -/
structure Named (valued : Bool) (r : Registry) (n : String) (m : Model) : Prop where
  type : r.Declares n m.type
  items : m.items = none
  value : valued = false → m.additionalProperties = none

/-- What a model refers to is among `names`; if that is in `bare`, the model has its type. -/
def Linked (names : List String) (bare : String → Option Bool) (r : Registry) (m : Model) : Prop :=
  ∀ n, m.reference = some n → n ∈ names ∧ ∀ valued ∈ bare n, m.Named valued r n

variable {names names' : List String} {bare : String → Option Bool} {r r' : Registry} {m m' : Model}
variable {valued : Bool}

theorem Named.mono {n : String} (h : m.Named valued r n) (hr : r.Grows r') : m.Named valued r' n :=
  ⟨h.type.mono hr, h.items, h.value⟩

theorem Linked.mono (h : m.Linked names bare r) (hn : ∀ n ∈ names, n ∈ names')
    (hr : r.Grows r') : m.Linked names' bare r' := by
  intro n href
  obtain ⟨hmem, htype⟩ := h n href
  exact ⟨hn n hmem, fun valued hv => (htype valued hv).mono hr⟩

/-- What is known of a model that was taken out under the name `n`. -/
structure TakenOut (known : String → Prop) (names : List String) (bare : String → Option Bool)
    (r : Registry) (n : String) (m : Model) : Prop where
  /-- It was made of a schema that is stored, and that refers to known names. -/
  stored : ∃ c, r.get? n = some c ∧ c.Known known bare
  hoisted : n ∈ r.hoisted
  name : m.name = n
  declaredName : m.declaredName = n
  plain : Naming.schemaName n = n
  reference : ∀ x, m.reference = some x → x ∈ names
  parts : ∀ p ∈ m.parts, p.Everywhere (Linked names bare r)

theorem TakenOut.mono {known known' : String → Prop} {n : String}
    (h : m.TakenOut known names bare r n) (hk : ∀ n, known n → known' n)
    (hn : ∀ n ∈ names, n ∈ names') (hr : r.Grows r') : m.TakenOut known' names' bare r' n where
  stored := by
    obtain ⟨c, hc, hknown⟩ := h.stored
    exact ⟨c, hr.keeps n c hc, hknown.mono hk⟩
  hoisted := hr.hoisted n h.hoisted
  name := h.name
  declaredName := h.declaredName
  plain := h.plain
  reference x hx := hn x (h.reference x hx)
  parts p hp := (h.parts p hp).mono fun _ hq => hq.mono hn hr

/-- The models have the same parts, reference and type. -/
structure Like (m m' : Model) : Prop where
  parts : m'.parts = m.parts
  reference : m'.reference = m.reference
  type : m'.type = m.type
  items : m'.items = m.items
  value : m'.additionalProperties = m.additionalProperties

theorem Like.named {n : String} (h : Like m m') (hm : m.Named valued r n) : m'.Named valued r n :=
  ⟨h.type ▸ hm.type, h.items.trans hm.items, fun hv => h.value.trans (hm.value hv)⟩

theorem Like.everywhere (h : Like m m') (hm : m.Everywhere (Linked names bare r)) :
    m'.Everywhere (Linked names bare r) := by
  refine everywhere_of_parts ?_ fun p hp => hm.part (h.parts ▸ hp)
  intro n hn
  rw [h.reference] at hn
  exact (hm.here n hn).imp_right fun ht valued hv => h.named (ht valued hv)

end Model

/-! ## Linked frames -/

namespace Frame

variable {known known' : String → Prop} {bare : String → Option Bool} {r r' r'' : Registry}
variable {f f' f'' g : Frame}

/-- The names that a frame may refer to: those that are known, and those it has taken out. -/
def Knows (known : String → Prop) (f : Frame) (n : String) : Prop :=
  known n ∨ n ∈ Assoc.keys f.extras

/-- A place without a name with a reference has nothing below it that its type would be written of. -/
def Plain (bare : String → Option Bool) (f : Frame) : Prop :=
  ∀ n, f.schema.referenceName = some n → ∀ valued ∈ bare n, f.named = false →
    f.model.items = none ∧ (valued = false → f.model.additionalProperties = none)

/-- The invariant of frames: references reach the dependencies, made definitions the extras. -/
structure Linked (known : String → Prop) (bare : String → Option Bool) (r : Registry) (f : Frame) :
    Prop where
  schema : f.schema.Known (f.Knows known) bare
  dependencies : ∀ n ∈ f.dependencies, f.Knows known n
  /-- The reference of the model is noted, and for a place without a name still that of the schema. -/
  reference : ∀ n, f.model.reference = some n → n ∈ f.dependencies ∧
    ∀ valued ∈ bare n, f.named = false → f.schema.referenceName = some n
  plain : f.Plain bare
  parts : ∀ p ∈ f.model.parts, p.Everywhere (Model.Linked f.dependencies bare r)
  extras : ∀ n m, (n, m) ∈ f.extras → m.TakenOut (f.Knows known) f.dependencies bare r n
  sorted : Assoc.Sorted f.extras

/-- The model has the name of its place. -/
def Titled (f : Frame) : Prop :=
  f.model.name = f.name ∧ f.model.declaredName = Naming.schemaName f.name

/-- A model without a name of its own that refers to a definition has the type of that. -/
def Settled (bare : String → Option Bool) (r : Registry) (f : Frame) : Prop :=
  f.named = false → ∀ n, f.model.reference = some n → ∀ valued ∈ bare n, f.model.Named valued r n

/-- The reference and the type of the model stay. -/
structure Keeps (f f' : Frame) : Prop where
  named : f'.named = f.named
  reference : f'.model.reference = f.model.reference
  type : f'.model.type = f.model.type
  items : f'.model.items = f.model.items
  value : f'.model.additionalProperties = f.model.additionalProperties

/-- The model stays but for its properties and additional items, and so does the schema. -/
structure Retains (f f' : Frame) : Prop extends Keeps f f' where
  isBase : f'.model.isBase = f.model.isBase
  allOf : f'.model.allOf = f.model.allOf
  schema : ∃ additionalItems, f'.schema = { f.schema with additionalItems }

theorem Retains.refl (f : Frame) : Retains f f where
  toKeeps := ⟨rfl, rfl, rfl, rfl, rfl⟩
  isBase := rfl
  allOf := rfl
  schema := f.schema.exists_additionalItems

theorem Retains.trans (h : Retains f f') (h' : Retains f' f'') : Retains f f'' where
  named := h'.named.trans h.named
  reference := h'.reference.trans h.reference
  type := h'.type.trans h.type
  items := h'.items.trans h.items
  value := h'.value.trans h.value
  isBase := h'.isBase.trans h.isBase
  allOf := h'.allOf.trans h.allOf
  schema := by
    obtain ⟨x, hx⟩ := h.schema
    obtain ⟨y, hy⟩ := h'.schema
    exact ⟨y, by rw [hy, hx]⟩

theorem Settled.kept (h : f.Settled bare r) (hr : r.Grows r') (hk : Keeps f f') :
    f'.Settled bare r' := by
  intro hn n hm valued hv
  obtain ⟨ht, hi, hvalue⟩ := h (hk.named ▸ hn) n (hk.reference ▸ hm) valued hv
  exact ⟨hk.type ▸ ht.mono hr, hk.items.trans hi, fun hno => hk.value.trans (hvalue hno)⟩

/-- Of the model nothing that makes up a type is built yet. -/
def Open (f : Frame) : Prop := f.model.items = none ∧ f.model.additionalProperties = none

/-- A frame with nothing built. -/
structure Fresh (f : Frame) : Prop where
  model : f.model = {}
  dependencies : f.dependencies = []
  extras : f.extras = []

theorem Fresh.open (h : f.Fresh) : f.Open := by
  rw [Open, h.model]
  exact ⟨rfl, rfl⟩

/-- The later frame is the same place and has all that the earlier one has. -/
structure Carries (f f' : Frame) : Prop where
  name : f'.name = f.name
  named : f'.named = f.named
  dependencies : ∀ n ∈ f.dependencies, n ∈ f'.dependencies
  extras : ∀ n ∈ Assoc.keys f.extras, n ∈ Assoc.keys f'.extras
  titled : f.Titled → f'.Titled

theorem Carries.refl (f : Frame) : Carries f f where
  name := rfl
  named := rfl
  dependencies _ h := h
  extras _ h := h
  titled h := h

theorem Carries.trans (h : Carries f f') (h' : Carries f' f'') : Carries f f'' where
  name := h'.name.trans h.name
  named := h'.named.trans h.named
  dependencies n hn := h'.dependencies n (h.dependencies n hn)
  extras n hn := h'.extras n (h.extras n hn)
  titled ht := h'.titled (h.titled ht)

theorem mapSchema_carries (f : Frame) (k : Schema → Schema) : Carries f (f.mapSchema k) where
  name := rfl
  named := rfl
  dependencies _ hn := hn
  extras _ hn := hn
  titled ht := ht

/-- A step of building keeps the frame linked, and takes out all definitions that it makes. -/
structure Advances (known : String → Prop) (bare : String → Option Bool) (f : Frame) (r : Registry)
    (f' : Frame) (r' : Registry) : Prop where
  linked : f'.Linked known bare r'
  grows : r.Grows r'
  carries : Carries f f'
  made : ∀ n c, r'.get? n = some c → r.get? n = some c ∨ n ∈ Assoc.keys f'.extras

theorem Linked.advances (h : f.Linked known bare r) : Advances known bare f r f r where
  linked := h
  grows := .refl r
  carries := .refl f
  made _ _ hc := Or.inl hc

theorem Advances.trans (h : Advances known bare f r f' r')
    (h' : Advances known bare f' r' f'' r'') : Advances known bare f r f'' r'' where
  linked := h'.linked
  grows := h.grows.trans h'.grows
  carries := h.carries.trans h'.carries
  made n c hc := by
    rcases h'.made n c hc with hc | hn
    · exact (h.made n c hc).imp_right (h'.carries.extras n)
    · exact Or.inr hn

/-- A built frame is linked, has its name, and has the type of what it refers to. -/
structure Built (known : String → Prop) (bare : String → Option Bool) (f : Frame) (r : Registry)
    (f' : Frame) (r' : Registry) : Prop extends Advances known bare f r f' r' where
  titled : f'.Titled
  settled : f'.Settled bare r'

theorem Built.everywhere (h : Built known bare f r f' r') (hnamed : f.named = false) :
    f'.model.Everywhere (Model.Linked f'.dependencies bare r') := by
  refine Model.everywhere_of_parts ?_ h.linked.parts
  intro n hn
  exact ⟨(h.linked.reference n hn).1, h.settled (h.carries.named.trans hnamed) n hn⟩

theorem Knows.mono {n : String} (h : f.Knows known n)
    (hk : ∀ n, known n → known' n) : f.Knows known' n :=
  h.imp_left (hk n)

theorem Knows.carried {n : String} (h : f.Knows known n) (hc : Carries f f') :
    f'.Knows known n := h.imp_right (hc.extras n)

/-- What is linked stays linked when more is known. -/
theorem Linked.mono (h : f.Linked known bare r) (hk : ∀ n, known n → known' n) :
    f.Linked known' bare r where
  schema := h.schema.mono fun _ hn => hn.mono hk
  dependencies n hn := (h.dependencies n hn).mono hk
  reference := h.reference
  plain := h.plain
  parts := h.parts
  extras n m hm := (h.extras n m hm).mono (fun _ hn => hn.mono hk) (fun _ hn => hn) (.refl r)
  sorted := h.sorted

/-! ### Changes that build nothing -/

/-- The later frame differs in facts of the model that links do not go by. -/
structure Same (f f' : Frame) : Prop where
  name : f'.name = f.name
  named : f'.named = f.named
  schema : f'.schema = f.schema
  dependencies : f'.dependencies = f.dependencies
  extras : f'.extras = f.extras
  reference : f'.model.reference = f.model.reference
  titled : f.Titled → f'.Titled
  items : f'.model.items = f.model.items
  value : f'.model.additionalProperties = f.model.additionalProperties
  parts : ∀ p ∈ f'.model.parts, p ∈ f.model.parts

theorem Same.carries (h : Same f f') : Carries f f' where
  name := h.name
  named := h.named
  dependencies _ hn := h.dependencies ▸ hn
  extras _ hn := h.extras ▸ hn
  titled := h.titled

theorem Same.linked (h : Same f f') (hf : f.Linked known bare r) : f'.Linked known bare r := by
  have hknows : f'.Knows known = f.Knows known := by
    funext n
    rw [Knows, Knows, h.extras]
  refine ⟨?_, ?_, ?_, ?_, ?_, ?_, ?_⟩
  · rw [h.schema, hknows]
    exact hf.schema
  · rw [h.dependencies, hknows]
    exact hf.dependencies
  · rw [h.reference, h.dependencies, h.named, h.schema]
    exact hf.reference
  · rw [Plain, h.named, h.schema, h.items, h.value]
    exact hf.plain
  · rw [h.dependencies]
    exact fun p hp => hf.parts p (h.parts p hp)
  · rw [h.extras, h.dependencies, hknows]
    exact hf.extras
  · rw [h.extras]
    exact hf.sorted

theorem Same.advances (h : Same f f') (hf : f.Linked known bare r) :
    Advances known bare f r f' r where
  linked := h.linked hf
  grows := .refl r
  carries := h.carries
  made _ _ hc := Or.inl hc

/-- A frame with nothing built is linked if what its schema refers to is known. -/
theorem Fresh.linked (hg : g.Fresh) (hc : g.schema.Known known bare) : g.Linked known bare r where
  schema := hc.mono fun _ => Or.inl
  dependencies n hn := by rw [hg.dependencies] at hn; exact absurd hn List.not_mem_nil
  reference n hn := by rw [hg.model] at hn; simp at hn
  plain _ _ _ _ _ := ⟨hg.open.1, fun _ => hg.open.2⟩
  parts p hp := by rw [hg.model] at hp; exact absurd hp List.not_mem_nil
  extras n m hm := by rw [hg.extras] at hm; exact absurd hm List.not_mem_nil
  sorted := by rw [hg.extras]; exact Assoc.sorted_nil

/-- A frame with another schema, of which nothing was built or which says the same of references. -/
theorem Linked.rewrite (h : f.Linked known bare r) (hnamed : f'.named = f.named)
    (hdep : f'.dependencies = f.dependencies) (hextras : f'.extras = f.extras)
    (hc : f'.schema.Known (f.Knows known) bare)
    (hm : f'.model = {} ∨ f'.model = f.model ∧ f'.schema.reference = f.schema.reference) :
    f'.Linked known bare r := by
  have hknows : f'.Knows known = f.Knows known := by
    funext n
    rw [Knows, Knows, hextras]
  refine ⟨hknows ▸ hc, by rw [hdep, hknows]; exact h.dependencies, ?_, ?_, ?_,
    by rw [hextras, hdep, hknows]; exact h.extras, by rw [hextras]; exact h.sorted⟩
  · -- an empty model refers to nothing
    rcases hm with hm | ⟨hm, hn⟩
    · intro n href
      rw [hm] at href
      simp at href
    · rw [hm, hdep, hnamed, Schema.referenceName, hn]
      exact h.reference
  · rcases hm with hm | ⟨hm, hn⟩
    · rw [Plain, hm]
      exact fun _ _ _ _ _ => ⟨rfl, fun _ => rfl⟩
    · rw [Plain, hm, hnamed, Schema.referenceName, hn]
      exact h.plain
  · rcases hm with hm | ⟨hm, -⟩
    · intro p hp
      rw [hm] at hp
      exact absurd hp List.not_mem_nil
    · rw [hm, hdep]
      exact h.parts

/-! ### Taking over a frame below -/

/-- The frame `f'` is `f` with what the frame `g` below it came to. -/
structure Takes (f g f' : Frame) : Prop where
  name : f'.name = f.name
  named : f'.named = f.named
  schema : f'.schema = f.schema
  dependencies : f'.dependencies = f.dependencies ++ g.dependencies
  extras : f'.extras = Assoc.mergeSorted f.extras g.extras
  reference : f'.model.reference = f.model.reference
  modelName : f'.model.name = f.model.name
  declaredName : f'.model.declaredName = f.model.declaredName
  parts : ∀ p ∈ f'.model.parts, p ∈ f.model.parts ∨ Model.Like g.model p

theorem Takes.carries (h : Takes f g f') : Carries f f' where
  name := h.name
  named := h.named
  dependencies _ hn := h.dependencies ▸ List.mem_append_left _ hn
  extras _ hn := h.extras ▸ Assoc.mem_keys_mergeSorted.mpr (Or.inl hn)
  titled ht := ⟨by rw [h.modelName, h.name, ht.1], by rw [h.declaredName, h.name, ht.2]⟩

theorem Takes.dependencies_below (h : Takes f g f') : ∀ n ∈ g.dependencies, n ∈ f'.dependencies :=
  fun _ hn => h.dependencies ▸ List.mem_append_right _ hn

theorem Takes.extras_below (h : Takes f g f') :
    ∀ n ∈ Assoc.keys g.extras, n ∈ Assoc.keys f'.extras :=
  fun _ hn => h.extras ▸ Assoc.mem_keys_mergeSorted.mpr (Or.inr hn)

/-- **A frame that takes over a linked one stays linked**: what that one knew is known here. -/
theorem Takes.linked {known₁ : String → Prop} (h : Takes f g f') (hf : f.Linked known₁ bare r)
    (hk₁ : ∀ n, known₁ n → f'.Knows known n) (hr : r.Grows r')
    (hg : g.Linked known' bare r') (hk : ∀ n, known' n → f'.Knows known n)
    (hm : g.model.Everywhere (Model.Linked g.dependencies bare r')) (hplain : f'.Plain bare) :
    f'.Linked known bare r' := by
  -- what either frame knew is known now: as a name from before or as one taken out
  have hown : ∀ n, f.Knows known₁ n → f'.Knows known n :=
    fun n hn => hn.elim (hk₁ n) fun hx => Or.inr (h.carries.extras n hx)
  have hbelow : ∀ n, g.Knows known' n → f'.Knows known n :=
    fun n hn => hn.elim (hk n) fun hx => Or.inr (h.extras_below n hx)
  refine ⟨?_, ?_, ?_, hplain, ?_, ?_, ?_⟩
  · rw [h.schema]
    exact hf.schema.mono hown
  · intro n hn
    rw [h.dependencies] at hn
    rcases List.mem_append.mp hn with hn | hn
    · exact hown n (hf.dependencies n hn)
    · exact hbelow n (hg.dependencies n hn)
  · intro n hn
    rw [h.reference] at hn
    obtain ⟨hdep, hbare⟩ := hf.reference n hn
    rw [h.schema, h.named]
    exact ⟨h.carries.dependencies n hdep, hbare⟩
  · intro p hp
    rcases h.parts p hp with hp | hp
    · exact (hf.parts p hp).mono fun _ hq => hq.mono h.carries.dependencies hr
    · exact (hp.everywhere hm).mono fun _ hq => hq.mono h.dependencies_below (.refl r')
  · intro n m hm
    rw [h.extras] at hm
    rcases Assoc.mem_mergeSorted hm with hm | hm
    · exact (hf.extras n m hm).mono hown h.carries.dependencies hr
    · exact (hg.extras n m hm).mono hbelow h.dependencies_below (.refl r')
  · rw [h.extras]
    exact hf.sorted.mergeSorted

/-- Taking over a built frame is a step: all that was made for it is taken out here too. -/
theorem Takes.advances (h : Takes f g f') (hf : f.Linked known bare r) {g₀ : Frame}
    (hg : Built (f.Knows known) bare g₀ r g r') (hnamed : g₀.named = false)
    (hplain : f'.Plain bare) : Advances known bare f r f' r' where
  linked := h.linked hf (fun _ => Or.inl) hg.grows hg.linked
    (fun n hn => hn.imp_right (h.carries.extras n)) (hg.everywhere hnamed) hplain
  grows := hg.grows
  carries := h.carries
  made n c hc := (hg.made n c hc).imp_right (h.extras_below n)

/-- What was built of a frame was built of any frame at the same place. -/
theorem Built.of_place (h : Built known bare g r f' r') (hname : g.name = f.name)
    (hnamed : g.named = f.named) (hdep : ∀ n ∈ f.dependencies, n ∈ g.dependencies)
    (hextras : ∀ n ∈ Assoc.keys f.extras, n ∈ Assoc.keys g.extras) :
    Built known bare f r f' r' where
  linked := h.linked
  grows := h.grows
  carries := {
    name := h.carries.name.trans hname
    named := h.carries.named.trans hnamed
    dependencies := fun n hn => h.carries.dependencies n (hdep n hn)
    extras := fun n hn => h.carries.extras n (hextras n hn)
    titled := fun _ => h.titled }
  made := h.made
  titled := h.titled
  settled := h.settled

theorem Built.same (h : Built known bare f r f' r') (hs : Same f' f'')
    (htype : f''.model.type = f'.model.type) : Built known bare f r f'' r' where
  toAdvances := h.toAdvances.trans (hs.advances h.linked)
  titled := hs.carries.titled h.titled
  settled := by
    exact h.settled.kept (.refl r') ⟨hs.named, hs.reference, htype, hs.items, hs.value⟩

/-! ### Definitions that are made -/

/-- A definition that was made for the schema `c`, and the frame `h` that was built of it. -/
structure Made (known : String → Prop) (bare : String → Option Bool) (r : Registry) (c : Schema)
    (h : Frame) (r' : Registry) : Prop where
  linked : h.Linked known bare r'
  grows : r.Grows r'
  titled : h.Titled
  schema : c.Known known bare
  stored : r'.get? h.name = some c
  hoisted : h.name ∈ r'.hoisted
  plain : Naming.schemaName h.name = h.name
  made : ∀ n d, r'.get? n = some d →
    r.get? n = some d ∨ n = h.name ∨ n ∈ Assoc.keys h.extras

/-- What is known once the model of the frame is to be taken out. -/
def knownWith (known : String → Prop) (h : Frame) (n : String) : Prop :=
  known n ∨ n = h.name ∨ n ∈ Assoc.keys h.extras

variable {c : Schema} {h : Frame}

theorem Made.same {h' : Frame} (H : Made known bare r c h r') (hs : Same h h') :
    Made known bare r c h' r' := by
  refine ⟨hs.linked H.linked, H.grows, hs.carries.titled H.titled, H.schema, ?_, ?_, ?_, ?_⟩
  · rw [hs.name]
    exact H.stored
  · rw [hs.name]
    exact H.hoisted
  · rw [hs.name]
    exact H.plain
  · rw [hs.name, hs.extras]
    exact H.made

/-- The frame that a definition was made in, once the name of the definition is known. -/
theorem Made.after (H : Made (f.Knows known) bare r c h r') (hf : f.Linked known bare r) :
    f.Linked (knownWith known h) bare r' := by
  have hown : ∀ n, f.Knows known n → f.Knows (knownWith known h) n :=
    fun n hn => hn.mono fun _ => Or.inl
  refine ⟨hf.schema.mono hown, fun n hn => hown n (hf.dependencies n hn), hf.reference,
    hf.plain, ?_, ?_, hf.sorted⟩
  · exact fun p hp => (hf.parts p hp).mono fun _ hq => hq.mono (fun _ hn => hn) H.grows
  · exact fun n m hm => (hf.extras n m hm).mono hown (fun _ hn => hn) H.grows

/-- **A frame that takes out the model of a definition stays linked**, and knows its name. -/
theorem Made.addExtra (H : Made known' bare r c h r') (hg : g.Linked (knownWith known h) bare r'')
    (hr : r'.Grows r'') (hk : ∀ n, known' n → g.Knows known n) :
    (g.addExtra h).Linked known bare r'' := by
  -- the model of the definition is taken out under its name, with all that it took out itself
  have hkeys : ∀ n, n ∈ Assoc.keys (g.addExtra h).extras ↔
      n = h.name ∨ n ∈ Assoc.keys g.extras ∨ n ∈ Assoc.keys h.extras := by
    intro n
    show n ∈ Assoc.keys (Assoc.putSorted (Assoc.mergeSorted g.extras h.extras) h.name h.model) ↔ _
    rw [Assoc.mem_keys_putSorted, Assoc.mem_keys_mergeSorted]
  have hown : ∀ n, g.Knows (knownWith known h) n → (g.addExtra h).Knows known n := by
    rintro n ((hn | hn | hn) | hn)
    · exact Or.inl hn
    · exact Or.inr ((hkeys n).mpr (Or.inl hn))
    · exact Or.inr ((hkeys n).mpr (Or.inr (Or.inr hn)))
    · exact Or.inr ((hkeys n).mpr (Or.inr (Or.inl hn)))
  have hmade : ∀ n, h.Knows known' n → (g.addExtra h).Knows known n := by
    rintro n (hn | hn)
    · exact (hk n hn).imp_right fun hx => (hkeys n).mpr (Or.inr (Or.inl hx))
    · exact Or.inr ((hkeys n).mpr (Or.inr (Or.inr hn)))
  have hleft : ∀ n ∈ g.dependencies, n ∈ (g.addExtra h).dependencies :=
    fun n hn => List.mem_append_left h.dependencies hn
  have hright : ∀ n ∈ h.dependencies, n ∈ (g.addExtra h).dependencies :=
    fun n hn => List.mem_append_right g.dependencies hn
  refine ⟨hg.schema.mono hown, ?_, ?_, hg.plain, ?_, ?_, hg.sorted.mergeSorted.putSorted⟩
  · intro n hn
    rcases List.mem_append.mp hn with hn | hn
    · exact hown n (hg.dependencies n hn)
    · exact hmade n (H.linked.dependencies n hn)
  · exact fun n hn => ⟨hleft n (hg.reference n hn).1, (hg.reference n hn).2⟩
  · exact fun p hp => (hg.parts p hp).mono fun _ hq => hq.mono hleft (.refl r'')
  · intro n m hm
    rcases Assoc.mem_putSorted hm with heq | hm
    · obtain ⟨rfl, rfl⟩ := Prod.mk.inj heq
      refine ⟨⟨c, hr.keeps _ _ H.stored, H.schema.mono fun n hn => hmade n (Or.inl hn)⟩,
        hr.hoisted _ H.hoisted, H.titled.1, H.titled.2.trans H.plain,
        H.plain, fun x hx => hright x (H.linked.reference x hx).1, ?_⟩
      exact fun p hp => (H.linked.parts p hp).mono fun _ hq => hq.mono hright hr
    · rcases Assoc.mem_mergeSorted hm with hm | hm
      · exact (hg.extras n m hm).mono hown hleft (.refl r'')
      · exact (H.linked.extras n m hm).mono hmade hright hr

theorem addExtra_carries (g h : Frame) : Carries g (g.addExtra h) where
  name := rfl
  named := rfl
  dependencies _ hn := List.mem_append_left _ hn
  extras _ hn := Assoc.mem_keys_putSorted.mpr (Or.inr (Assoc.mem_keys_mergeSorted.mpr (Or.inl hn)))
  titled ht := ht

theorem mem_keys_addExtra {n : String} (hn : n = h.name ∨ n ∈ Assoc.keys h.extras) :
    n ∈ Assoc.keys (g.addExtra h).extras := by
  refine Assoc.mem_keys_putSorted.mpr (hn.imp_right fun hx => ?_)
  exact Assoc.mem_keys_mergeSorted.mpr (Or.inr hx)

/-- What was made for a definition and then for a frame that takes it out is taken out there. -/
theorem Made.account (H : Made known' bare r c h r') (hn : h.name ∈ Assoc.keys f'.extras)
    (hx : ∀ n ∈ Assoc.keys h.extras, n ∈ Assoc.keys f'.extras)
    (hmade : ∀ n d, r''.get? n = some d → r'.get? n = some d ∨ n ∈ Assoc.keys f'.extras) :
    ∀ n d, r''.get? n = some d → r.get? n = some d ∨ n ∈ Assoc.keys f'.extras := by
  intro n d hd
  rcases hmade n d hd with hd | hd
  · rcases H.made n d hd with hd | rfl | hd
    · exact Or.inl hd
    · exact Or.inr hn
    · exact Or.inr (hx n hd)
  · exact Or.inr hd

/-- A frame that takes out a definition made in it has made a step. -/
theorem Made.taken (H : Made (f.Knows known) bare r c h r') (hf : f.Linked known bare r) :
    Advances known bare f r (f.addExtra h) r' where
  linked := H.addExtra (H.after hf) (.refl r') fun _ hn => hn
  grows := H.grows
  carries := addExtra_carries f h
  made := H.account (mem_keys_addExtra (Or.inl rfl)) (fun _ hn => mem_keys_addExtra (Or.inr hn))
    fun _ _ => Or.inl

/-- A frame that takes out a definition and has nothing but a reference to it. -/
theorem Made.refer (H : Made known bare r c h r') (hg : g.Fresh)
    (hc : g.schema = Schema.referenceTo h.name) : (g.addExtra h).Linked known bare r' := by
  refine H.addExtra (hg.linked ?_) (.refl r') fun _ => Or.inl
  rw [hc]
  exact Schema.known_referenceTo (Or.inr (Or.inl rfl))

/-- What was built of a frame that took out a definition, seen from before that was made. -/
theorem Made.built (H : Made known' bare r c h r') (hb : Built known bare g r' f' r'')
    (hn : h.name ∈ Assoc.keys g.extras) (hx : ∀ n ∈ Assoc.keys h.extras, n ∈ Assoc.keys g.extras) :
    Built known bare g r f' r'' where
  linked := hb.linked
  grows := H.grows.trans hb.grows
  carries := hb.carries
  made := H.account (hb.carries.extras _ hn) (fun n hn => hb.carries.extras n (hx n hn)) hb.made
  titled := hb.titled
  settled := hb.settled

/-- A frame that is built anew with a reference to a definition made for a part of it. -/
theorem Made.again (H : Made (f.Knows known) bare r c h r') {f₁ : Frame}
    (hb : Built (knownWith known h) bare f₁ r' g r'') (hname : f₁.name = f.name)
    (hnamed : f₁.named = f.named) (hdep : f₁.dependencies = f.dependencies)
    (hextras : f₁.extras = f.extras) :
    Advances known bare f r (g.addExtra h) r'' ∧ (g.addExtra h).Titled ∧
      (g.addExtra h).Settled bare r'' := by
  have hcarries : Carries f (g.addExtra h) := by
    have hg := hb.carries.trans (addExtra_carries g h)
    refine ⟨hg.name.trans hname, hg.named.trans hnamed, fun n hn => ?_, fun n hn => ?_,
      fun _ => hb.titled⟩
    · exact hg.dependencies n (hdep ▸ hn)
    · exact hg.extras n (hextras ▸ hn)
  have hsettled : (g.addExtra h).Settled bare r'' :=
    hb.settled.kept (.refl r'') ⟨rfl, rfl, rfl, rfl, rfl⟩
  refine ⟨⟨?_, H.grows.trans hb.grows, hcarries, ?_⟩, hb.titled, hsettled⟩
  · refine H.addExtra hb.linked hb.grows fun n hn => hn.imp_right fun hx => ?_
    exact hb.carries.extras n (hextras ▸ hx)
  · exact H.account (mem_keys_addExtra (Or.inl rfl)) (fun _ hn => mem_keys_addExtra (Or.inr hn))
      fun n d hd => (hb.made n d hd).imp_right ((addExtra_carries g h).extras n)

/-- A frame that takes over a frame below it together with a definition made for that. -/
theorem Made.takes (H : Made (f.Knows known) bare r c h r') {f₁ g₀ : Frame}
    (hf₁ : f₁.Linked (knownWith known h) bare r') (hc : Carries f f₁)
    (hb : Built (f₁.Knows (knownWith known h)) bare g₀ r' g r'')
    (hnamed : g₀.named = false) (ht : Takes f₁ (g.addExtra h) f') (hplain : f'.Plain bare)
    (hx : ∀ n ∈ Assoc.keys f₁.extras, n ∈ Assoc.keys f.extras) :
    Advances known bare f r f' r'' := by
  have hcarries := hc.trans ht.carries
  have hknown : ∀ n, knownWith known h n → f'.Knows known n :=
    fun n hn => hn.imp_right fun hx => ht.extras_below n (mem_keys_addExtra hx)
  refine ⟨?_, H.grows.trans hb.grows, hcarries, ?_⟩
  · refine ht.linked hf₁ hknown hb.grows (H.addExtra (hb.linked.mono ?_) hb.grows fun _ => Or.inl)
      (fun n hn => hn.imp_right (hcarries.extras n)) ?_ hplain
    · rintro n ((hn | hn) | hn)
      · exact Or.inl (Or.inl hn)
      · exact Or.inr hn
      · exact Or.inl (Or.inr (hx n hn))
    · -- to take out a definition leaves the model of the frame itself as it is
      have hlike : Model.Like g.model (g.addExtra h).model := ⟨rfl, rfl, rfl, rfl, rfl⟩
      refine (hlike.everywhere (hb.everywhere hnamed)).mono fun _ hq => hq.mono ?_ (.refl r'')
      exact (addExtra_carries g h).dependencies
  · refine H.account (ht.extras_below _ (mem_keys_addExtra (Or.inl rfl)))
      (fun n hn => ht.extras_below n (mem_keys_addExtra (Or.inr hn))) fun n d hd => ?_
    exact (hb.made n d hd).imp_right fun hn =>
      ht.extras_below n ((addExtra_carries g h).extras n hn)

end Frame

end KclModels
