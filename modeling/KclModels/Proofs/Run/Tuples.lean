import KclModels.Proofs.Build.Lifting
import KclModels.Proofs.Build.Tuples
import KclModels.Proofs.Model.Ordered
import KclModels.Proofs.Run.Translation
import KclModels.Text.AsciiTable

/-!
# Tuples with and without a name

A tuple is declared in the same way whether it is a definition of the document or stands where it
has no name: its places become the attributes `p0`, `p1` and so on, all of which have to be present,
and what is allowed past them becomes one attribute more. The two are built by different steps, in
different frames and at different times, so that names that were made differ between them.

The record of a tuple without a name is an object like any other, and two things are done to it that
are not done to a tuple with a name. Its properties are put in order, by name unless the order of the
document is kept, and by name the tenth place stands before the second. And properties take over the
constraints of the definitions that they refer to, which places do not.
-/

namespace KclModels

variable {defs : Definitions} {o : Options} {r r' : Registry} {c : Schema} {m m' p q : Model}
variable {own : List Model} {places : List Schema} {keepOrder : Bool}

section

variable {tr : Text.Transliteration}

namespace Model

/-- The models have the same type, up to the names of the definitions that were made for it. -/
inductive SimilarType [Text.Transliteration] (o : Options) (r r' : Registry) : Model → Model → Prop
  /-- Both are written alike, and not out of any parts. -/
  | written {m m' : Model} : m'.type.kclType = m.type.kclType → m'.type.package = m.type.package →
      m.items = none → m'.items = none → m.additionalProperties = none →
      m'.additionalProperties = none → SimilarType o r r' m m'
  /-- Both stand for definitions that were made of the same schema, up to what is past its places. -/
  | made {m m' : Model} {n n' : String} {c c' : Schema} : r.get? n = some c → n ∈ r.hoisted →
      m.StandsFor o r n → r'.get? n' = some c' → n' ∈ r'.hoisted → m'.StandsFor o r' n' →
      c' = { c with additionalItems := c'.additionalItems } → SimilarType o r r' m m'
  | array {m m' p p' : Model} : m.Lists p → m'.Lists p' → SimilarType o r r' p p' →
      SimilarType o r r' m m'
  | map {m m' p p' : Model} : m.Maps p → m'.Maps p' → SimilarType o r r' p p' →
      SimilarType o r r' m m'

/-- Definitions of the document are declared alike. -/
def DeclaredAlike [Text.Transliteration] (defs : Definitions) (o : Options) (r r' : Registry) :
    Prop :=
  ∀ n d, defs.lookup n = some d → r.get? n = some d ∧ r'.get? n = some d ∧
    r'.declared o n d = r.declared o n d

/-- **Models that follow the same schema have the same type**, up to names that were made. -/
theorem Translates.similarType (h : m.Translates o r c) (h' : m'.Translates o r' c)
    (hdeclared : DeclaredAlike defs o r r')
    (hknown : c.Known (fun n => (defs.lookup n).isSome = true) unasked) :
    m.SimilarType o r r' m' := by
  induction h generalizing m' with
  | @plain c text m hc hm =>
    have hm' := h'.by_form
    rw [hc.form, hc.plainText] at hm'
    exact .written (hm'.kclType.trans hm.kclType.symm) (hm'.package.trans hm.package.symm) hm.items
      hm'.items hm.value hm'.value
  | @array c item p m hc hm hp ih =>
    obtain ⟨p', hm', hp'⟩ : ∃ p', m'.Lists p' ∧ p'.Translates o r' item := by
      -- the form of the schema says of what kind the other model is
      have hform := h'.by_form
      rwa [hc.form] at hform
    exact .array hm hm' (ih hp' (hknown.child (Schema.item_mem_children hc.items)))
  | @map c value p m hc hm hp ih =>
    obtain ⟨p', hm', hp'⟩ : ∃ p', m'.Maps p' ∧ p'.Translates o r' value := by
      have hform := h'.by_form
      rwa [hc.form] at hform
    exact .map hm hm' (ih hp' (hknown.child (Schema.value_mem_children hc.values)))
  | @reference c n m hc hn hm =>
    obtain ⟨n', hn', hm'⟩ : ∃ n', c.referenceName = some n' ∧ m'.StandsFor o r' n' := by
      have hform := h'.by_form
      rwa [hc.form] at hform
    obtain rfl := Option.some.inj (hn.symm.trans hn')
    obtain ⟨d, hd⟩ := Option.isSome_iff_exists.mp (hknown.here.1 n hn)
    obtain ⟨hget, hget', hsame⟩ := hdeclared n d hd
    obtain ⟨e, he, htype, hpackage⟩ := hm.declared
    obtain ⟨e', he', htype', hpackage'⟩ := hm'.declared
    obtain rfl := Option.some.inj (hget.symm.trans he)
    obtain rfl := Option.some.inj (hget'.symm.trans he')
    rw [hsame] at htype' hpackage'
    exact .written (htype'.trans htype.symm) (hpackage'.trans hpackage.symm) hm.items hm'.items
      hm.value hm'.value
  | @tuple c places extra n m hc hget hmade hm =>
    obtain ⟨n', extra', hget', hmade', hm'⟩ : ∃ n' extra',
        r'.get? n' = some (Frame.tupleRecord places extra') ∧ n' ∈ r'.hoisted ∧
          m'.StandsFor o r' n' := by
      have hform := h'.by_form
      rwa [hc.form] at hform
    exact .made hget hmade hm hget' hmade' hm' rfl
  | @record c n m hc hget hmade hm =>
    obtain ⟨n', hget', hmade', hm'⟩ : ∃ n', r'.get? n' = some c ∧ n' ∈ r'.hoisted ∧
        m'.StandsFor o r' n' := by
      have hform := h'.by_form
      rwa [hc.form] at hform
    exact .made hget hmade hm hget' hmade' hm' (by cases c; rfl)

/-- The models are those of the same place of a tuple. -/
structure SameSlot [Text.Transliteration] (defs : Definitions) (o : Options) (r r' : Registry)
    (e : String × Schema) (p q : Model) : Prop where
  names : p.name = e.1 ∧ q.name = e.1
  required : p.required = true ∧ q.required = true
  type : e.2.Structural → p.SimilarType o r r' q
  checks : e.2.Structural → defs.LendsNothing e.2 →
    q.limits = p.limits ∧ Kcl.attributeChecks q = Kcl.attributeChecks p

/-- The models allow the same past their places, as one attribute more. -/
structure SameRest [Text.Transliteration] (o : Options) (r r' : Registry) (c : Schema)
    (m m' : Model) : Prop where
  declared : (Kcl.restAttribute? m).isSome = c.hasAdditionalItems ∧
    (Kcl.restAttribute? m').isSome = c.hasAdditionalItems
  same : c.extraItem.Structural → ∀ a a', Kcl.restAttribute? m = some a →
    Kcl.restAttribute? m' = some a' → a'.name = a.name ∧ a'.required = a.required ∧
      a.SimilarType o r r' a' ∧ Kcl.attributeChecks a' = Kcl.attributeChecks a

/--
The record `m` declares the same tuple as `m'`, the model of the definition. Its properties `own` are
put in an order of their own, which is that of the places if none of these asks for another.
-/
structure SameTuple [Text.Transliteration] (defs : Definitions) (o : Options) (r r' : Registry)
    (places : List Schema) (c : Schema) (own : List Model) (m m' : Model) : Prop where
  ordered : m.properties = sortProperties own o.keepOrder
  sorted : (∀ c ∈ places, c.Structural ∧ c.hints.order = none) →
    (o.keepOrder = true ∨ places.length ≤ 10) → m.properties = own
  lengths : own.length = places.length ∧ m'.properties.length = places.length
  slots : ∀ i place, places[i]? = some place → ∃ p q, own[i]? = some p ∧
    m'.properties[i]? = some q ∧ SameSlot defs o r r' (Frame.placeName i, place) p q
  rest : SameRest o r r' c m m'

end Model

namespace Kcl

theorem valueChecks_values (subject : String) (k : Constraints) :
    valueChecks subject k.values = valueChecks subject k := rfl

theorem partCheck_congr {part part' : Option Model} (subject binder name : String)
    (h : part'.map (·.constraints.values) = part.map (·.constraints.values)) :
    partCheck subject binder name part' = partCheck subject binder name part := by
  cases part with
  | none => rw [Option.map_eq_none_iff.mp h]
  | some m =>
    obtain ⟨m', rfl, hvalues⟩ := Option.map_eq_some_iff.mp h
    rw [partCheck, partCheck, ← valueChecks_values, ← valueChecks_values subject m.constraints, hvalues]

/-- The conditions on an attribute go by what its values are limited to. -/
theorem attributeChecks_congr (hname : m'.name = m.name) (hrequired : m'.required = m.required)
    (hlimits : m'.limits = m.limits) : attributeChecks m' = attributeChecks m := by
  have hown : m'.constraints.values = m.constraints.values := congrArg Limits.own hlimits
  unfold attributeChecks
  dsimp only
  rw [isNameable, isNameable, hname, hrequired, partCheck_congr _ _ _ (congrArg Limits.items hlimits),
    partCheck_congr _ _ _ (congrArg Limits.values hlimits), ← valueChecks_values, hown,
    valueChecks_values]

end Kcl

namespace Model

/-- Places are named by their numbers. -/
theorem HasSlots.slot (h : m.HasSlots defs o r places c own) {i : Nat} {place : Schema}
    (hplace : places[i]? = some place) :
    ∃ p, own[i]? = some p ∧ p.IsSlot defs o r (Frame.placeName i, place) := by
  have hslot : (Schema.slots 0 places)[i]? = some (Frame.placeName i, place) := by
    rw [Schema.slots, List.getElem?_map, List.getElem?_zipIdx, hplace]
    simp
  exact forall₂_getElem? h.slots hslot

theorem HasSlots.length (h : m.HasSlots defs o r places c own) : own.length = places.length := by
  rw [← h.slots.length_eq, Schema.slots, List.length_map, List.length_zipIdx]

/--
**The slots of a tuple are in order**, if none of its places asks for another place and they stand as
in the document, or there are not too many of them for the order of their names.
-/
theorem HasSlots.sorted (h : m.HasSlots defs o r places c own)
    (hplaces : ∀ c ∈ places, c.Structural ∧ c.hints.order = none)
    (hfew : keepOrder = true ∨ places.length ≤ 10) : sortProperties own keepOrder = own := by
  refine sortProperties_of_pairwise (List.pairwise_iff_getElem.mpr fun i j hi hj hlt => ?_)
  -- without an order of their own, places go by position or by name
  have hslot : ∀ (k : Nat) (hk : k < own.length), own[k].order = none ∧
      own[k].name = Frame.placeName k ∧ own[k].position = k := by
    intro k hk
    have hplace : k < places.length := h.length ▸ hk
    obtain ⟨p, hp, hslot⟩ := h.slot (List.getElem?_eq_getElem hplace)
    rw [List.getElem?_eq_getElem hk, Option.some.injEq] at hp
    rw [← hp] at hslot
    obtain ⟨hc, horder⟩ := hplaces _ (List.getElem_mem hplace)
    refine ⟨hslot.order hc horder, hslot.name, ?_⟩
    have hposition := congrArg (·[k]?) h.positions
    simpa [hk] using hposition
  obtain ⟨hnone, hname, hposition⟩ := hslot i hi
  obtain ⟨hnone', hname', hposition'⟩ := hslot j hj
  rw [propertyLE, hnone, hnone']
  show fallbackLE keepOrder own[i] own[j] = true
  rw [fallbackLE, hname, hname', hposition, hposition']
  -- up to ten names `p0` to `p9` the order of texts is that of numbers
  have hnames : ∀ j < 10, ∀ i < j, Frame.placeName i ≤ Frame.placeName j := by decide +kernel
  split
  · exact decide_eq_true hlt.le
  · rename_i hkeep
    have hshort : places.length ≤ 10 := hfew.resolve_left hkeep
    exact decide_eq_true (hnames j (by rw [h.length] at hj; omega) i hlt)

/-- The slots of two tuples with the same places agree. -/
theorem HasSlots.sameSlot {own' : List Model} (h : m.HasSlots defs o r places c own)
    (h' : m'.HasSlots defs o r' places c own') (hdeclared : DeclaredAlike defs o r r')
    (hknown : ∀ place ∈ places, place.Known (fun n => (defs.lookup n).isSome = true) unasked) {i : Nat}
    {place : Schema} (hplace : places[i]? = some place) :
    ∃ p q, own[i]? = some p ∧ own'[i]? = some q ∧
      SameSlot defs o r r' (Frame.placeName i, place) p q := by
  obtain ⟨p, hp, hslot⟩ := h.slot hplace
  obtain ⟨q, hq, hslot'⟩ := h'.slot hplace
  refine ⟨p, q, hp, hq, ⟨hslot.name, hslot'.name⟩, ⟨hslot.required, hslot'.required⟩, fun hc => ?_,
    fun hc hlends => ?_⟩
  · exact (hslot.type hc).similarType (hslot'.type hc) hdeclared
      (hknown place (List.mem_of_getElem? hplace))
  · have hlimits := (hslot'.limits hc hlends).trans (hslot.limits hc hlends).symm
    exact ⟨hlimits, Kcl.attributeChecks_congr (hslot'.name.trans hslot.name.symm)
      (hslot'.required.trans hslot.required.symm) hlimits⟩

/-- What is allowed past the places of a tuple is one attribute more. -/
theorem HasSlots.restAttribute_isSome (h : m.HasSlots defs o r places c own) :
    (Kcl.restAttribute? m).isSome = c.hasAdditionalItems := by
  rw [Kcl.restAttribute?, h.tuple, h.rests.allowed, Bool.true_and]
  split
  · rename_i hyes
    exact hyes.symm
  · rename_i hno
    exact (Bool.eq_false_iff.mpr hno).symm

theorem HasSlots.restAttribute (h : m.HasSlots defs o r places c own) {a : Model}
    (ha : Kcl.restAttribute? m = some a) : ∃ p, a.name = "rest" ∧ a.required = false ∧ a.Lists p ∧
      a.limits = { items := some p.limits.own } ∧
      (c.extraItem.Structural → p.Conveys o r c.extraItem) := by
  rw [Kcl.restAttribute?, h.tuple, Bool.true_and] at ha
  split at ha
  · rename_i hyes
    obtain ⟨p, hp, hconveys⟩ := h.rests.items (h.rests.allowed.symm.trans hyes)
    rw [hp] at ha
    obtain rfl := Option.some.inj ha
    exact ⟨p, rfl, rfl, ⟨rfl, rfl, rfl, rfl⟩, rfl, hconveys⟩
  · exact absurd ha (by simp)

/-- What is past the places of two tuples with the same schema agrees. -/
theorem HasSlots.sameRest {own' : List Model} (h : m.HasSlots defs o r places c own)
    (h' : m'.HasSlots defs o r' places c own') (hdeclared : DeclaredAlike defs o r r')
    (hknown : c.extraItem.Known (fun n => (defs.lookup n).isSome = true) unasked) :
    SameRest o r r' c m m' where
  declared := ⟨h.restAttribute_isSome, h'.restAttribute_isSome⟩
  same hc a a' ha ha' := by
    obtain ⟨p, hname, hrequired, hlists, hlimits, hconveys⟩ := h.restAttribute ha
    obtain ⟨p', hname', hrequired', hlists', hlimits', hconveys'⟩ := h'.restAttribute ha'
    have hnames := hname'.trans hname.symm
    have hsame := hrequired'.trans hrequired.symm
    have hbounds : p'.limits = p.limits := (hconveys' hc).limits.trans (hconveys hc).limits.symm
    have htypes := (hconveys hc).type.similarType (hconveys' hc).type hdeclared hknown
    refine ⟨hnames, hsame, .array hlists hlists' htypes, Kcl.attributeChecks_congr hnames hsame ?_⟩
    rw [hlimits', hlimits, hbounds]

end Model

end

/-- Past the places of a tuple nothing is referred to that the schema of the tuple does not. -/
theorem Schema.Known.extraItem {known : String → Prop} (h : c.Known known unasked) :
    c.extraItem.Known known unasked := by
  rw [Schema.extraItem]
  cases hextra : c.additionalItems.bind (·.schema?) with
  | some item =>
    obtain ⟨extra, hsome, hitem⟩ := Option.bind_eq_some_iff.mp hextra
    cases extra with
    | flag => exact absurd hitem (by simp [Extra.schema?])
    | schema d =>
      obtain rfl : d = item := Option.some.inj hitem
      exact h.child (Schema.extraItem_mem_children hsome)
  | none =>
    exact Schema.known_of_plain rfl fun _ hd => absurd hd List.not_mem_nil

namespace Run

open Build KclModels.Frame

variable {r : Run} {name x container : String} {T : Schema} {taken taken' : List String}
variable {f f' g : Frame} {s s' t t' : Session} {depth position : Nat}

section

variable {tr : Text.Transliteration}

/-- Definitions of the document are declared alike at any two points of a run. -/
theorem declaredAlike [Text.Transliteration] (hs : (r.session taken).registry.Grows s.registry)
    (ht : (r.session taken').registry.Grows t.registry) :
    Model.DeclaredAlike r.definitions r.options s.registry t.registry := by
  intro n d hd
  refine ⟨hs.keeps n d hd, ht.keeps n d hd, ?_⟩
  rw [hs.declared (c := d) hd, ht.declared (c := d) hd]
  rfl

/--
**A tuple is declared in the same way with and without a name.** Let a definition of the document be
a tuple, and let a property have the same schema, anywhere in the run. The property refers to a
record that was made of it. The properties of the record are those of the definition, one by one:
both have the names of the places, both have to be present, they have the same types up to names that
were made, and the same conditions unless a place refers to a definition that has constraints. What
is past the places is the same as well.
-/
theorem tuple_agrees_with_record (hc : r.definitions.Canonical)
    (hget : r.definitions.lookup name = some T) (hT : T.IsTuple places) (hnone : T.properties = [])
    (hs : (r.session taken).registry.Grows s.registry)
    (hproperty : (f.buildProperty r.setting (buildIn r.setting depth) position x T).Gives s f' s')
    (ht : (r.session taken').registry.Grows t.registry)
    (hdefinition : (definition r.setting name T container).Gives t g t') :
    ∃ p n e own, f'.model.properties = f.model.properties ++ [p] ∧ p.name = x ∧
      p.StandsFor r.options s'.registry n ∧ f'.extras.lookup n = some e ∧
      e.SameTuple r.definitions r.options s'.registry t'.registry places T own g.model := by
  have hb : BuildsBelow r.setting (buildIn r.setting depth) := fun g s g' s' hg => ⟨depth, hg⟩
  have hdefs : Knowing r.definitions s := fun n d hd => hs.keeps n d hd
  obtain ⟨p, n, e, own, hp, hname, hstands, he, hown, hslots⟩ :=
    buildProperty_tuple hb hdefs hT hproperty
  have hbuilds := Frame.builds_of_definition hdefinition
  have hslots' := hbuilds.slots_of_tuple r.definitions ⟨rfl, rfl, rfl⟩ rfl hT hnone
  -- both registries know the definitions of the document under the same names
  have hdeclared := declaredAlike (hs.trans (buildProperty_grows hb hproperty))
    (ht.trans hbuilds.adds)
  have hknown : T.Known (fun n => (r.definitions.lookup n).isSome = true) unasked :=
    hc.known Definitions.bare_unasked hget
  refine ⟨p, n, e, own, hp, hname, hstands, he, hown,
    fun hplaces hfew => hown.trans (hslots.sorted hplaces hfew), ⟨hslots.length, hslots'.length⟩,
    fun i place hplace => hslots.sameSlot hslots' hdeclared (fun place hplace => ?_) hplace,
    hslots.sameRest hslots' hdeclared hknown.extraItem⟩
  exact hknown.child (Schema.place_mem_children hT.items hplace)

end

/-- A stop of a trip: where it is, when, and whom to ask, with notes after that. -/
def stop : Schema :=
  { types := ["array"]
    items := some (.tuple [
      .referenceTo "Station",
      { types := ["object"], properties := [("hour", .typed "integer")] },
      { types := ["array"], items := some (.single (.typed "string")) }])
    additionalItems := some (.schema (.typed "string")) }

def trip : Schema := { types := ["object"], properties := [("start", stop)] }

def trips : Run := ofDefinitions [
  ("Station", { types := ["object"], properties := [("name", .typed "string")] }),
  ("Stop", stop), ("Trip", trip)]

theorem trips_agree : trips.definitions.Canonical ∧ trips.definitions.lookup "Stop" = some stop ∧
    ∃ places f' s' g t', stop.IsTuple places ∧ stop.properties = [] ∧
      ((Frame.root "Trip" trip "Trip").buildProperty trips.setting (buildIn trips.setting 12) 0
        "start" stop).Gives (trips.session []) f' s' ∧
      (definition trips.setting "Stop" stop "Stop").Gives (trips.session []) g t' ∧
      g.model.properties.map (fun p => (p.name, p.type.kclType)) =
        [("p0", "Station"), ("p1", "StopItems1"), ("p2", "[str]")] ∧
      ∃ p n e own, f'.model.properties = [p] ∧ p.name = "start" ∧
        p.StandsFor trips.options s'.registry n ∧ f'.extras.lookup n = some e ∧
        e.SameTuple trips.definitions trips.options s'.registry t'.registry places stop own
          g.model := by
  have hc : trips.definitions.Canonical := Definitions.canonical_of_check (by decide +kernel)
  have hstop : stop.IsTuple [.referenceTo "Station",
      { types := ["object"], properties := [("hour", .typed "integer")] },
      { types := ["array"], items := some (.single (.typed "string")) }] :=
    ⟨⟨rfl, .inl rfl, rfl, rfl⟩, rfl, rfl, rfl⟩
  obtain ⟨f', s', hproperty, -⟩ := exists_gives_of_any
    (m := (Frame.root "Trip" trip "Trip").buildProperty trips.setting (buildIn trips.setting 12) 0
      "start" stop)
    (s := trips.session []) (p := fun _ => true) (by decide +kernel)
  obtain ⟨g, t', hdefinition, hfacts⟩ := exists_gives_of_any
    (m := definition trips.setting "Stop" stop "Stop") (s := trips.session [])
    (p := fun g => decide (g.model.properties.map (fun p => (p.name, p.type.kclType)) =
      [("p0", "Station"), ("p1", "StopItems1"), ("p2", "[str]")])) (by decide +kernel)
  exact ⟨hc, rfl, _, f', s', g, t', hstop, rfl, hproperty, hdefinition, of_decide_eq_true hfacts,
    tuple_agrees_with_record hc rfl hstop rfl (.refl _) hproperty (.refl _) hdefinition⟩

/-- A price in a currency, which has a code of three letters. -/
def price : Schema :=
  { types := ["array"], items := some (.tuple [.typed "number", .referenceTo "Currency"]) }

def article : Schema := { types := ["object"], properties := [("price", price)] }

def articles : Run := ofDefinitions [
  ("Currency", { types := ["string"], minLength := some 3, maxLength := some 3 }),
  ("Price", price), ("Article", article)]

/-- The price of an article has the conditions on its currency, and a price by itself does not. -/
theorem articles_check_otherwise : articles.definitions.Canonical ∧
    articles.definitions.lookup "Price" = some price ∧
    price.IsTuple [.typed "number", .referenceTo "Currency"] ∧ ∃ f' s' g t',
      ((Frame.root "Article" article "Article").buildProperty articles.setting
        (buildIn articles.setting 12) 0 "price" price).Gives (articles.session []) f' s' ∧
      (definition articles.setting "Price" price "Price").Gives (articles.session []) g t' ∧
      (∃ p n e, f'.model.properties = [p] ∧ p.reference = some n ∧ f'.extras.lookup n = some e ∧
        Kcl.checkLines e.properties = ["len(p1) <= 3", "len(p1) >= 3"]) ∧
      Kcl.checkLines g.model.properties = [] := by
  obtain ⟨f', s', hproperty, hchecks⟩ := exists_gives_of_any
    (m := (Frame.root "Article" article "Article").buildProperty articles.setting
      (buildIn articles.setting 12) 0 "price" price)
    (s := articles.session [])
    (p := fun f' => f'.model.properties.length == 1 && f'.model.properties.any fun p =>
      p.reference.any fun n => (f'.extras.lookup n).any fun e =>
        Kcl.checkLines e.properties == ["len(p1) <= 3", "len(p1) >= 3"]) (by decide +kernel)
  obtain ⟨g, t', hdefinition, hnone⟩ := exists_gives_of_any
    (m := definition articles.setting "Price" price "Price") (s := articles.session [])
    (p := fun g => (Kcl.checkLines g.model.properties).isEmpty) (by decide +kernel)
  simp only [Bool.and_eq_true, List.any_eq_true, Option.any_eq_true, beq_iff_eq] at hchecks
  obtain ⟨hlength, p, hp, n, hn, e, he, hlines⟩ := hchecks
  obtain ⟨p', heq⟩ := List.length_eq_one_iff.mp hlength
  obtain rfl : p = p' := by simpa [heq] using hp
  exact ⟨Definitions.canonical_of_check (by decide +kernel), rfl,
    ⟨⟨rfl, .inl rfl, rfl, rfl⟩, rfl, rfl, rfl⟩, f', s', g, t', hproperty, hdefinition,
    ⟨p, n, e, heq, hn, he, hlines⟩, List.isEmpty_iff.mp hnone⟩

end Run

end KclModels
