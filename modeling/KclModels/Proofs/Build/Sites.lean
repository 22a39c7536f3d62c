import KclModels.Build.Schema
import KclModels.Proofs.Schema.Within

/-!
# Where the schemas of frames stand

The schemas that building comes by are parts of those that it started from, with references and built
schemas in place of some of their parts, and the records that stand for tuples. What can be said of
all of them, by whether they stand in a tuple, is a property that these changes keep. The property of
this kind that says most is that a schema stands in a definition of the document: it has the
properties, the branches and the places that a schema there has. If building took it to be in a
tuple, it stands in one.
-/

namespace KclModels

namespace Schema

variable {c d x : Schema}

/-- A property of schemas, and of whether they stand in a tuple, that building keeps. -/
structure Sites (K : Bool → Schema → Prop) : Prop where
  loose {t : Bool} {c : Schema} : K t c → K false c
  child {t : Bool} {c d : Schema} : K t c → d ∈ c.children → K t d
  /-- A reference, or another schema that holds none. -/
  bare {t : Bool} {c : Schema} : c.children = [] → c.items = none → K t c
  place {t : Bool} {c d : Schema} {places : List Schema} : K t c → c.items = some (.tuple places) →
    d ∈ places → K true d
  record {t : Bool} {c : Schema} {places : List Schema} : K t c → c.items = some (.tuple places) →
    K true (Frame.tupleRecord places c.additionalItems)
  setBranch {t : Bool} {c : Schema} (i : Nat) (n : String) : K t c →
    K t { c with allOf := c.allOf.set i (.referenceTo n) }
  setItem {t : Bool} {c item : Schema} (n : String) : K t c → c.items = some (.single item) →
    K t { c with items := some (.single (.referenceTo n)) }
  setValue {t : Bool} {c d v : Schema} : K t c → c.additionalProperties = some (.schema v) →
    K t d → K t { c with additionalProperties := some (.schema d) }
  setExtraItem {t : Bool} {c e : Schema} (n : String) : K t c →
    c.additionalItems = some (.schema e) →
    K t { c with additionalItems := some (.schema (.referenceTo n)) }

/-- Nothing is asked. -/
theorem sites_true : Sites fun _ _ => True where
  loose _ := trivial
  child _ _ := trivial
  bare _ _ := trivial
  place _ _ _ := trivial
  record _ _ := trivial
  setBranch _ _ _ := trivial
  setItem _ _ _ := trivial
  setValue _ _ _ := trivial
  setExtraItem _ _ _ := trivial

/-! ## Schemas of the document -/

/--
The later schema is the earlier one with others in place of some of its parts, among them none of its
properties and places. Of its branches and further items only references take the place.
-/
structure Stems (x d : Schema) : Prop where
  keywords : d.toKeywords = x.toKeywords
  properties : d.properties = x.properties
  places : d.tupleItems? = x.tupleItems?
  length : d.allOf.length = x.allOf.length
  branches : ∀ (i : Nat) (b : Schema), d.allOf[i]? = some b → x.allOf[i]? = some b ∨ ∃ n, b = referenceTo n
  extraItems : ∀ b : Schema, d.additionalItems = some (.schema b) →
    x.additionalItems = some (.schema b) ∨ ∃ n, b = referenceTo n

theorem Stems.refl (x : Schema) : x.Stems x :=
  ⟨rfl, rfl, rfl, rfl, fun _ _ => .inl, fun _ => .inl⟩

/-- The schema stands in a tuple that stands in `c`: in one of its places or past them. -/
def InTuple (x c : Schema) : Prop :=
  ∃ (T b : Schema) (places : List Schema), T.Within c ∧ T.items = some (.tuple places) ∧
    (b ∈ places ∨ T.additionalItems = some (.schema b)) ∧ x.Within b

/-- The schema of a tuple, as it says of it. -/
theorem items_of_tupleItems? {places : List Schema} (h : c.tupleItems? = some places) :
    c.items = some (.tuple places) := by
  unfold tupleItems? at h
  split at h
  · rename_i l hl
    rw [hl, Option.some.inj h]
  · simp at h

theorem tupleItems?_of_items {places : List Schema} (h : c.items = some (.tuple places)) :
    c.tupleItems? = some places := by
  rw [tupleItems?, h]

end Schema

namespace Definitions

open Schema

variable {defs : Definitions} {t : Bool} {c d x T : Schema} {n : String} {places : List Schema}

/-- The schema stands in a definition of the document, and in a tuple if it is marked. -/
inductive Site (defs : Definitions) : Bool → Schema → Prop
  /-- It holds no schemas. -/
  | bare {t : Bool} {d : Schema} : d.children = [] → d.items = none → Site defs t d
  | declared {t : Bool} {n : String} {c x d : Schema} : defs.lookup n = some c → x.Within c →
      x.Stems d → (t = true → x.InTuple c) → Site defs t d
  /-- It is the record that stands for a tuple. -/
  | record {t : Bool} {n : String} {c T : Schema} {places : List Schema}
      {extra : Option (Extra Schema)} : defs.lookup n = some c → T.Within c →
      T.items = some (.tuple places) → Site defs t (Frame.tupleRecord places extra)

/-- All parts of a definition stand in it. -/
theorem site_of_lookup (hc : defs.lookup n = some c) : c.Everywhere (defs.Site false) :=
  fun x hx => .declared hc hx (.refl x) fun h => absurd h (by decide)

/-- What a tuple in a definition holds stands in a tuple. -/
theorem site_of_tuple (hc : defs.lookup n = some c) (hT : T.Within c)
    (hitems : T.items = some (.tuple places))
    (hd : d ∈ places ∨ T.additionalItems = some (.schema d)) : d.Everywhere (defs.Site true) := by
  intro y hy
  have hchild : d ∈ T.children := hd.elim (place_mem_children hitems) extraItem_mem_children
  exact .declared hc ((hy.of_child hchild).trans hT) (.refl y)
    fun _ => ⟨T, d, places, hT, hitems, hd, hy⟩

theorem site_referenceTo (n : String) : (referenceTo n).Everywhere (defs.Site t) :=
  everywhere_of_children (.bare rfl rfl) fun _ hc => absurd hc List.not_mem_nil

theorem Site.loose (h : defs.Site t d) : defs.Site false d := by
  cases h with
  | bare hchildren hitems => exact .bare hchildren hitems
  | declared hc hx hstems _ => exact .declared hc hx hstems fun h => absurd h (by decide)
  | record hc hT hitems => exact .record hc hT hitems

/-- Where a tuple stands, its record and what it holds stand in a tuple. -/
theorem Site.held (h : defs.Site t d) (hitems : d.items = some (.tuple places)) :
    (∀ p ∈ places, p.Everywhere (defs.Site true)) ∧
      (Frame.tupleRecord places d.additionalItems).Everywhere (defs.Site true) := by
  have hplaces := tupleItems?_of_items hitems
  cases h with
  | bare _ hnone => exact absurd (hnone.symm.trans hitems) (by simp)
  | record => exact absurd hitems (by simp [Frame.tupleRecord])
  | declared hc hx hstems _ =>
    rename_i n c x
    -- the places are those of the schema in the document
    have hitems' := items_of_tupleItems? (hstems.places.symm.trans hplaces)
    have hheld : ∀ p ∈ places, p.Everywhere (defs.Site true) :=
      fun p hp => site_of_tuple hc hx hitems' (.inl hp)
    refine ⟨hheld, everywhere_of_children (.record hc hx hitems') fun e he => ?_⟩
    rw [mem_children_iff] at he
    rcases he with ⟨m, hm⟩ | he | he | ⟨l, hl, -⟩ | he | he
    · obtain ⟨⟨p, i⟩, hp, heq⟩ := List.mem_map.mp hm
      obtain ⟨-, rfl⟩ := Prod.mk.inj heq
      exact hheld p (List.fst_mem_of_mem_zipIdx hp)
    · exact absurd he List.not_mem_nil
    · exact absurd he (by simp [Frame.tupleRecord])
    · exact absurd hl (by simp [Frame.tupleRecord])
    · exact absurd he (by simp [Frame.tupleRecord])
    · -- items past the places are those of the document, unless a reference took their place
      rcases hstems.extraItems e he with he | ⟨n, rfl⟩
      · exact site_of_tuple hc hx hitems' (.inr he)
      · exact site_referenceTo n

/-! References and values that stand in the document may take the place of parts. -/

theorem Site.setBranch (h : defs.Site t d) (i : Nat) (n : String) :
    defs.Site t { d with allOf := d.allOf.set i (referenceTo n) } := by
  cases h with
  | bare hchildren hitems =>
    have hnone : d.allOf = [] := List.eq_nil_iff_forall_not_mem.mpr fun b hb =>
      absurd (hchildren ▸ branch_mem_children hb) List.not_mem_nil
    rw [show d.allOf.set i (referenceTo n) = d.allOf by rw [hnone]; rfl]
    exact .bare hchildren hitems
  | record hc hT hitems => exact .record hc hT hitems
  | declared hc hx hstems htuple =>
    refine .declared hc hx { hstems with length := ?_, branches := fun j b hb => ?_ } htuple
    · exact List.length_set.trans hstems.length
    · rcases getElem?_setBranch hb with hb | rfl
      · exact hstems.branches j b hb
      · exact .inr ⟨n, rfl⟩

theorem Site.setItem {item e : Schema} (h : defs.Site t d) (hitem : d.items = some (.single item)) :
    defs.Site t { d with items := some (.single e) } := by
  cases h with
  | bare _ hnone => exact absurd (hnone.symm.trans hitem) (by simp)
  | record => exact absurd hitem (by simp [Frame.tupleRecord])
  | declared hc hx hstems htuple =>
    refine .declared hc hx { hstems with places := Eq.trans ?_ hstems.places } htuple
    rw [tupleItems?, tupleItems?, hitem]

theorem Site.setValue {v e : Schema} (h : defs.Site t d)
    (hvalue : d.additionalProperties = some (.schema v)) :
    defs.Site t { d with additionalProperties := some (.schema e) } := by
  cases h with
  | bare hchildren _ => exact absurd (hchildren ▸ value_mem_children hvalue) List.not_mem_nil
  | record => exact absurd hvalue (by simp [Frame.tupleRecord])
  | declared hc hx hstems htuple => exact .declared hc hx { hstems with } htuple

theorem Site.setExtraItem {v : Schema} (h : defs.Site t d) (n : String)
    (hextra : d.additionalItems = some (.schema v)) :
    defs.Site t { d with additionalItems := some (.schema (referenceTo n)) } := by
  cases h with
  | bare hchildren _ => exact absurd (hchildren ▸ extraItem_mem_children hextra) List.not_mem_nil
  | record hc hT hitems => exact .record hc hT hitems
  | declared hc hx hstems htuple =>
    refine .declared hc hx { hstems with extraItems := fun b hb => ?_ } htuple
    exact .inr ⟨n, by simpa [eq_comm] using hb⟩

/-- **The schemas of frames stand in the document.** -/
theorem sites (defs : Definitions) : Sites fun t d => d.Everywhere (defs.Site t) where
  loose h := h.mono fun _ => Site.loose
  child := Everywhere.child
  bare hchildren hitems := by
    refine everywhere_of_children (.bare hchildren hitems) fun e he => ?_
    rw [hchildren] at he
    exact absurd he List.not_mem_nil
  place h hitems hd := (h.here.held hitems).1 _ hd
  record h hitems := (h.here.held hitems).2
  setBranch i n h := by
    refine everywhere_of_children (h.here.setBranch i n) fun e he => ?_
    rcases mem_children_setBranch he with he | rfl
    · exact h.child he
    · exact site_referenceTo n
  setItem n h hitem := by
    refine everywhere_of_children (h.here.setItem hitem) fun e he => ?_
    rcases mem_children_setItem he with he | rfl
    · exact h.child he
    · exact site_referenceTo n
  setValue h hvalue hd := by
    refine everywhere_of_children (h.here.setValue hvalue) fun e he => ?_
    rcases mem_children_setValue he with he | rfl
    · exact h.child he
    · exact hd
  setExtraItem n h hextra := by
    refine everywhere_of_children (h.here.setExtraItem n hextra) fun e he => ?_
    rcases mem_children_setExtraItem he with he | rfl
    · exact h.child he
    · exact site_referenceTo n

end Definitions

end KclModels
