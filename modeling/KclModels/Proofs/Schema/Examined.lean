import KclModels.Build.Schema
import KclModels.Proofs.Schema.Composition
import KclModels.Proofs.Schema.Within

/-!
# What of a schema is examined

Two faults of a schema cannot be generated: items that are described by one schema while yet more
items are allowed, and a choice between values of which some have structure. A fault is found where
the schema is looked at. Not all of a schema is: nothing is beside a reference, nothing is left of a
composition that gave way to one of its branches, and the maps between a map and its innermost
values are put together from their values alone. The schemas below which everything is looked at
are open, and a schema is examined if all schemas above it are.
-/

namespace KclModels.Schema

/-- One schema describes all items, and yet more items are allowed. -/
def MixesItems (c : Schema) : Prop :=
  c.singleItem?.isSome = true ∧ c.hasAdditionalItems = true

/-- Some of the values to choose from are arrays or objects. -/
def ChoosesStructure (c : Schema) : Prop :=
  ∃ v ∈ c.enumValues, (∃ items, v = .arr items) ∨ ∃ fields, v = .obj fields

/-- An object that is neither a reference nor a composition. -/
structure Plain (c : Schema) : Prop where
  reference : c.reference = none
  object : c.saysObject = true
  allOf : c.allOf = []

/-- A map whose values are described, with nothing else in it that makes up an object. -/
structure Layer (c : Schema) : Prop where
  reference : c.reference = none
  properties : c.properties = []
  allOf : c.allOf = []
  value : c.extraValue?.isSome = true

/-- Of several branches two say something, or all are objects that are not composed in turn. -/
def Steady (c : Schema) : Prop :=
  2 ≤ c.allOf.length → 2 ≤ c.allOf.countP Frame.isSubstantive ∨ ∀ b ∈ c.allOf, b.Plain

theorem steady_of_allOf {c : Schema} (h : c.allOf = []) : c.Steady :=
  fun hlen => absurd hlen (by simp [h])

/-- The one branch of several that says something. -/
def Sole (c b : Schema) : Prop := 2 ≤ c.allOf.length ∧ c.allOf.filter Frame.isSubstantive = [b]

/-- The schema is built itself, and no reference or branch of its composition in place of it. -/
structure Whole (c : Schema) : Prop where
  reference : c.reference = none
  branches : c.Steady

/-- All that is in the schema is looked at. -/
structure Open (c : Schema) : Prop extends Whole c where
  /-- The values of a map are no maps that have items as well. -/
  values : ∀ v, c.additionalProperties = some (.schema v) → c.isRecord = false → v.Layer →
    v.items = none ∧ v.additionalItems = none

/-- The schema has a fault that cannot be generated, where it is looked at. -/
def Faulty (c : Schema) : Prop := (c.Whole ∧ c.MixesItems) ∨ c.ChoosesStructure

/-- The schema `t` is `c`, or stands somewhere in it below open schemas. -/
inductive Examined (t : Schema) : Schema → Prop
  | here : Examined t t
  | part {c d : Schema} : c.Open → d ∈ c.children → Examined t d → Examined t c

/-- No schema with a fault is examined. -/
def Sound (c : Schema) : Prop := ∀ t : Schema, t.Examined c → ¬ t.Faulty

variable {c c' d : Schema}

theorem Sound.here (h : c.Sound) : ¬ c.Faulty := h c .here

theorem Sound.child (h : c.Sound) (hc : c.Open) (hd : d ∈ c.children) : d.Sound :=
  fun t ht => h t (.part hc hd ht)

theorem sound_of_children (hc : ¬ c.Faulty) (hd : c.Open → ∀ d ∈ c.children, d.Sound) :
    c.Sound := by
  intro t ht
  cases ht with
  | here => exact hc
  | part hopen hmem ht => exact hd hopen _ hmem t ht

/-- With one branch at most, and values that have no described values in turn, a schema is open. -/
theorem open_of_short (href : c.reference = none) (hlen : c.allOf.length < 2)
    (hvalues : ∀ v, c.additionalProperties = some (.schema v) → v.extraValue? = none) : c.Open where
  reference := href
  branches hlen' := absurd hlen' (by omega)
  values v hv _ hlayer := by
    have hsome := hlayer.value
    rw [hvalues v hv] at hsome
    exact absurd hsome (by simp)

/-! ## References in the place of branches -/

theorem Sole.mem {b : Schema} (h : c.Sole b) : b ∈ c.allOf := by
  have hmem : b ∈ c.allOf.filter Frame.isSubstantive := by
    rw [h.2]
    exact List.mem_singleton_self b
  exact (List.mem_filter.mp hmem).1

/-- A reference says something. -/
theorem isSubstantive_referenceTo (n : String) : Frame.isSubstantive (referenceTo n) = true := rfl

theorem Steady.plain_of_sole {b : Schema} (h : c.Steady) (hb : c.Sole b) : b.Plain := by
  rcases h hb.1 with hcount | hplain
  · rw [List.countP_eq_length_filter, hb.2] at hcount
    exact absurd hcount (by simp)
  · exact hplain b hb.mem

/-- In place of branches that are not plain stand references. -/
def Renames (l l' : List Schema) : Prop :=
  List.Forall₂ (fun b b' => b' = b ∨ ((∃ n, b' = referenceTo n) ∧ ¬ b.Plain)) l l'

namespace Renames

variable {l l' l'' : List Schema} {b : Schema}

theorem refl (l : List Schema) : Renames l l := List.forall₂_same.mpr fun _ _ => Or.inl rfl

theorem trans (h : Renames l l') (h' : Renames l' l'') : Renames l l'' := by
  induction h generalizing l'' with
  | nil => exact h'
  | cons hb _ ih =>
    cases h' with
    | cons hb' htail =>
      refine .cons ?_ (ih htail)
      rcases hb' with rfl | ⟨href, hplain⟩
      · exact hb
      · refine Or.inr ⟨href, ?_⟩
        rcases hb with rfl | ⟨-, hplain⟩
        · exact hplain
        · exact hplain

theorem set {i : Nat} (hi : l[i]? = some b) (hb : ¬ b.Plain) (n : String) :
    Renames l (l.set i (referenceTo n)) := by
  induction l generalizing i with
  | nil => exact absurd hi (by simp)
  | cons head rest ih =>
    cases i with
    | zero =>
      obtain rfl := Option.some.inj hi
      exact .cons (Or.inr ⟨⟨n, rfl⟩, hb⟩) (refl rest)
    | succ i => exact .cons (Or.inl rfl) (ih hi)

/-- As many branches say something as before, or more. -/
theorem countP (h : Renames l l') :
    l.countP Frame.isSubstantive ≤ l'.countP Frame.isSubstantive := by
  induction h with
  | nil => exact Nat.le_refl _
  | @cons b b' l l' hb _ ih =>
    rw [List.countP_cons, List.countP_cons]
    rcases hb with rfl | ⟨⟨n, rfl⟩, -⟩
    · omega
    · have hle : (if Frame.isSubstantive b = true then 1 else 0) ≤ 1 := by split <;> omega
      rw [if_pos (isSubstantive_referenceTo n)]
      omega

theorem eq_of_plain (h : Renames l l') (hl : ∀ b ∈ l, b.Plain) : l' = l := by
  induction h with
  | nil => rfl
  | cons hb _ ih =>
    rcases hb with rfl | ⟨-, hnot⟩
    · rw [ih fun b hb => hl b (List.mem_cons_of_mem _ hb)]
    · exact absurd (hl _ List.mem_cons_self) hnot

/-- What says nothing says nothing without the references that stand in it. -/
theorem filter_eq_nil (h : Renames l l') (hl : l'.filter Frame.isSubstantive = []) :
    l.filter Frame.isSubstantive = [] := by
  rw [← List.length_eq_zero_iff, ← List.countP_eq_length_filter] at hl ⊢
  exact Nat.le_zero.mp (hl ▸ h.countP)

/-- The one branch that says something did so before, or is one of the references. -/
theorem filter_eq_singleton (h : Renames l l') (hl : l'.filter Frame.isSubstantive = [b]) :
    l.filter Frame.isSubstantive = [b] ∨ ∃ n, b = referenceTo n := by
  induction h with
  | nil => exact absurd hl (by simp)
  | @cons c c' l l' hc hrest ih =>
    rw [List.filter_cons] at hl
    cases hsubstantive : Frame.isSubstantive c' with
    | true =>
      rw [if_pos hsubstantive] at hl
      obtain ⟨rfl, hnil⟩ := List.cons.inj hl
      refine hc.imp (fun heq => ?_) And.left
      rw [← heq, List.filter_cons, if_pos hsubstantive, filter_eq_nil hrest hnil]
    | false =>
      rw [if_neg (by rw [hsubstantive]; decide)] at hl
      rcases hc with rfl | ⟨⟨n, rfl⟩, -⟩
      · rw [List.filter_cons, if_neg (by rw [hsubstantive]; decide)]
        exact ih hl
      · exact absurd (hsubstantive.symm.trans (isSubstantive_referenceTo n)) (by decide)

end Renames

/-- The schema stays steady. -/
theorem Steady.rename (h : c.Steady) (hl : Renames c.allOf c'.allOf) : c'.Steady := by
  intro hlen
  rcases h (hl.length_eq ▸ hlen) with hcount | hplain
  · exact Or.inl (Nat.le_trans hcount hl.countP)
  · rw [hl.eq_of_plain hplain]
    exact Or.inr hplain

/-- The one branch that says something did so before, or is a reference to a definition. -/
theorem Sole.of_renamed {b : Schema} (h : c'.Sole b) (hl : Renames c.allOf c'.allOf) :
    c.Sole b ∨ ∃ n, b = referenceTo n :=
  (hl.filter_eq_singleton h.2).imp_left fun hfilter => ⟨hl.length_eq ▸ h.1, hfilter⟩

/-- The schema stays whole. -/
theorem Whole.rename {l : List Schema} (h : c.Whole) (hl : Renames c.allOf l) :
    ({ c with allOf := l } : Schema).Whole where
  reference := h.reference
  branches := h.branches.rename hl

/-- The schema stays open. -/
theorem Open.rename {l : List Schema} (h : c.Open) (hl : Renames c.allOf l) :
    ({ c with allOf := l } : Schema).Open where
  toWhole := h.toWhole.rename hl
  values v hv hrecord :=
    h.values v hv ((isRecord_with_allOf hl.length_eq.symm).symm.trans hrecord)

end KclModels.Schema
