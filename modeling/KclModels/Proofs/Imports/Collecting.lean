import KclModels.Imports
import KclModels.Proofs.Model.Positions

/-!
# Models with their types written out

Collecting the imports of a file changes nothing of a model but its types, and a type is changed
knowing only what the parts of the model came to. So a fact of models carries over to all models of
a tree once it carries over from a model to the same model with another type.
-/

namespace KclModels.Imports

variable {tr : Text.Transliteration}
variable {P Q : Model → Prop} {target : String}

/-- The model `m'` is `m` with its type written out for files of the package `target`. -/
structure Written [Text.Transliteration] (target : String) (m m' : Model) : Prop where
  facts : ∃ i, m'.toModelFacts = { m.toModelFacts with
    type := (qualify target (rebracket m.type m'.items m'.additionalProperties) i).1 }
  items : m.items = none → m'.items = none
  value : m.additionalProperties = none → m'.additionalProperties = none

theorem Written.reference {m m' : Model} (h : Written target m m') :
    m'.reference = m.reference := by
  obtain ⟨i, hf⟩ := h.facts
  rw [hf]

theorem Written.name {m m' : Model} (h : Written target m m') : m'.name = m.name := by
  obtain ⟨i, hf⟩ := h.facts
  rw [hf]

theorem Written.declaredName {m m' : Model} (h : Written target m m') :
    m'.declaredName = m.declaredName := by
  obtain ⟨i, hf⟩ := h.facts
  rw [hf]

/-- The parts of a collected model, and what was written out of the model itself. -/
theorem collect_written [Text.Transliteration] (target : String) (m : Model) (i : Imports) :
    Written target m (collect target m i).1 := by
  obtain ⟨facts, items, extraItems, properties, allOf, value⟩ := m
  rw [collect]
  refine ⟨⟨_, rfl⟩, fun hnone => ?_, fun hnone => ?_⟩
  · obtain rfl : items = none := hnone
    rfl
  · obtain rfl : value = none := hnone
    rfl

mutual

/-- What carries over to each model with its type written out carries over to a whole tree. -/
theorem collect_everywhere (hPQ : ∀ m m', P m → Written target m m' → Q m') :
    ∀ (m : Model) (i : Imports), m.Everywhere P → (collect target m i).1.Everywhere Q
  | ⟨facts, items, extraItems, properties, allOf, value⟩, i, h => by
    have hitems := collectOption_everywhere hPQ items
    have hextra := collectOption_everywhere hPQ extraItems
    have hprops := collectList_everywhere hPQ properties
    have hvalue := collectOption_everywhere hPQ value
    have hall := collectList_everywhere hPQ allOf
    refine Model.everywhere_of_parts (hPQ _ _ h.here (collect_written target _ i)) fun p hp => ?_
    rw [collect, Model.mem_parts_iff] at hp
    rcases hp with hp | hp | hp | hp | hp
    · exact hitems i (fun q hq => h.part (Model.mem_parts_iff.mpr (Or.inl hq))) p hp
    · exact hextra _ (fun q hq => h.part (Model.mem_parts_iff.mpr (Or.inr (Or.inl hq)))) p hp
    · exact hprops _ (fun q hq =>
        h.part (Model.mem_parts_iff.mpr (Or.inr (Or.inr (Or.inl hq))))) p hp
    · exact hall _ (fun q hq =>
        h.part (Model.mem_parts_iff.mpr (Or.inr (Or.inr (Or.inr (Or.inl hq)))))) p hp
    · exact hvalue _ (fun q hq =>
        h.part (Model.mem_parts_iff.mpr (Or.inr (Or.inr (Or.inr (Or.inr hq)))))) p hp

theorem collectOption_everywhere (hPQ : ∀ m m', P m → Written target m m' → Q m') :
    ∀ (o : Option Model) (i : Imports), (∀ m, o = some m → m.Everywhere P) →
      ∀ m', (collectOption target o i).1 = some m' → m'.Everywhere Q
  | none, i, _, m', hm => by simp [collectOption] at hm
  | some m, i, h, m', hm => by
    have hcollect := collect_everywhere hPQ m i (h m rfl)
    rw [collectOption] at hm
    obtain rfl := Option.some.inj hm
    exact hcollect

theorem collectList_everywhere (hPQ : ∀ m m', P m → Written target m m' → Q m') :
    ∀ (l : List Model) (i : Imports), (∀ m ∈ l, m.Everywhere P) →
      ∀ m' ∈ (collectList target l i).1, m'.Everywhere Q
  | [], i, _, m', hm => by simp [collectList] at hm
  | m :: rest, i, h, m', hm => by
    have hhead := collect_everywhere hPQ m i (h m List.mem_cons_self)
    have htail := collectList_everywhere hPQ rest (collect target m i).2
      fun q hq => h q (List.mem_cons_of_mem _ hq)
    rw [collectList] at hm
    rcases List.mem_cons.mp hm with rfl | hm
    · exact hhead
    · exact htail m' hm

end

theorem collect_parts (hPQ : ∀ m m', P m → Written target m m' → Q m') (m : Model) (i : Imports)
    (h : ∀ p ∈ m.parts, p.Everywhere P) : ∀ p ∈ (collect target m i).1.parts, p.Everywhere Q := by
  obtain ⟨facts, items, extraItems, properties, allOf, value⟩ := m
  intro p hp
  rw [collect, Model.mem_parts_iff] at hp
  rcases hp with hp | hp | hp | hp | hp
  · exact collectOption_everywhere hPQ items i
      (fun q hq => h q (Model.mem_parts_iff.mpr (Or.inl hq))) p hp
  · exact collectOption_everywhere hPQ extraItems _
      (fun q hq => h q (Model.mem_parts_iff.mpr (Or.inr (Or.inl hq)))) p hp
  · exact collectList_everywhere hPQ properties _
      (fun q hq => h q (Model.mem_parts_iff.mpr (Or.inr (Or.inr (Or.inl hq))))) p hp
  · exact collectList_everywhere hPQ allOf _
      (fun q hq => h q (Model.mem_parts_iff.mpr (Or.inr (Or.inr (Or.inr (Or.inl hq)))))) p hp
  · exact collectOption_everywhere hPQ value _
      (fun q hq => h q (Model.mem_parts_iff.mpr (Or.inr (Or.inr (Or.inr (Or.inr hq)))))) p hp

/-! ## Branches -/

/-- A fact of models that stays when the types or the properties of a model are written out. -/
structure CarriesOver [Text.Transliteration] (target : String) (P Q : Model → Prop) : Prop where
  written : ∀ m m', P m → Written target m m' → Q m'
  same : ∀ m, P m → Q m
  qualified : ∀ (m : Model) i, P m → Q { m with type := (qualify target m.type i).1 }
  properties : ∀ (m : Model) properties, P m → Q { m with properties }

theorem collectNew_everywhere (h : CarriesOver target P Q) (l : List Model) :
    ∀ (declared : List String) (i : Imports), (∀ m ∈ l, m.Everywhere P) →
      ∀ m' ∈ (collectNew target declared l i).1, m'.Everywhere Q := by
  induction l with
  | nil => exact fun _ _ _ m' hm => absurd hm (by simp [collectNew])
  | cons m rest ih =>
    intro declared i hl m' hm
    have hrest : ∀ q ∈ rest, q.Everywhere P := fun q hq => hl q (List.mem_cons_of_mem _ hq)
    rw [collectNew] at hm
    split at hm
    · rcases List.mem_cons.mp hm with rfl | hm
      · exact (hl m' List.mem_cons_self).mono h.same
      · exact ih declared i hrest m' hm
    · rcases List.mem_cons.mp hm with rfl | hm
      · exact collect_everywhere h.written m i (hl m List.mem_cons_self)
      · exact ih _ _ hrest m' hm

theorem parts_of_properties {b : Model} {properties : List Model}
    (hb : ∀ p ∈ b.parts, p.Everywhere P) (hp : ∀ p ∈ properties, p.Everywhere P) :
    ∀ p ∈ ({ b with properties } : Model).parts, p.Everywhere P := by
  intro p hm
  rw [Model.mem_parts_iff] at hm
  rcases hm with hm | hm | hm | hm | hm
  · exact hb p (Model.mem_parts_iff.mpr (Or.inl hm))
  · exact hb p (Model.mem_parts_iff.mpr (Or.inr (Or.inl hm)))
  · exact hp p hm
  · exact hb p (Model.mem_parts_iff.mpr (Or.inr (Or.inr (Or.inr (Or.inl hm)))))
  · exact hb p (Model.mem_parts_iff.mpr (Or.inr (Or.inr (Or.inr (Or.inr hm)))))

/-- The branch `b'` is `b` with what a rendered composition spells of it written out. -/
structure BranchWritten [Text.Transliteration] (target : String) (b b' : Model) : Prop where
  reference : b'.reference = b.reference
  type : b'.type = b.type ∨ ∃ i, b'.type = (qualify target b.type i).1
  parts : ∀ P Q, CarriesOver target P Q → (∀ p ∈ b.parts, p.Everywhere P) →
    ∀ p ∈ b'.parts, p.Everywhere Q
  whole : ∀ P Q, CarriesOver target P Q → b.Everywhere P → b'.Everywhere Q

theorem collectBranches_written (l : List Model) : ∀ (parent : Option Nat)
    (declared : List String) (index : Nat) (i : Imports) (n : Nat) (b' : Model),
    (collectBranches target parent declared index l i).1[n]? = some b' →
    ∃ b, l[n]? = some b ∧ BranchWritten target b b' := by
  induction l with
  | nil => exact fun _ _ _ _ n b' hb => absurd hb (by simp [collectBranches])
  | cons branch rest ih =>
    intro parent declared index i n b' hb
    rw [collectBranches] at hb
    split at hb
    · cases n with
      | zero =>
        -- the parent itself: only its name is written
        obtain rfl := Option.some.inj hb
        refine ⟨branch, rfl, rfl, .inr ⟨i, rfl⟩,
          fun P Q h hp => fun p hm => (hp p hm).mono h.same, fun P Q h hw => ?_⟩
        exact Model.everywhere_of_parts (h.qualified _ i hw.here)
          fun p hm => (hw.part hm).mono h.same
      | succ n => exact ih _ _ _ _ n b' hb
    · cases n with
      | zero =>
        obtain rfl := Option.some.inj hb
        -- another branch: those of its properties that are new are collected
        have hparts : ∀ P Q, CarriesOver target P Q → (∀ p ∈ branch.parts, p.Everywhere P) →
            ∀ p ∈ ({ branch with properties :=
              (collectNew target declared branch.properties i).1 } : Model).parts,
              p.Everywhere Q := by
          intro P Q h hp
          refine parts_of_properties (fun p hm => (hp p hm).mono h.same) ?_
          exact collectNew_everywhere h branch.properties declared i fun p hm =>
            hp p (Model.mem_parts_iff.mpr (Or.inr (Or.inr (Or.inl hm))))
        refine ⟨branch, rfl, rfl, .inl rfl, hparts, fun P Q h hw => ?_⟩
        exact Model.everywhere_of_parts (h.properties _ _ hw.here)
          (hparts P Q h fun p hm => hw.part hm)
      | succ n => exact ih _ _ _ _ n b' hb

/-! ## Rendered models -/

/-- A rendered model, its own parts and its branches, with its types written out. -/
structure Rendered [Text.Transliteration] (target : String) (m m' : Model) : Prop where
  reference : m'.reference = m.reference
  name : m'.name = m.name
  declaredName : m'.declaredName = m.declaredName
  own : ∀ P Q, CarriesOver target P Q →
    (∀ p ∈ ({ m with allOf := [] } : Model).parts, p.Everywhere P) →
    ∀ p ∈ ({ m' with allOf := [] } : Model).parts, p.Everywhere Q
  branches : ∀ (n : Nat) b', m'.allOf[n]? = some b' →
    ∃ b, m.allOf[n]? = some b ∧ BranchWritten target b b'

theorem collectRendered_rendered [Text.Transliteration] (target : String) (m : Model)
    (i : Imports) :
    Rendered target m (collectRendered target m i).1 := by
  have hown := collect_written target { m with allOf := [] } i
  refine ⟨hown.reference, hown.name, hown.declaredName, fun P Q h hp p hm => ?_,
    fun n b' hb => ?_⟩
  · refine collect_parts h.written { m with allOf := [] } i hp p ?_
    rw [Model.mem_parts_iff] at hm ⊢
    exact hm.imp_right (Or.imp_right (Or.imp_right (Or.imp_left fun hm =>
      absurd hm List.not_mem_nil)))
  · exact collectBranches_written m.allOf _ _ _ _ n b' hb

/-- Each of several collected models is one of them, collected on its own. -/
theorem mem_collectAllRendered (l : List Model) : ∀ (i : Imports),
    ∀ m' ∈ (collectAllRendered target l i).1, ∃ m ∈ l, ∃ j, m' = (collectRendered target m j).1 := by
  induction l with
  | nil => exact fun _ m' hm => absurd hm (by simp [collectAllRendered])
  | cons m rest ih =>
    intro i m' hm
    rw [collectAllRendered] at hm
    rcases List.mem_cons.mp hm with rfl | hm
    · exact ⟨m, List.mem_cons_self, i, rfl⟩
    · obtain ⟨q, hq, hr⟩ := ih _ m' hm
      exact ⟨q, List.mem_cons_of_mem _ hq, hr⟩

/-- Writing types out keeps the names of rendered models. -/
theorem collectAllRendered_names (l : List Model) : ∀ (i : Imports),
    (collectAllRendered target l i).1.map (·.name) = l.map (·.name) := by
  induction l with
  | nil => exact fun _ => rfl
  | cons m rest ih =>
    intro i
    rw [collectAllRendered, List.map_cons, List.map_cons, ih,
      (collectRendered_rendered target m i).name]

end KclModels.Imports
