import KclModels.Proofs.Imports.Visits

/-!
# No position is visited twice

The visits of a model stand in blocks, one for each edge to a part that is visited. Within a block
the positions differ below the edge, and between blocks they differ in it.
-/

namespace KclModels.Imports

open Model

/-- The positions below some edges, given those below each. -/
def under (blocks : List (Edge × List Position)) : List Position :=
  blocks.flatMap fun block => block.2.map (block.1 :: ·)

variable {blocks blocks' : List (Edge × List Position)} {e : Edge} {p : Position}

theorem under_append : under (blocks ++ blocks') = under blocks ++ under blocks' :=
  List.flatMap_append

theorem nodup_under (hedges : (blocks.map Prod.fst).Nodup)
    (hblocks : ∀ block ∈ blocks, block.2.Nodup) : (under blocks).Nodup := by
  refine List.nodup_flatMap.mpr ⟨fun block hmem => ?_, ?_⟩
  · exact (hblocks block hmem).map fun p q h => (List.cons.inj h).2
  · refine (List.pairwise_map.mp hedges).imp fun {a b} hne => ?_
    intro p hp hq
    obtain ⟨q, -, rfl⟩ := List.mem_map.mp hp
    obtain ⟨q', -, heq⟩ := List.mem_map.mp hq
    exact hne (List.cons.inj heq).1.symm

theorem nil_notMem_under : [] ∉ under blocks := by
  intro h
  obtain ⟨block, -, hp⟩ := List.mem_flatMap.mp h
  obtain ⟨q, -, heq⟩ := List.mem_map.mp hp
  exact absurd heq (List.cons_ne_nil _ _)

/-- The positions of visits. -/
def positions (visits : List Visit) : List Position := visits.map Visit.position

theorem positions_append (l l' : List Visit) : positions (l ++ l') = positions l ++ positions l' :=
  List.map_append

theorem positions_below (l : List Visit) :
    positions (l.map (.below e)) = under [(e, positions l)] := by
  rw [under, List.flatMap_singleton, positions, positions, List.map_map, List.map_map]
  exact List.map_congr_left fun visit _ => by cases visit <;> rfl

/-- The blocks of models in a row. -/
def rowBlocks (row : Row) (index : Nat) : List Model → List (Edge × List Position)
  | [] => []
  | m :: rest => (.child row index, positions (visitsOf m)) :: rowBlocks row (index + 1) rest

theorem positions_visitsOfList (row : Row) (l : List Model) : ∀ index,
    positions (visitsOfList l row index) = under (rowBlocks row index l) := by
  induction l with
  | nil => exact fun _ => rfl
  | cons m rest ih =>
    intro index
    rw [visitsOfList, positions_append, positions_below, ih, ← under_append]
    rfl

theorem rowBlocks_edges (row : Row) (l : List Model) : ∀ index,
    (rowBlocks row index l).map Prod.fst = (List.range' index l.length).map (.child row) := by
  induction l with
  | nil => exact fun _ => rfl
  | cons m rest ih =>
    intro index
    rw [rowBlocks, List.map_cons, ih, List.length_cons, List.range'_succ, List.map_cons]

/-- The blocks of the parts of a model, with those of its branches given. -/
def blocksOf (m : Model) (branches : List (Edge × List Position)) : List (Edge × List Position) :=
  [(.items, positions (visitsOfOption m.items)),
    (.additionalItems, positions (visitsOfOption m.additionalItems))] ++
  rowBlocks .properties 0 m.properties ++
  [(.values, positions (visitsOfOption m.additionalProperties))] ++ branches

theorem child_injective (row : Row) : Function.Injective (Edge.child row) := fun _ _ h =>
  (Edge.child.inj h).2

/-- The edges of the blocks differ. -/
theorem nodup_blocksOf {m : Model} {branches : List (Edge × List Position)} {indices : List Nat}
    (hedges : branches.map Prod.fst = indices.map .branch) (hnodup : indices.Nodup) :
    ((blocksOf m branches).map Prod.fst).Nodup := by
  have hrows : ((List.range' 0 m.properties.length).map Edge.property ++
      indices.map Edge.branch).Nodup := by
    refine ((List.nodup_range').map (child_injective _)).append
      (hnodup.map (child_injective _)) fun e he he' => ?_
    obtain ⟨j, -, rfl⟩ := List.mem_map.mp he
    obtain ⟨k, -, heq⟩ := List.mem_map.mp he'
    exact absurd (Edge.child.inj heq).1 (by decide)
  simp only [blocksOf, List.map_append, rowBlocks_edges, hedges, List.append_assoc]
  simp only [List.map_cons, List.map_nil, List.cons_append, List.nil_append]
  have hvalues : ((List.range' 0 m.properties.length).map Edge.property ++
      .values :: indices.map Edge.branch).Nodup :=
    List.perm_middle.nodup_iff.mpr (List.nodup_cons.mpr ⟨by simp, hrows⟩)
  exact List.nodup_cons.mpr ⟨by simp, List.nodup_cons.mpr ⟨by simp, hvalues⟩⟩

theorem mem_blocksOf {m : Model} {branches : List (Edge × List Position)}
    {block : Edge × List Position} (h : block ∈ blocksOf m branches) :
    block.2 = positions (visitsOfOption m.items) ∨
    block.2 = positions (visitsOfOption m.additionalItems) ∨
    block.2 = positions (visitsOfOption m.additionalProperties) ∨
    block ∈ rowBlocks .properties 0 m.properties ∨ block ∈ branches := by
  simp only [blocksOf, List.mem_append, List.mem_cons, List.not_mem_nil, or_false] at h
  rcases h with (((rfl | rfl) | h) | rfl) | h
  · exact Or.inl rfl
  · exact Or.inr (Or.inl rfl)
  · exact Or.inr (Or.inr (Or.inr (Or.inl h)))
  · exact Or.inr (Or.inr (Or.inl rfl))
  · exact Or.inr (Or.inr (Or.inr (Or.inr h)))

theorem positions_visitsOf (m : Model) :
    positions (visitsOf m) = under (blocksOf m (rowBlocks .branches 0 m.allOf)) ++ [[]] := by
  obtain ⟨facts, items, extraItems, properties, allOf, value⟩ := m
  simp only [visitsOf, positions_append, positions_below, positions_visitsOfList, blocksOf,
    under_append]
  simp only [under, List.flatMap_cons, List.flatMap_nil, List.append_nil, List.append_assoc]
  rfl

mutual

/-- **No position of a tree is visited twice.** -/
theorem nodup_visitsOf : ∀ m : Model, (positions (visitsOf m)).Nodup
  | ⟨facts, items, extraItems, properties, allOf, value⟩ => by
    have hitems := nodup_visitsOfOption items
    have hextra := nodup_visitsOfOption extraItems
    have hprops := nodup_rowBlocks properties
    have hvalue := nodup_visitsOfOption value
    have hall := nodup_rowBlocks allOf
    rw [positions_visitsOf]
    refine List.nodup_append.mpr ⟨nodup_under (nodup_blocksOf (rowBlocks_edges _ _ _)
      List.nodup_range') fun block hblock => ?_, List.nodup_singleton _, ?_⟩
    · rcases mem_blocksOf hblock with h | h | h | h | h
      · exact h ▸ hitems
      · exact h ▸ hextra
      · exact h ▸ hvalue
      · exact hprops _ _ block h
      · exact hall _ _ block h
    · rintro p hp _ hnil rfl
      exact nil_notMem_under (List.mem_singleton.mp hnil ▸ hp)

theorem nodup_visitsOfOption : ∀ o : Option Model, (positions (visitsOfOption o)).Nodup
  | none => List.nodup_nil
  | some m => nodup_visitsOf m

theorem nodup_rowBlocks : ∀ (l : List Model) (row : Row) (index : Nat),
    ∀ block ∈ rowBlocks row index l, block.2.Nodup
  | [], _, _, block, h => absurd h List.not_mem_nil
  | m :: rest, row, index, block, h => by
    have hm := nodup_visitsOf m
    have hrest := nodup_rowBlocks rest row (index + 1)
    rcases List.mem_cons.mp h with rfl | h
    · exact hm
    · exact hrest block h

end

/-! ## Rendered models -/

variable {l : List Model} {seen declared : List String} {parent : Option Nat}

theorem firsts_indices (l : List Model) : ∀ (seen : List String) (index : Nat),
    ((firsts seen index l).map Prod.fst).Sublist (List.range' index l.length) := by
  induction l with
  | nil => exact fun _ _ => List.nil_sublist _
  | cons m rest ih =>
    intro seen index
    rw [firsts, List.length_cons, List.range'_succ]
    split
    · exact (ih seen (index + 1)).cons _
    · exact (ih (m.name :: seen) (index + 1)).cons_cons _

theorem positions_visitsOfNew (declared : List String) (l : List Model) :
    positions (visitsOfNew declared l) = under ((firsts declared 0 l).map fun entry =>
      (.property entry.1, positions (visitsOf entry.2))) := by
  rw [visitsOfNew]
  generalize firsts declared 0 l = entries
  induction entries with
  | nil => rfl
  | cons entry rest ih =>
    rw [List.flatMap_cons, positions_append, ih, positions_below, ← under_append]
    rfl

theorem nodup_visitsOfNew (declared : List String) (l : List Model) :
    (positions (visitsOfNew declared l)).Nodup := by
  rw [positions_visitsOfNew]
  refine nodup_under ?_ fun block hblock => ?_
  · have hindices := (firsts_indices l declared 0).nodup List.nodup_range'
    rw [List.map_map]
    have hedges := hindices.map (child_injective .properties)
    rwa [List.map_map] at hedges
  · obtain ⟨entry, -, rfl⟩ := List.mem_map.mp hblock
    exact nodup_visitsOf entry.2

/-- The blocks of branches, from number `index` on. -/
def branchBlocks (parent : Option Nat) (declared : List String) (index : Nat) :
    List Model → List (Edge × List Position)
  | [] => []
  | branch :: rest =>
    if parent = some index then
      (.branch index, [[]]) :: branchBlocks parent declared (index + 1) rest
    else
      (.branch index, positions (visitsOfNew declared branch.properties)) ::
        branchBlocks parent (seenWith declared branch.properties) (index + 1) rest

theorem positions_visitsOfBranches (parent : Option Nat) (l : List Model) : ∀ declared index,
    positions (visitsOfBranches parent declared index l) =
      under (branchBlocks parent declared index l) := by
  induction l with
  | nil => exact fun _ _ => rfl
  | cons branch rest ih =>
    intro declared index
    rw [visitsOfBranches, branchBlocks]
    split
    · exact congrArg _ (ih declared (index + 1))
    · rw [positions_append, positions_below, ih, ← under_append]
      rfl

theorem branchBlocks_edges (parent : Option Nat) (l : List Model) : ∀ declared index,
    (branchBlocks parent declared index l).map Prod.fst =
      (List.range' index l.length).map .branch := by
  induction l with
  | nil => exact fun _ _ => rfl
  | cons branch rest ih =>
    intro declared index
    rw [branchBlocks, List.length_cons, List.range'_succ, List.map_cons]
    split <;> rw [List.map_cons, ih]

theorem nodup_branchBlocks (parent : Option Nat) (l : List Model) : ∀ declared index,
    ∀ block ∈ branchBlocks parent declared index l, block.2.Nodup := by
  induction l with
  | nil => exact fun _ _ block h => absurd h List.not_mem_nil
  | cons branch rest ih =>
    intro declared index block h
    rw [branchBlocks] at h
    split at h
    · rcases List.mem_cons.mp h with rfl | h
      · exact List.nodup_singleton _
      · exact ih _ _ block h
    · rcases List.mem_cons.mp h with rfl | h
      · exact nodup_visitsOfNew _ _
      · exact ih _ _ block h

/-- **No position of a rendered model is visited twice.** -/
theorem nodup_visitsOfRendered (m : Model) : (positions (visitsOfRendered m)).Nodup := by
  have hown : positions (visitsOfOwn m) = under (blocksOf m []) ++ [[]] := by
    simp only [visitsOfOwn, positions_append, positions_below, positions_visitsOfList, blocksOf,
      under_append, List.append_nil]
    simp only [under, List.flatMap_cons, List.flatMap_nil, List.append_nil, List.append_assoc]
    rfl
  have hall : under (blocksOf m []) ++ under (branchBlocks m.parentBranch
      (m.properties.map (·.name)) 0 m.allOf) = under (blocksOf m (branchBlocks m.parentBranch
      (m.properties.map (·.name)) 0 m.allOf)) := by
    rw [← under_append, blocksOf, blocksOf, List.append_nil]
  rw [visitsOfRendered, positions_append, hown, positions_visitsOfBranches, List.append_assoc,
    List.singleton_append, List.perm_middle.nodup_iff, hall]
  refine List.nodup_cons.mpr ⟨nil_notMem_under, nodup_under (nodup_blocksOf
    (branchBlocks_edges _ _ _ _) List.nodup_range') fun block hblock => ?_⟩
  rcases mem_blocksOf hblock with h | h | h | h | h
  · exact h ▸ nodup_visitsOfOption _
  · exact h ▸ nodup_visitsOfOption _
  · exact h ▸ nodup_visitsOfOption _
  · exact nodup_rowBlocks _ _ _ block h
  · exact nodup_branchBlocks _ _ _ _ block h

end KclModels.Imports
