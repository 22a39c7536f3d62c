import KclModels.Proofs.Dependencies.Closure

/-!
# Groups of definitions that need each other

A definition needs another if that is reached from it by at least one reference. It is in a group if
it needs itself, and then the group is what it needs and is needed by: all members of a group come to
the same group, which is listed once, with its first member.

What the visits find is stated of the definitions themselves: `Refers` goes by the schemas that stand
in them, and reachability is the closure of that relation.
-/

namespace KclModels

open Relation

/-- A schema in the definition `a` is a reference to the definition `b`. -/
def Definitions.Refers (definitions : Definitions) (a b : String) : Prop :=
  ∃ c t : Schema, definitions.lookup a = some c ∧ t.Within c ∧ t.referenceName = some b ∧
    b ∈ Assoc.keys definitions

namespace Dependencies

variable {d : Dependencies} {a b n : String} {g g' roots : List String}
variable {definitions : Definitions}

/-- The second name is reached from the first by at least one reference. -/
def Needs (d : Dependencies) : String → String → Prop := TransGen fun a b => b ∈ d.successors a

/-- The definitions that are in one group with `n`, in order; none if `n` does not need itself. -/
def group (d : Dependencies) (n : String) : List String := groupOf d.needs n

/-! ## What a definition needs -/

theorem Needs.mem_nodes (h : d.Needs a b) : a ∈ d.nodes := by
  obtain ⟨c, hc, -⟩ := TransGen.head'_iff.mp h
  by_contra hnode
  rw [successors, Assoc.lookup_eq_none hnode] at hc
  exact List.not_mem_nil hc

theorem lookup_needs (hn : n ∈ d.nodes) :
    d.needs.lookup n = some (d.reachable (d.successors n)) := by
  unfold needs
  generalize d.nodes = nodes at hn
  induction nodes with
  | nil => exact absurd hn List.not_mem_nil
  | cons m rest ih =>
    rw [List.map_cons, Assoc.lookup_pair]
    by_cases heq : n = m
    · rw [if_pos heq, heq]
    · rw [if_neg heq]
      exact ih ((List.mem_cons.mp hn).resolve_left heq)

/-- **What is found for a definition is what it needs.** -/
theorem mem_needs_iff : b ∈ (d.needs.lookup a).getD [] ↔ d.Needs a b := by
  constructor
  · intro h
    by_cases hnode : a ∈ d.nodes
    · rw [lookup_needs hnode, Option.getD_some, mem_reachable_iff] at h
      obtain ⟨c, hc, hreaches⟩ := h
      exact TransGen.head' hc hreaches
    · have hnone : d.needs.lookup a = none := by
        refine Assoc.lookup_eq_none fun hkey => hnode ?_
        rw [needs, Assoc.keys, List.map_map] at hkey
        simpa using hkey
      rw [hnone] at h
      exact absurd h List.not_mem_nil
  · intro h
    rw [lookup_needs h.mem_nodes, Option.getD_some, mem_reachable_iff]
    obtain ⟨c, hc, hreaches⟩ := TransGen.head'_iff.mp h
    exact ⟨c, hc, hreaches⟩

/-! ## Groups -/

theorem group_sorted (d : Dependencies) (n : String) : (d.group n).Pairwise (· < ·) := by
  unfold group groupOf
  dsimp only
  split
  · exact Assoc.sorted_nameSet _
  · exact List.Pairwise.nil

/-- **A group holds what its definition needs and is needed by**, if the definition needs itself. -/
theorem mem_group_iff : b ∈ d.group n ↔ d.Needs n b ∧ d.Needs b n := by
  unfold group groupOf
  dsimp only
  split
  · rw [Assoc.mem_nameSet, List.mem_filter, List.contains_iff_mem, mem_needs_iff, mem_needs_iff]
  · rename_i hnot
    rw [List.contains_iff_mem, mem_needs_iff] at hnot
    refine ⟨fun h => absurd h List.not_mem_nil, fun ⟨hneeds, hback⟩ => absurd ?_ hnot⟩
    exact TransGen.trans hneeds hback

/-- The members of a group have the same group. -/
theorem group_eq_of_mem (h : a ∈ d.group n) : d.group a = d.group n := by
  obtain ⟨hna, han⟩ := mem_group_iff.mp h
  refine Assoc.eq_of_sorted (d.group_sorted a) (d.group_sorted n) fun b => ?_
  rw [mem_group_iff, mem_group_iff]
  exact ⟨fun ⟨hab, hba⟩ => ⟨TransGen.trans hna hab, TransGen.trans hba han⟩,
    fun ⟨hnb, hbn⟩ => ⟨TransGen.trans han hnb, TransGen.trans hbn hna⟩⟩

theorem head?_group (h : g ∈ d.cycles) : ∃ n ∈ d.nodes, d.group n = g ∧ g.head? = some n := by
  unfold cycles at h
  obtain ⟨n, hn, hgroup⟩ := List.mem_filterMap.mp h
  dsimp only at hgroup
  split at hgroup
  · rename_i hhead
    obtain rfl := Option.some.inj hgroup
    exact ⟨n, hn, rfl, hhead⟩
  · exact absurd hgroup (by simp)

/-- **The groups that are listed are those of the definitions that need themselves.** -/
theorem mem_cycles_iff : g ∈ d.cycles ↔ ∃ n, d.Needs n n ∧ g = d.group n := by
  constructor
  · intro h
    obtain ⟨n, -, rfl, hhead⟩ := head?_group h
    exact ⟨n, (mem_group_iff.mp (List.mem_of_head? hhead)).1, rfl⟩
  · rintro ⟨n, hn, rfl⟩
    -- the group is listed with its first member
    cases hgroup : d.group n with
    | nil =>
      have hmem : n ∈ d.group n := mem_group_iff.mpr ⟨hn, hn⟩
      rw [hgroup] at hmem
      exact absurd hmem List.not_mem_nil
    | cons first rest =>
      have hfirst : first ∈ d.group n := by rw [hgroup]; exact List.mem_cons_self
      have hsame : groupOf d.needs first = first :: rest := by
        rw [← hgroup]
        exact group_eq_of_mem hfirst
      refine List.mem_filterMap.mpr ⟨first, (mem_group_iff.mp hfirst).2.mem_nodes, ?_⟩
      dsimp only
      rw [hsame, List.head?_cons, if_pos rfl]

/-- A definition is in a group just when it needs itself. -/
theorem exists_group_iff : (∃ g ∈ d.cycles, n ∈ g) ↔ d.Needs n n := by
  constructor
  · rintro ⟨g, hg, hn⟩
    obtain ⟨m, -, rfl⟩ := mem_cycles_iff.mp hg
    obtain ⟨hmn, hnm⟩ := mem_group_iff.mp hn
    exact TransGen.trans hnm hmn
  · exact fun hn => ⟨d.group n, mem_cycles_iff.mpr ⟨n, hn, rfl⟩, mem_group_iff.mpr ⟨hn, hn⟩⟩

/-- A group that is listed is the group of each of its members. -/
theorem eq_group_of_mem (hg : g ∈ d.cycles) (ha : a ∈ g) : g = d.group a := by
  obtain ⟨n, -, rfl⟩ := mem_cycles_iff.mp hg
  exact (group_eq_of_mem ha).symm

/-- **The groups are listed in order**, where definitions are. -/
theorem cycles_sorted (hnodes : d.nodes.Pairwise (· < ·)) : d.cycles.Pairwise (· < ·) := by
  unfold cycles
  refine hnodes.filterMap _ fun a b hlt g hg g' hg' => ?_
  dsimp only at hg hg'
  split at hg
  · rename_i ha
    split at hg'
    · rename_i hb
      obtain rfl := Option.some.inj hg
      obtain rfl := Option.some.inj hg'
      obtain ⟨rest, hrest⟩ := List.head?_eq_some_iff.mp ha
      obtain ⟨rest', hrest'⟩ := List.head?_eq_some_iff.mp hb
      rw [hrest, hrest']
      exact List.Lex.rel hlt
    · exact absurd hg' (by simp)
  · exact absurd hg (by simp)

/-! ## Definitions -/

theorem nodes_sorted (definitions : Definitions) :
    (ofDefinitions definitions).nodes.Pairwise (· < ·) :=
  Assoc.sorted_nil.mergeSorted

theorem mem_nodes_iff : n ∈ (ofDefinitions definitions).nodes ↔ n ∈ Assoc.keys definitions := by
  unfold nodes ofDefinitions Assoc.sortedOfPairs
  rw [Assoc.mem_keys_mergeSorted]
  simp [Assoc.keys]

theorem successors_eq_refers (hkeys : (Assoc.keys definitions).Nodup) :
    (fun a b => b ∈ (ofDefinitions definitions).successors a) = definitions.Refers := by
  funext a b
  refine propext ⟨fun h => ?_, fun ⟨c, t, hc, ht, hname, hb⟩ => ?_⟩
  · obtain ⟨c, hc, hmem, hb⟩ := (mem_successors_iff hkeys).mp h
    obtain ⟨t, ht, hname⟩ := Schema.mem_references.mp hmem
    exact ⟨c, t, hc, ht, hname, hb⟩
  · exact (mem_successors_iff hkeys).mpr ⟨c, hc, Schema.mem_references.mpr ⟨t, ht, hname⟩, hb⟩

/--
**The dependencies of definitions are exact.** A closure is what is reached from its roots, as far as
these are definitions, along references at any depth, in order. The groups are listed in order, each
in order, and they are the classes of definitions that are reached from each other and lie on a
cycle.
-/
theorem closure_cycles_exact (hkeys : (Assoc.keys definitions).Nodup) :
    (∀ roots, ((ofDefinitions definitions).closure roots).Pairwise (· < ·) ∧
      ∀ n, n ∈ (ofDefinitions definitions).closure roots ↔
        ∃ root ∈ roots, root ∈ Assoc.keys definitions ∧
          ReflTransGen definitions.Refers root n) ∧
    (ofDefinitions definitions).cycles.Pairwise (· < ·) ∧
    (∀ g ∈ (ofDefinitions definitions).cycles, g.Pairwise (· < ·)) ∧
    (∀ n, (∃ g ∈ (ofDefinitions definitions).cycles, n ∈ g) ↔ TransGen definitions.Refers n n) ∧
    (∀ g ∈ (ofDefinitions definitions).cycles, ∀ a ∈ g, ∀ b, b ∈ g ↔
      ReflTransGen definitions.Refers a b ∧ ReflTransGen definitions.Refers b a) ∧
    ∀ g ∈ (ofDefinitions definitions).cycles, ∀ g' ∈ (ofDefinitions definitions).cycles,
      ∀ n, n ∈ g → n ∈ g' → g = g' := by
  have hneeds : (ofDefinitions definitions).Needs = TransGen definitions.Refers := by
    rw [← successors_eq_refers hkeys]
    rfl
  have hreaches : (ofDefinitions definitions).Reaches = ReflTransGen definitions.Refers := by
    rw [← successors_eq_refers hkeys]
    rfl
  refine ⟨fun roots => ⟨Assoc.sorted_nameSet _, fun n => ?_⟩, cycles_sorted (nodes_sorted _),
    fun g hg => ?_, fun n => ?_, fun g hg a ha b => ?_, fun g hg g' hg' n hn hn' => ?_⟩
  · simp only [mem_closure_iff, mem_nodes_iff, hreaches]
  · obtain ⟨n, -, rfl⟩ := mem_cycles_iff.mp hg
    exact group_sorted _ n
  · rw [exists_group_iff, hneeds]
  · -- who is in a group lies on a cycle, so a walk can always be made at least one step long
    have hself : TransGen definitions.Refers a a := by
      rw [← hneeds]
      exact exists_group_iff.mp ⟨g, hg, ha⟩
    rw [eq_group_of_mem hg ha, mem_group_iff, hneeds]
    refine ⟨fun h => ⟨h.1.to_reflTransGen, h.2.to_reflTransGen⟩, fun ⟨hab, hba⟩ => ?_⟩
    exact ⟨TransGen.trans_left hself hab, TransGen.trans_right hba hself⟩
  · rw [eq_group_of_mem hg hn, eq_group_of_mem hg' hn']

/-- Orders and their labels need each other, a tree needs itself; a receipt is in no group. -/
def supplies : Definitions := [
  ("Tree", { types := ["object"], properties := [("children",
    { types := ["array"], items := some (.single (.referenceTo "Tree")) })] }),
  ("Order", { types := ["object"], properties := [("label", .referenceTo "Label"),
    ("shop", .referenceTo "Shop")] }),
  ("Label", { types := ["object"], additionalProperties := some (.schema (.referenceTo "Order")) }),
  ("Receipt", { allOf := [.referenceTo "Order"] })]

theorem supplies_exact : (Assoc.keys supplies).Nodup ∧
    (ofDefinitions supplies).cycles = [["Label", "Order"], ["Tree"]] ∧
    (ofDefinitions supplies).closure ["Receipt", "Shop"] = ["Label", "Order", "Receipt"] ∧
    (∀ n, n ∈ ["Label", "Order", "Receipt"] ↔ ∃ root ∈ ["Receipt", "Shop"],
      root ∈ Assoc.keys supplies ∧ ReflTransGen supplies.Refers root n) ∧
    TransGen supplies.Refers "Tree" "Tree" ∧ ¬ TransGen supplies.Refers "Receipt" "Receipt" ∧
    ReflTransGen supplies.Refers "Label" "Order" ∧ ReflTransGen supplies.Refers "Order" "Label" := by
  have hkeys : (Assoc.keys supplies).Nodup := by decide
  have hcycles : (ofDefinitions supplies).cycles = [["Label", "Order"], ["Tree"]] := by
    decide +kernel
  have hclosure : (ofDefinitions supplies).closure ["Receipt", "Shop"] =
      ["Label", "Order", "Receipt"] := by decide +kernel
  obtain ⟨hreached, -, -, hcycle, hclass, -⟩ := closure_cycles_exact hkeys
  rw [hcycles] at hcycle hclass
  refine ⟨hkeys, hcycles, hclosure, hclosure ▸ (hreached _).2, (hcycle "Tree").mp (by simp),
    fun h => ?_, (hclass ["Label", "Order"] (by simp) "Label" (by simp) "Order").mp (by simp)⟩
  simpa using (hcycle "Receipt").mpr h

end Dependencies

end KclModels
