import Mathlib.Logic.Relation
import KclModels.Dependencies
import KclModels.Proofs.Assoc.Sorted
import KclModels.Proofs.Schema.References

/-!
# What is reachable along references

A visit enters each definition once and follows each of its references once. What it was given as
fuel covers that: a step either drops a name that was visited, or enters one whose references are
never followed again. So when it ends nothing is left to do, and it has found just what is reachable.
-/

namespace KclModels

/-! ## References by name -/

namespace Schema

variable {s : Schema} {n : String}

theorem propertyReferences_eq (properties : List (String × Schema)) :
    propertyReferences properties = properties.flatMap fun e => e.2.references := by
  induction properties with
  | nil => rfl
  | cons e rest ih => rw [propertyReferences, ih, List.flatMap_cons]

theorem listReferences_eq (l : List Schema) : listReferences l = l.flatMap references := by
  induction l with
  | nil => rfl
  | cons s rest ih => rw [listReferences, ih, List.flatMap_cons]

theorem extraReferences_eq (e : Option (Extra Schema)) :
    extraReferences e = (e.bind Extra.schema?).toList.flatMap references := by
  rcases e with _ | _ | s
  · rfl
  · rfl
  · exact (List.append_nil _).symm

theorem itemReferences_eq (s : Schema) :
    itemReferences s.items = s.itemSchemas.flatMap references := by
  unfold itemSchemas
  rcases s.items with _ | item | schemas
  · rfl
  · exact (List.append_nil _).symm
  · exact listReferences_eq schemas

/-- A schema refers to what it names itself, and to what its children refer to. -/
theorem references_eq (s : Schema) :
    s.references = s.referenceName.toList ++ s.children.flatMap references := by
  obtain ⟨keywords, properties, allOf, items, value, extraItems⟩ := s
  rw [references, propertyReferences_eq, listReferences_eq, extraReferences_eq,
    extraReferences_eq, itemReferences_eq ⟨keywords, properties, allOf, items, value, extraItems⟩]
  simp only [children, List.flatMap_append, List.flatMap_map, List.append_assoc]
  rfl

/-- **A schema refers to a definition if a schema that stands somewhere in it does.** -/
theorem mem_references : n ∈ s.references ↔ ∃ t : Schema, t.Within s ∧ t.referenceName = some n := by
  constructor
  · induction s using children_induction with
    | step s ih =>
      intro h
      rw [references_eq] at h
      rcases List.mem_append.mp h with h | h
      · exact ⟨s, .refl s, Option.mem_toList.mp h⟩
      · obtain ⟨c, hc, h⟩ := List.mem_flatMap.mp h
        obtain ⟨t, ht, hname⟩ := ih c hc h
        exact ⟨t, .child hc ht, hname⟩
  · rintro ⟨t, ht, hname⟩
    induction ht with
    | refl =>
      rw [references_eq, hname]
      exact List.mem_append_left _ List.mem_cons_self
    | child hc _ ih =>
      rw [references_eq]
      exact List.mem_append_right _ (List.mem_flatMap.mpr ⟨_, hc, ih⟩)

end Schema

namespace Dependencies

variable {d : Dependencies} {n m root : String} {visited todo roots : List String}

/-! ## Visits -/

/-- The second name is reached from the first along references. -/
def Reaches (d : Dependencies) : String → String → Prop :=
  Relation.ReflTransGen fun a b => b ∈ d.successors a

/-- What was visited refers to what was visited or is still to be. -/
def Explored (d : Dependencies) (visited todo : List String) : Prop :=
  ∀ n ∈ visited, ∀ m ∈ d.successors n, m ∈ visited ∨ m ∈ todo

/-- The count of references that are still to be followed. -/
def unfollowed (d : Dependencies) (visited : List String) : Nat :=
  ((d.edges.filter fun e => !visited.contains e.1).flatMap Prod.snd).length

/-- Entering a definition leaves its references out of those to be followed later. -/
theorem unfollowed_enter (h : n ∉ visited) :
    d.unfollowed (n :: visited) + (d.successors n).length ≤ d.unfollowed visited := by
  unfold unfollowed successors
  generalize d.edges = edges
  induction edges with
  | nil => exact Nat.le_refl _
  | cons e rest ih =>
    obtain ⟨k, refs⟩ := e
    rw [Assoc.lookup_pair]
    by_cases hk : n = k
    · subst hk
      rw [if_pos rfl, List.filter_cons_of_neg (by simp), List.filter_cons_of_pos (by simpa using h),
        List.flatMap_cons, List.length_append, Option.getD_some, Nat.add_comm]
      exact Nat.add_le_add_left (Nat.le_trans (Nat.le_add_right _ _) ih) _
    · have hcontains : (n :: visited).contains k = visited.contains k := by
        simp [Ne.symm hk]
      rw [if_neg hk, List.filter_cons, List.filter_cons, hcontains]
      split
      · rw [List.flatMap_cons, List.flatMap_cons, List.length_append, List.length_append]
        omega
      · exact ih

/-- From what was visited nothing is reached but what was visited, or is reached from the rest. -/
theorem Explored.reaches (h : d.Explored visited todo) (hroot : root ∈ visited)
    (hn : d.Reaches root n) : n ∈ visited ∨ ∃ other ∈ todo, d.Reaches other n := by
  induction hn with
  | refl => exact Or.inl hroot
  | tail _ hstep ih =>
    rcases ih with hmem | ⟨other, hother, hreaches⟩
    · rcases h _ hmem _ hstep with hmem | hmem
      · exact Or.inl hmem
      · exact Or.inr ⟨_, hmem, .refl⟩
    · exact Or.inr ⟨other, hother, hreaches.tail hstep⟩

theorem Explored.enter (h : d.Explored visited (n :: todo)) :
    d.Explored (n :: visited) (d.successors n ++ todo) := by
  intro k hk m hm
  rcases List.mem_cons.mp hk with rfl | hk
  · exact Or.inr (List.mem_append_left _ hm)
  · rcases h k hk m hm with hm | hm
    · exact Or.inl (List.mem_cons_of_mem _ hm)
    · rcases List.mem_cons.mp hm with rfl | hm
      · exact Or.inl List.mem_cons_self
      · exact Or.inr (List.mem_append_right _ hm)

/-- **A visit with enough fuel finds what is reachable**, and nothing else. -/
theorem mem_visit_iff : ∀ {fuel : Nat} {visited todo : List String}, d.Explored visited todo →
    d.unfollowed visited + todo.length ≤ fuel →
    (n ∈ d.visit fuel visited todo ↔ n ∈ visited ∨ ∃ root ∈ todo, d.Reaches root n) := by
  intro fuel
  induction fuel with
  | zero =>
    intro visited todo _ hfuel
    obtain rfl : todo = [] := List.eq_nil_of_length_eq_zero (by omega)
    simp [visit]
  | succ fuel ih =>
    intro visited todo h hfuel
    match todo with
    | [] => simp [visit]
    | name :: todo =>
      rw [List.length_cons] at hfuel
      rw [visit]
      by_cases hname : name ∈ visited
      · -- what is reached from a name that was visited is found without it
        have hless : d.Explored visited todo := fun k hk m hm => by
          rcases h k hk m hm with hm | hm
          · exact Or.inl hm
          · exact (List.mem_cons.mp hm).imp_left fun (heq : m = name) => heq ▸ hname
        rw [if_pos (List.contains_iff_mem.mpr hname), ih hless (by omega)]
        refine ⟨fun hn => hn.imp_right fun ⟨root, hroot, hreaches⟩ =>
          ⟨root, List.mem_cons_of_mem _ hroot, hreaches⟩, ?_⟩
        rintro (hn | ⟨root, hroot, hreaches⟩)
        · exact Or.inl hn
        · rcases List.mem_cons.mp hroot with rfl | hroot
          · exact hless.reaches hname hreaches
          · exact Or.inr ⟨root, hroot, hreaches⟩
      · have hcount := unfollowed_enter (d := d) hname
        have hnot : ¬ visited.contains name = true := List.contains_iff_mem.not.mpr hname
        rw [if_neg hnot, ih h.enter (by rw [List.length_append]; omega)]
        constructor
        · rintro (hn | ⟨root, hroot, hreaches⟩)
          · rcases List.mem_cons.mp hn with rfl | hn
            · exact Or.inr ⟨n, List.mem_cons_self, .refl⟩
            · exact Or.inl hn
          · rcases List.mem_append.mp hroot with hroot | hroot
            · exact Or.inr ⟨name, List.mem_cons_self, hreaches.head hroot⟩
            · exact Or.inr ⟨root, List.mem_cons_of_mem _ hroot, hreaches⟩
        · rintro (hn | ⟨root, hroot, hreaches⟩)
          · exact Or.inl (List.mem_cons_of_mem _ hn)
          · rcases List.mem_cons.mp hroot with rfl | hroot
            · rcases hreaches.cases_head with rfl | ⟨next, hstep, hreaches⟩
              · exact Or.inl List.mem_cons_self
              · exact Or.inr ⟨next, List.mem_append_left _ hstep, hreaches⟩
            · exact Or.inr ⟨root, List.mem_append_right _ hroot, hreaches⟩

theorem mem_reachable_iff : n ∈ d.reachable todo ↔ ∃ root ∈ todo, d.Reaches root n := by
  have hfuel : d.unfollowed [] + todo.length ≤ d.visitBound todo := by
    have hall : d.edges.filter (fun e => !([] : List String).contains e.1) = d.edges :=
      List.filter_eq_self.mpr fun _ _ => rfl
    rw [unfollowed, hall, visitBound]
    omega
  rw [reachable, mem_visit_iff (fun n hn => absurd hn List.not_mem_nil) hfuel]
  simp

/-- **A closure holds the roots that are definitions, and all that is reached from these.** -/
theorem mem_closure_iff :
    n ∈ d.closure roots ↔ ∃ root ∈ roots, root ∈ d.nodes ∧ d.Reaches root n := by
  rw [closure, Assoc.mem_nameSet, mem_reachable_iff]
  simp only [List.mem_filter, List.contains_iff_mem, and_assoc]

/-- With a name a closure holds all that the name refers to. -/
theorem closure_closed (hn : n ∈ d.closure roots) (hm : m ∈ d.successors n) :
    m ∈ d.closure roots := by
  obtain ⟨root, hroot, hnode, hreaches⟩ := mem_closure_iff.mp hn
  exact mem_closure_iff.mpr ⟨root, hroot, hnode, hreaches.tail hm⟩

/-! ## References between definitions -/

variable {definitions : Definitions}

/-- **A definition needs the definitions that schemas in it refer to.** -/
theorem mem_successors_iff (hnodup : (Assoc.keys definitions).Nodup) :
    m ∈ (ofDefinitions definitions).successors n ↔
      ∃ c, definitions.lookup n = some c ∧ m ∈ c.references ∧ m ∈ Assoc.keys definitions := by
  -- each definition has its own entry, whatever the other definitions are
  have hlookup : ∀ defs : Definitions, (defs.map fun e =>
      (e.1, Assoc.nameSet (e.2.references.filter (Assoc.has definitions)))).lookup n =
      (defs.lookup n).map fun s =>
        Assoc.nameSet (s.references.filter (Assoc.has definitions)) := by
    intro defs
    induction defs with
    | nil => rfl
    | cons e rest ih =>
      rw [List.map_cons, Assoc.lookup_pair, Assoc.lookup_pair, ih]
      split <;> rfl
  have hkeys : (Assoc.keys (definitions.map fun e =>
      (e.1, Assoc.nameSet (e.2.references.filter (Assoc.has definitions))))).Nodup := by
    rw [Assoc.keys, List.map_map]
    exact hnodup
  have hsuccessors : (ofDefinitions definitions).successors n =
      ((definitions.lookup n).map fun s =>
        Assoc.nameSet (s.references.filter (Assoc.has definitions))).getD [] := by
    rw [← hlookup, ← Assoc.lookup_sortedOfPairs hkeys]
    rfl
  rw [hsuccessors]
  cases definitions.lookup n with
  | none => simp
  | some c => simp [Assoc.mem_nameSet, Assoc.has_iff_mem_keys]

end Dependencies

end KclModels
