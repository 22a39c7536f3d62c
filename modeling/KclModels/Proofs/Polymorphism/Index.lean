import KclModels.Polymorphism
import KclModels.Proofs.Assoc.Sorted

/-!
# The bases and their subtypes

The bases and the subtypes of a document are two maps that are written at the same time. A definition
may compose a base more than once, or several bases, or be a base itself, and what is written later
takes the place of what is there.

All of this is said by the links, which are the branches that refer to something, in the order they
are gone through. A link to a base adds to the children of that base and sets the entry of its
definition; any other does nothing. So the children of a base come from the links to it, and the
entry of a definition from its last link to a base.
-/

namespace KclModels.Polymorphism

variable {definitions definitions' : Definitions} {p : Polymorphism} {n k x : String} {s : Schema}

/-! ## The order of the definitions -/

theorem byName_perm (definitions : Definitions) : (byName definitions).Perm definitions :=
  sortBy_perm _ definitions

/-- The definitions by name stand in the order of their names. -/
theorem byName_pairwise (definitions : Definitions) :
    (byName definitions).Pairwise fun a b => a.1 ≤ b.1 :=
  (sortBy_pairwise Assoc.orders_key definitions).imp of_decide_eq_true

theorem byName_nodup (hnodup : (Assoc.keys definitions).Nodup) :
    (Assoc.keys (byName definitions)).Nodup :=
  ((byName_perm definitions).map Prod.fst).nodup_iff.mpr hnodup

theorem byName_eq_of_perm (hperm : definitions'.Perm definitions)
    (hnodup : (Assoc.keys definitions).Nodup) : byName definitions' = byName definitions := by
  have hnodup' : (Assoc.keys definitions').Nodup := (hperm.map Prod.fst).nodup_iff.mpr hnodup
  exact Assoc.eq_of_perm_of_sorted ((byName_perm _).trans (hperm.trans (byName_perm _).symm))
    (Assoc.sorted_sortBy hnodup') (Assoc.sorted_sortBy hnodup)

theorem ofDefinitions_perm (hperm : definitions'.Perm definitions)
    (hnodup : (Assoc.keys definitions).Nodup) :
    ofDefinitions definitions' = ofDefinitions definitions := by
  rw [ofDefinitions, ofDefinitions, byName_eq_of_perm hperm hnodup]

/-! ## Links -/

/-- A branch of a definition that refers to something. -/
structure Link where
  name : String
  schema : Schema
  reference : String

/-- The links of a definition, in the order of its branches. -/
def linksOf (e : String × Schema) : List Link :=
  e.2.allOf.filterMap fun branch => branch.reference.map (Link.mk e.1 e.2)

def links (definitions : Definitions) : List Link := definitions.flatMap linksOf

/-- What the definition of a link is to a base. -/
def Link.child (l : Link) (base : Base) : Subtype := subtypeOf l.name l.schema l.reference base

/-- What the definition of a link is to the base that the link refers to, if there is one. -/
def child? (p : Polymorphism) (l : Link) : Option Subtype :=
  (p.bases.lookup l.reference).map l.child

/-- Goes through one link. -/
def enter (p : Polymorphism) (l : Link) : Polymorphism :=
  match p.bases.lookup l.reference with
  | none => p
  | some base =>
    { bases := Assoc.putSorted p.bases l.reference
        { base with children := base.children ++ [l.child base] }
      subtypes := Assoc.putSorted p.subtypes (Reference.toDefinition l.name) (l.child base) }

/-- The bases before any link is gone through. -/
def unlinked (definitions : Definitions) : List (String × Base) :=
  Assoc.sortedOfPairs ((byName definitions).filterMap fun e =>
    (base? e.1 e.2).map fun b => (Reference.toDefinition e.1, b))

theorem foldl_register (e : String × Schema) (p : Polymorphism) :
    e.2.allOf.foldl (register e.1 e.2) p = (linksOf e).foldl enter p := by
  rw [linksOf, List.foldl_filterMap]
  congr 1
  funext p branch
  unfold register
  cases branch.reference <;> rfl

/-- **The bases and subtypes are what the links make of the bases alone.** -/
theorem ofDefinitions_eq (definitions : Definitions) : ofDefinitions definitions =
    (links (byName definitions)).foldl enter { bases := unlinked definitions } := by
  rw [links, List.foldl_flatMap]
  simp only [← foldl_register]
  rfl

/-! ## One link -/

variable {l : Link} {ls : List Link}

theorem lookup_bases_enter (p : Polymorphism) (l : Link) (x : String) :
    (p.enter l).bases.lookup x = (p.bases.lookup x).map fun base =>
      if l.reference = x then { base with children := base.children ++ [l.child base] }
      else base := by
  unfold enter
  by_cases hx : l.reference = x
  · subst hx
    cases hbase : p.bases.lookup l.reference with
    | none => simp [hbase]
    | some base => simp [Assoc.lookup_putSorted]
  · cases hbase : p.bases.lookup l.reference with
    | none => simp [hx]
    | some base => simp [Assoc.lookup_putSorted, hx, Ne.symm hx]

theorem lookup_subtypes_enter (p : Polymorphism) (l : Link) (k : String) :
    (p.enter l).subtypes.lookup k =
      if Reference.toDefinition l.name = k then (p.child? l).or (p.subtypes.lookup k)
      else p.subtypes.lookup k := by
  unfold enter child?
  cases hbase : p.bases.lookup l.reference with
  | none => simp
  | some base =>
    by_cases hk : Reference.toDefinition l.name = k
    · simp [Assoc.lookup_putSorted, hk]
    · simp [Assoc.lookup_putSorted, hk, Ne.symm hk]

/-- A link changes the children of bases, and what a definition is to a base does not depend on them. -/
theorem child?_enter (p : Polymorphism) (l : Link) : (p.enter l).child? = p.child? := by
  funext m
  unfold child?
  rw [lookup_bases_enter, Option.map_map]
  refine congrArg (Option.map · _) (funext fun base => ?_)
  rw [Function.comp_apply]
  split <;> rfl

theorem sorted_bases_enter (h : Assoc.Sorted p.bases) : Assoc.Sorted (p.enter l).bases := by
  unfold enter
  split
  · exact h
  · exact h.putSorted

theorem sorted_subtypes_enter (h : Assoc.Sorted p.subtypes) : Assoc.Sorted (p.enter l).subtypes := by
  unfold enter
  split
  · exact h
  · exact h.putSorted

/-! ## All links -/

/-- **The children that a base gets come from the links to it**, in order. -/
theorem lookup_bases_entered (ls : List Link) (p : Polymorphism) (x : String) :
    (ls.foldl enter p).bases.lookup x = (p.bases.lookup x).map fun base =>
      { base with children := base.children ++
          (ls.filter (·.reference = x)).map fun l => l.child base } := by
  induction ls generalizing p with
  | nil => simp
  | cons l rest ih =>
    rw [List.foldl_cons, ih, lookup_bases_enter, Option.map_map]
    refine congrArg (Option.map · _) (funext fun base => ?_)
    by_cases hx : l.reference = x
    · simp [hx, Link.child, subtypeOf]
    · simp [hx]

/-- **The entry that a definition gets comes from its last link to a base.** -/
theorem lookup_subtypes_entered (ls : List Link) (p : Polymorphism) (k : String) :
    (ls.foldl enter p).subtypes.lookup k =
      ((ls.filter fun l => Reference.toDefinition l.name = k).filterMap p.child?).getLast?.or
        (p.subtypes.lookup k) := by
  induction ls generalizing p with
  | nil => simp
  | cons l rest ih =>
    rw [List.foldl_cons, ih, child?_enter, lookup_subtypes_enter]
    by_cases hk : Reference.toDefinition l.name = k
    · rw [if_pos hk, List.filter_cons_of_pos (by simpa using hk), List.filterMap_cons]
      cases hchild : p.child? l with
      | none => rw [Option.none_or]
      | some child =>
        rw [List.getLast?_cons, Option.some_or, Option.some_or]
        cases List.getLast? _ <;> rfl
    · rw [if_neg hk, List.filter_cons_of_neg (by simpa using hk)]

theorem sorted_entered (hb : Assoc.Sorted p.bases) (hs : Assoc.Sorted p.subtypes) :
    Assoc.Sorted (ls.foldl enter p).bases ∧ Assoc.Sorted (ls.foldl enter p).subtypes := by
  induction ls generalizing p with
  | nil => exact ⟨hb, hs⟩
  | cons l rest ih => exact ih (sorted_bases_enter hb) (sorted_subtypes_enter hs)

/-! ## The links of definitions -/

theorem mem_linksOf {e : String × Schema} : l ∈ linksOf e ↔
    ∃ branch ∈ e.2.allOf, ∃ x, branch.reference = some x ∧ l = ⟨e.1, e.2, x⟩ := by
  unfold linksOf
  rw [List.mem_filterMap]
  constructor
  · rintro ⟨branch, hbranch, h⟩
    obtain ⟨x, hx, rfl⟩ := Option.map_eq_some_iff.mp h
    exact ⟨branch, hbranch, x, hx, rfl⟩
  · rintro ⟨branch, hbranch, x, hx, rfl⟩
    exact ⟨branch, hbranch, by rw [hx, Option.map_some]⟩

theorem name_of_mem_linksOf {e : String × Schema} (h : l ∈ linksOf e) : l.name = e.1 := by
  obtain ⟨-, -, x, -, rfl⟩ := mem_linksOf.mp h
  rfl

/-- The links to one reference are the branches that are that reference. -/
theorem links_to {α : Type} (f : Link → α) (definitions : Definitions) (x : String) :
    ((links definitions).filter (·.reference = x)).map f = definitions.flatMap fun e =>
      (e.2.allOf.filter (·.reference = some x)).map fun _ => f ⟨e.1, e.2, x⟩ := by
  rw [links, List.filter_flatMap, List.map_flatMap]
  refine congrArg (List.flatMap · definitions) (funext fun e => ?_)
  unfold linksOf
  induction e.2.allOf with
  | nil => rfl
  | cons branch rest ih =>
    cases hbranch : branch.reference with
    | none => simpa [hbranch] using ih
    | some y =>
      by_cases hy : y = x
      · simpa [hbranch, hy] using ih
      · simpa [hbranch, hy] using ih

theorem filter_linksOf (e : String × Schema) (n : String) :
    (linksOf e).filter (fun l => Reference.toDefinition l.name = Reference.toDefinition n) =
      if e.1 = n then linksOf e else [] := by
  by_cases hn : e.1 = n
  · rw [if_pos hn]
    refine List.filter_eq_self.mpr fun l hl => ?_
    simpa [name_of_mem_linksOf hl] using hn
  · rw [if_neg hn]
    refine List.filter_eq_nil_iff.mpr fun l hl => ?_
    simpa [name_of_mem_linksOf hl] using hn

/-- The links with the name of a definition are the links of that definition. -/
theorem links_named (hnodup : (Assoc.keys definitions).Nodup) (hmem : (n, s) ∈ definitions) :
    (links definitions).filter (fun l => Reference.toDefinition l.name = Reference.toDefinition n) =
      linksOf (n, s) := by
  rw [links, List.filter_flatMap]
  simp only [filter_linksOf]
  induction definitions with
  | nil => exact absurd hmem List.not_mem_nil
  | cons e rest ih =>
    obtain ⟨he, hrest⟩ := List.nodup_cons.mp hnodup
    rw [List.flatMap_cons]
    rcases List.mem_cons.mp hmem with rfl | hmem
    · -- no other definition has the name
      have hothers : (rest.flatMap fun e => if e.1 = n then linksOf e else []) = [] := by
        refine List.flatMap_eq_nil_iff.mpr fun other hother => if_neg ?_
        intro heq
        exact he (List.mem_map.mpr ⟨other, hother, heq⟩)
      rw [if_pos rfl, hothers, List.append_nil]
    · have hne : e.1 ≠ n := by
        intro heq
        exact he (List.mem_map.mpr ⟨_, hmem, heq.symm⟩)
      rw [if_neg hne, List.nil_append, ih hrest hmem]

/-! ## The bases alone -/

/-- The bases among definitions, with their references. -/
theorem keys_bases (definitions : Definitions) :
    Assoc.keys (definitions.filterMap fun e =>
      (base? e.1 e.2).map fun b => (Reference.toDefinition e.1, b)) =
    (definitions.filter (·.2.discriminator.isSome)).map fun e => Reference.toDefinition e.1 := by
  induction definitions with
  | nil => rfl
  | cons e rest ih =>
    unfold Assoc.keys at ih ⊢
    cases hfield : e.2.discriminator with
    | none => simpa [base?, hfield] using ih
    | some field => simpa [base?, hfield] using ih

theorem nodup_keys_bases (hnodup : (Assoc.keys definitions).Nodup) :
    (Assoc.keys (definitions.filterMap fun e =>
      (base? e.1 e.2).map fun b => (Reference.toDefinition e.1, b))).Nodup := by
  have hnames : ((definitions.filter (·.2.discriminator.isSome)).map Prod.fst).Nodup :=
    hnodup.sublist (List.filter_sublist.map Prod.fst)
  have hmap := hnames.map fun _ _ h => Reference.toDefinition_inj.mp h
  rw [List.map_map] at hmap
  rw [keys_bases]
  exact hmap

theorem keys_unlinked (hnodup : (Assoc.keys definitions).Nodup) :
    (Assoc.keys (unlinked definitions)).Perm
      ((definitions.filter (·.2.discriminator.isSome)).map fun e =>
        Reference.toDefinition e.1) := by
  have hsorted := (Assoc.sortedOfPairs_perm (nodup_keys_bases (byName_nodup hnodup))).map Prod.fst
  have hkeys := keys_bases (byName definitions)
  exact (hsorted.trans (.of_eq hkeys)).trans (((byName_perm definitions).filter _).map _)

theorem lookup_unlinked (hnodup : (Assoc.keys definitions).Nodup) (hmem : (n, s) ∈ definitions)
    {field : String} (hfield : s.discriminator = some field) :
    (unlinked definitions).lookup (Reference.toDefinition n) =
      some { fieldName := field, kclType := typeName n s, jsonName := n } := by
  have hpairs := nodup_keys_bases (byName_nodup hnodup)
  rw [unlinked, Assoc.lookup_sortedOfPairs hpairs]
  refine Assoc.lookup_of_mem hpairs (List.mem_filterMap.mpr ⟨(n, s), mem_sortBy.mpr hmem, ?_⟩)
  simp [base?, hfield]

theorem children_of_unlinked {base : Base} (h : (unlinked definitions).lookup x = some base) :
    base.children = [] := by
  rcases Assoc.mem_mergeSorted (Assoc.mem_of_lookup h) with hnil | hmem
  · exact absurd hnil List.not_mem_nil
  · obtain ⟨e, -, he⟩ := List.mem_filterMap.mp hmem
    obtain ⟨b, hb, heq⟩ := Option.map_eq_some_iff.mp he
    obtain ⟨field, -, rfl⟩ := Option.map_eq_some_iff.mp hb
    rw [← (Prod.mk.inj heq).2]

/-! ## The two maps agree -/

/-- The last branch of a schema that refers to a base refers to `x`. -/
def RefersLast (p : Polymorphism) (s : Schema) (x : String) : Prop :=
  ∃ before branch after, s.allOf = before ++ branch :: after ∧ branch.reference = some x ∧
    ∀ later ∈ after, ∀ y, later.reference = some y → p.bases.lookup y = none

/-- The bases and subtypes are those of the definitions, and each map says what the other does. -/
structure Indexes (definitions : Definitions) (p : Polymorphism) : Prop where
  /-- No reference has more than one entry. -/
  sorted : Assoc.Sorted p.bases ∧ Assoc.Sorted p.subtypes
  /-- There is a base for each definition with a discriminator, and for nothing else. -/
  bases : (Assoc.keys p.bases).Perm
    ((definitions.filter (·.2.discriminator.isSome)).map fun e => Reference.toDefinition e.1)
  base : ∀ n s field, (n, s) ∈ definitions → s.discriminator = some field →
    ∃ children, p.bases.lookup (Reference.toDefinition n) =
      some { fieldName := field, kclType := typeName n s, jsonName := n, children }
  /-- The children of a base stand in the order of their names. -/
  ordered : ∀ x base, p.bases.lookup x = some base →
    base.children.Pairwise fun c d => c.jsonName ≤ d.jsonName
  /-- There is a child for each branch that refers to the base, and for nothing else. -/
  children : ∀ x base, p.bases.lookup x = some base →
    base.children.Perm (definitions.flatMap fun e =>
      (e.2.allOf.filter (·.reference = some x)).map fun _ => subtypeOf e.1 e.2 x base)
  /-- A definition is a subtype if it is a child of some base. -/
  subtypes : ∀ k, p.isSubtype k = true ↔
    ∃ x base, p.bases.lookup x = some base ∧ ∃ c ∈ base.children, c.reference = k
  /-- A subtype is a child of the base that it names, which is the last one that it refers to. -/
  entry : ∀ k child, p.subtypes.lookup k = some child →
    ∃ base, p.bases.lookup child.parentReference = some base ∧ child ∈ base.children ∧
      ∃ n s, (n, s) ∈ definitions ∧ k = Reference.toDefinition n ∧
        p.RefersLast s child.parentReference ∧
        child = {
          fieldName := base.fieldName
          fieldValue := s.hints.discriminatorValue.getD n
          kclType := typeName n s
          jsonName := n
          reference := k
          parentReference := child.parentReference }

/-- The bases are those from before any link, with the links to each of them as its children. -/
theorem lookup_bases (definitions : Definitions) (x : String) :
    (ofDefinitions definitions).bases.lookup x =
      ((unlinked definitions).lookup x).map fun base =>
        { base with children :=
            ((links (byName definitions)).filter (·.reference = x)).map fun l => l.child base } := by
  rw [ofDefinitions_eq, lookup_bases_entered]
  cases hbase : (unlinked definitions).lookup x with
  | none => rfl
  | some base => simp [children_of_unlinked hbase]

/-- What the bases make of a link does not depend on the links that were gone through. -/
theorem child?_ofDefinitions (definitions : Definitions) :
    (ofDefinitions definitions).child? = child? { bases := unlinked definitions } := by
  funext l
  unfold child?
  rw [lookup_bases, Option.map_map]
  rfl

theorem lookup_subtypes (definitions : Definitions) (k : String) :
    (ofDefinitions definitions).subtypes.lookup k =
      (((links (byName definitions)).filter fun l => Reference.toDefinition l.name = k).filterMap
        (ofDefinitions definitions).child?).getLast? := by
  rw [child?_ofDefinitions, ofDefinitions_eq, lookup_subtypes_entered, List.lookup_nil,
    Option.or_none]

theorem sorted_ofDefinitions (definitions : Definitions) :
    Assoc.Sorted (ofDefinitions definitions).bases ∧
      Assoc.Sorted (ofDefinitions definitions).subtypes := by
  rw [ofDefinitions_eq]
  exact sorted_entered Assoc.sorted_nil.mergeSorted Assoc.sorted_nil

/-- No link makes a base. -/
theorem keys_ofDefinitions (definitions : Definitions) :
    Assoc.keys (ofDefinitions definitions).bases = Assoc.keys (unlinked definitions) := by
  refine Assoc.eq_of_sorted (sorted_ofDefinitions definitions).1 Assoc.sorted_nil.mergeSorted ?_
  intro k
  rw [← Assoc.has_iff_mem_keys, ← Assoc.has_iff_mem_keys, Assoc.has, Assoc.has, lookup_bases,
    Option.isSome_map]

variable {base : Base} {child : Subtype}

theorem children_eq (h : (ofDefinitions definitions).bases.lookup x = some base) :
    base.children = (byName definitions).flatMap fun e =>
      (e.2.allOf.filter (·.reference = some x)).map fun _ => subtypeOf e.1 e.2 x base := by
  rw [lookup_bases] at h
  obtain ⟨start, -, rfl⟩ := Option.map_eq_some_iff.mp h
  exact links_to (fun l => l.child start) (byName definitions) x

/-- The children of a base are what its links make of it. -/
theorem mem_children (h : (ofDefinitions definitions).bases.lookup x = some base) :
    child ∈ base.children ↔
      ∃ l ∈ links (byName definitions), l.reference = x ∧ l.child base = child := by
  rw [lookup_bases] at h
  obtain ⟨start, -, rfl⟩ := Option.map_eq_some_iff.mp h
  simp only [List.mem_map, List.mem_filter, decide_eq_true_eq, and_assoc]
  rfl

theorem children_ordered (h : (ofDefinitions definitions).bases.lookup x = some base) :
    base.children.Pairwise fun c d => c.jsonName ≤ d.jsonName := by
  have hname : ∀ {e : String × Schema} {c}, c ∈ (e.2.allOf.filter (·.reference = some x)).map
      (fun _ => subtypeOf e.1 e.2 x base) → c.jsonName = e.1 := by
    intro e c hc
    obtain ⟨-, -, rfl⟩ := List.mem_map.mp hc
    rfl
  rw [children_eq h, List.pairwise_flatMap]
  constructor
  · intro e _
    refine List.pairwise_of_forall_mem_list fun c hc d hd => ?_
    rw [hname hc, hname hd]
  · refine (byName_pairwise definitions).imp fun {e e'} hle c hc d hd => ?_
    rw [hname hc, hname hd]
    exact hle

theorem isSubtype_iff (definitions : Definitions) (k : String) :
    (ofDefinitions definitions).isSubtype k = true ↔
      ∃ x base, (ofDefinitions definitions).bases.lookup x = some base ∧
        ∃ c ∈ base.children, c.reference = k := by
  rw [isSubtype, Assoc.has, lookup_subtypes, List.getLast?_isSome]
  constructor
  · intro hne
    obtain ⟨child, hchild⟩ := List.exists_mem_of_ne_nil _ hne
    obtain ⟨l, hl, hchild⟩ := List.mem_filterMap.mp hchild
    obtain ⟨hlinks, hk⟩ := List.mem_filter.mp hl
    obtain ⟨base, hbase, rfl⟩ := Option.map_eq_some_iff.mp hchild
    exact ⟨l.reference, base, hbase, l.child base, (mem_children hbase).mpr ⟨l, hlinks, rfl, rfl⟩,
      of_decide_eq_true hk⟩
  · rintro ⟨x, base, hbase, c, hc, rfl⟩
    obtain ⟨l, hlinks, rfl, rfl⟩ := (mem_children hbase).mp hc
    have hfound : (ofDefinitions definitions).child? l = some (l.child base) := by
      rw [child?, hbase, Option.map_some]
    exact List.ne_nil_of_mem (List.mem_filterMap.mpr
      ⟨l, List.mem_filter.mpr ⟨hlinks, decide_eq_true rfl⟩, hfound⟩)

/-- **The entry of a definition comes from its last branch that refers to a base.** -/
theorem refersLast_of_lookup (hnodup : (Assoc.keys definitions).Nodup)
    (h : (ofDefinitions definitions).subtypes.lookup k = some child) :
    ∃ n s base, (n, s) ∈ definitions ∧ k = Reference.toDefinition n ∧
      (ofDefinitions definitions).bases.lookup child.parentReference = some base ∧
      child = subtypeOf n s child.parentReference base ∧
      (ofDefinitions definitions).RefersLast s child.parentReference := by
  rw [lookup_subtypes] at h
  -- the definition that the entry is for
  obtain ⟨l, hl, -⟩ := List.mem_filterMap.mp (List.mem_of_getLast? h)
  obtain ⟨hlinks, hk⟩ := List.mem_filter.mp hl
  obtain ⟨e, he, hle⟩ := List.mem_flatMap.mp hlinks
  obtain ⟨n, s⟩ := e
  obtain rfl : Reference.toDefinition n = k := by
    rw [← of_decide_eq_true hk, name_of_mem_linksOf hle]
  rw [links_named (byName_nodup hnodup) he, linksOf, List.filterMap_filterMap] at h
  -- its branches, cut at the last one that refers to a base
  obtain ⟨ys, hys⟩ := List.getLast?_eq_some_iff.mp h
  obtain ⟨front, back, hsplit, -, hback⟩ := List.filterMap_eq_append_iff.mp hys
  obtain ⟨between, branch, after, rfl, -, hbranch, hafter⟩ := List.filterMap_eq_cons_iff.mp hback
  obtain ⟨link, hlink, hchild⟩ := Option.bind_eq_some_iff.mp hbranch
  obtain ⟨x, hx, rfl⟩ := Option.map_eq_some_iff.mp hlink
  obtain ⟨base, hbase, rfl⟩ := Option.map_eq_some_iff.mp hchild
  refine ⟨n, s, base, mem_sortBy.mp he, rfl, hbase, rfl, front ++ between, branch, after, ?_, hx, ?_⟩
  · rw [List.append_assoc]
    exact hsplit
  · intro later hlater y hy
    have hnone := List.filterMap_eq_nil_iff.mp hafter later hlater
    rw [hy, Option.map_some, Option.bind_some] at hnone
    exact Option.map_eq_none_iff.mp hnone

/--
**The bases and subtypes of a document agree**, and they are the same for the definitions in any
other order.
-/
theorem ofDefinitions_indexes (definitions : Definitions)
    (hnodup : (Assoc.keys definitions).Nodup) :
    Indexes definitions (ofDefinitions definitions) ∧
      ∀ definitions', definitions'.Perm definitions →
        ofDefinitions definitions' = ofDefinitions definitions := by
  refine ⟨{
    sorted := sorted_ofDefinitions definitions
    bases := keys_ofDefinitions definitions ▸ keys_unlinked hnodup
    base := ?_
    ordered := fun x base hbase => children_ordered hbase
    children := ?_
    subtypes := isSubtype_iff definitions
    entry := ?_ }, fun definitions' hperm => ofDefinitions_perm hperm hnodup⟩
  · intro n s field hmem hfield
    simp only [lookup_bases, lookup_unlinked hnodup hmem hfield, Option.map_some,
      Option.some.injEq, Base.mk.injEq, true_and, exists_eq']
  · intro x base hbase
    rw [children_eq hbase]
    exact (byName_perm definitions).flatMap_right _
  · intro k child hchild
    obtain ⟨n, s, base, hmem, rfl, hbase, heq, hlast⟩ := refersLast_of_lookup hnodup hchild
    -- the branch that made the entry is also what made the link
    have hlink : child ∈ base.children := by
      obtain ⟨before, branch, after, hsplit, hbranch, -⟩ := hlast
      have hin : branch ∈ s.allOf := by
        rw [hsplit]
        exact List.mem_append_right _ List.mem_cons_self
      refine (mem_children hbase).mpr ⟨⟨n, s, child.parentReference⟩, ?_, rfl, heq.symm⟩
      exact List.mem_flatMap.mpr ⟨(n, s), mem_sortBy.mpr hmem,
        mem_linksOf.mpr ⟨branch, hin, _, hbranch, rfl⟩⟩
    exact ⟨base, hbase, hlink, n, s, hmem, rfl, hlast, heq⟩

/-- A base that composes another base, and a definition that composes both of them, one twice. -/
def pets : Definitions :=
  let pet : Schema := .referenceTo "Pet"
  let animal : Schema := .referenceTo "Animal"
  [("Pet", { discriminator := some "kind", allOf := [animal] }),
    ("Dog", { allOf := [pet, animal, .typed "object", pet, .referenceTo "Cat"] }),
    ("Cat", { hints := { discriminatorValue := some "cat" }, allOf := [animal] }),
    ("Animal", { discriminator := some "species" })]

theorem pets_indexed : (Assoc.keys pets).Nodup ∧ Indexes pets (ofDefinitions pets) ∧
    (ofDefinitions pets).bases.map (fun e => (e.1, e.2.children.map (·.jsonName))) =
      [("#/definitions/Animal", ["Cat", "Dog", "Pet"]), ("#/definitions/Pet", ["Dog", "Dog"])] ∧
    (ofDefinitions pets).subtypes.map (fun e => (e.1, e.2.fieldName, e.2.fieldValue)) =
      [("#/definitions/Cat", "species", "cat"), ("#/definitions/Dog", "kind", "Dog"),
        ("#/definitions/Pet", "species", "Pet")] :=
  ⟨by decide, (ofDefinitions_indexes pets (by decide)).1, by decide, by decide⟩

end KclModels.Polymorphism
