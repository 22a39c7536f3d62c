import KclModels.Proofs.Build.FileMirroring

/-!
# Properties shared out among branches

Several branches of a subtype may declare a property. Once the full models of bases are in place it
is left to one of them: to the first base that declares it, or to the first branch if none of the
bases that were put in place does. One pass over the branches does so. What carries the proof is
that a name is passed over for one of two reasons, and that only the second is remembered: a later
base is to have it, or an earlier branch has it already.
-/

namespace KclModels

open Build KclModels.Frame

variable {tr : Text.Transliteration}

namespace Model

variable {ofBases seen : List String} {fromBase : Bool} {b b' b₀ m m' p : Model} {x : String}
variable {branches : List Model} {i j : Nat}

/-! ## One branch -/

/-- The properties that are kept stand in their order. -/
theorem keepProperties_sublist (ofBases : List String) (fromBase : Bool) (l : List Model) :
    ∀ seen, (keepProperties ofBases fromBase seen l).1.Sublist l := by
  induction l with
  | nil => exact fun _ => .slnil
  | cons p rest ih =>
    intro seen
    rw [keepProperties]
    split
    · exact (ih _).cons_cons p
    · exact (ih _).cons p

/-- A property that is kept is the first of its name. -/
theorem find?_of_mem_keepProperties {l : List Model} : ∀ {seen},
    p ∈ (keepProperties ofBases fromBase seen l).1 → l.find? (·.name == p.name) = some p := by
  induction l with
  | nil => exact fun hp => absurd hp List.not_mem_nil
  | cons q rest ih =>
    intro seen hp
    have hnew := fun seen (hp : p ∈ (keepProperties ofBases fromBase seen rest).1) =>
      (((mem_names_keepProperties ofBases fromBase rest seen).1 p.name).mp
        (List.mem_map_of_mem hp)).2
    rw [keepProperties] at hp
    split at hp
    · rcases List.mem_cons.mp hp with rfl | hp
      · simp
      · have hne : q.name ≠ p.name := fun heq => (hnew _ hp).2 (heq ▸ List.mem_cons_self)
        rw [List.find?_cons_of_neg (by simpa using hne)]
        exact ih hp
    · rename_i hdrop
      -- a property of the same name that is passed over would have been kept as well
      have hne : q.name ≠ p.name := by
        rintro heq
        obtain ⟨hleft, hunseen⟩ := hnew _ hp
        refine hdrop ?_
        rcases hleft with hleft | hleft <;> simp [heq, hleft, hunseen]
      rw [List.find?_cons_of_neg (by simpa using hne)]
      exact ih hp

/-- A branch as it was, but for properties that are left to others. -/
structure Thinned (b b' : Model) : Prop where
  same : b' = { b with properties := b'.properties }
  ordered : b'.properties.Sublist b.properties
  first : ∀ p ∈ b'.properties, b.properties.find? (·.name == p.name) = some p

theorem dedupBranches_thinned (ofBases : List String) (branches : List Model) : ∀ seen,
    List.Forall₂ Thinned branches (dedupBranches ofBases seen branches) := by
  induction branches with
  | nil => exact fun _ => .nil
  | cons branch rest ih =>
    exact fun seen => .cons ⟨rfl, keepProperties_sublist .., fun _ => find?_of_mem_keepProperties⟩
      (ih _)

/-! ## All branches -/

/--
Branch number `i` is the first that declares the name, but for branches that leave it to a base.
-/
structure Keeper (ofBases : List String) (branches : List Model) (x : String) (i : Nat)
    (b : Model) : Prop where
  place : branches[i]? = some b
  declares : x ∈ names b.properties
  free : b.isBase = true ∨ x ∉ ofBases
  first : ∀ (j : Nat) b', j < i → branches[j]? = some b' → x ∈ names b'.properties →
    b'.isBase = false ∧ x ∈ ofBases

theorem keeper_zero (hx : x ∈ names b.properties) (hfree : b.isBase = true ∨ x ∉ ofBases) :
    Keeper ofBases (b :: branches) x 0 b :=
  ⟨rfl, hx, hfree, fun j _ hj => absurd hj (Nat.not_lt_zero j)⟩

theorem keeper_succ_iff : Keeper ofBases (b₀ :: branches) x (i + 1) b ↔
    (x ∈ names b₀.properties → b₀.isBase = false ∧ x ∈ ofBases) ∧ Keeper ofBases branches x i b := by
  constructor
  · intro h
    refine ⟨h.first 0 b₀ (Nat.zero_lt_succ i) rfl, h.place, h.declares, h.free, ?_⟩
    exact fun j b' hj hb' => h.first (j + 1) b' (Nat.succ_lt_succ hj) hb'
  · rintro ⟨hleft, h⟩
    refine ⟨h.place, h.declares, h.free, fun j b' hj hb' hx => ?_⟩
    cases j with
    | zero =>
      obtain rfl := Option.some.inj hb'
      exact hleft hx
    | succ j => exact h.first j b' (Nat.lt_of_succ_lt_succ hj) hb' hx

/-- One branch keeps a name. -/
theorem Keeper.unique (h : Keeper ofBases branches x i b) (h' : Keeper ofBases branches x j b') :
    i = j := by
  have hnot : ∀ {i j b b'}, Keeper ofBases branches x i b → Keeper ofBases branches x j b' →
      ¬ i < j := by
    intro i j b b' h h' hlt
    obtain ⟨hbase, hof⟩ := h'.first i b hlt h.place h.declares
    exact h.free.elim (fun hb => by simp [hbase] at hb) (· hof)
  exact Nat.le_antisymm (Nat.le_of_not_lt (hnot h' h)) (Nat.le_of_not_lt (hnot h h'))

/-- A name that some branch may keep is kept. -/
theorem exists_keeper (hb : b ∈ branches) (hx : x ∈ names b.properties)
    (hfree : b.isBase = true ∨ x ∉ ofBases) : ∃ i b', Keeper ofBases branches x i b' := by
  induction branches with
  | nil => exact absurd hb List.not_mem_nil
  | cons b₀ rest ih =>
    by_cases hkeeps : x ∈ names b₀.properties ∧ (b₀.isBase = true ∨ x ∉ ofBases)
    · exact ⟨0, b₀, keeper_zero hkeeps.1 hkeeps.2⟩
    · have hrest : b ∈ rest := by
        refine (List.mem_cons.mp hb).resolve_left fun heq => hkeeps ?_
        exact heq ▸ ⟨hx, hfree⟩
      obtain ⟨i, b', hi⟩ := ih hrest
      refine ⟨i + 1, b', keeper_succ_iff.mpr ⟨fun hx₀ => ?_, hi⟩⟩
      by_contra hno
      refine hkeeps ⟨hx₀, ?_⟩
      by_contra hfree₀
      exact hno ⟨by simpa using (not_or.mp hfree₀).1, not_not.mp (not_or.mp hfree₀).2⟩

/-- **A name stands in the branch that keeps it**, and in no other. -/
theorem mem_dedupBranches_iff : ∀ {seen : List String} {i : Nat},
    (dedupBranches ofBases seen branches)[i]? = some b' →
    (x ∈ names b'.properties ↔ x ∉ seen ∧ ∃ b, Keeper ofBases branches x i b) := by
  induction branches with
  | nil => exact fun hi => absurd hi (by simp [dedupBranches])
  | cons branch rest ih =>
    intro seen i hi
    obtain ⟨hmem, -⟩ := mem_names_keepProperties ofBases branch.isBase branch.properties seen
    obtain ⟨hseen, -⟩ := @keepProperties_names ofBases branch.isBase branch.properties seen
    rw [dedupBranches] at hi
    cases i with
    | zero =>
      obtain rfl := Option.some.inj hi
      rw [hmem]
      constructor
      · rintro ⟨hx, hfree, hnew⟩
        exact ⟨hnew, branch, keeper_zero hx hfree⟩
      · rintro ⟨hnew, b, hb⟩
        obtain rfl := Option.some.inj hb.place
        exact ⟨hb.declares, hb.free, hnew⟩
    | succ i =>
      rw [ih hi, hseen, hmem]
      simp only [keeper_succ_iff, exists_and_left]
      -- the names seen besides are those that the branch keeps
      constructor
      · rintro ⟨hnew, hrest⟩
        refine ⟨fun hx => hnew (.inl hx), fun hx => ?_, hrest⟩
        by_contra hno
        refine hnew (.inr ⟨hx, ?_, fun hx => hnew (.inl hx)⟩)
        by_contra hfree
        exact hno ⟨by simpa using (not_or.mp hfree).1, not_not.mp (not_or.mp hfree).2⟩
      · rintro ⟨hnew, hleft, hrest⟩
        refine ⟨?_, hrest⟩
        rintro (hx | ⟨hx, hfree, -⟩)
        · exact hnew hx
        · obtain ⟨hbase, hof⟩ := hleft hx
          exact hfree.elim (fun hb => by simp [hbase] at hb) (· hof)

/-- The names of the properties of all branches. -/
def branchNames (branches : List Model) : List String :=
  branches.flatMap fun b => names b.properties

theorem mem_branchNames : x ∈ branchNames branches ↔
    ∃ (i : Nat) (b : Model), branches[i]? = some b ∧ x ∈ names b.properties := by
  rw [branchNames, List.mem_flatMap]
  constructor
  · rintro ⟨b, hb, hx⟩
    obtain ⟨i, hi⟩ := List.mem_iff_getElem?.mp hb
    exact ⟨i, b, hi, hx⟩
  · rintro ⟨i, b, hi, hx⟩
    exact ⟨b, List.mem_of_getElem? hi, hx⟩

/-- No name stands twice in a branch. -/
theorem nodup_names_of_mem_dedupBranches : ∀ {seen : List String},
    b' ∈ dedupBranches ofBases seen branches → (names b'.properties).Nodup := by
  induction branches with
  | nil => exact fun hb' => absurd hb' List.not_mem_nil
  | cons branch rest ih =>
    intro seen hb'
    rcases List.mem_cons.mp hb' with rfl | hb'
    · exact (mem_names_keepProperties ofBases branch.isBase branch.properties seen).2
    · exact ih hb'

/-- No name stands in two branches, or twice in one. -/
theorem nodup_branchNames_dedupBranches (ofBases seen : List String) (branches : List Model) :
    (branchNames (dedupBranches ofBases seen branches)).Nodup := by
  refine List.nodup_flatMap.mpr ⟨fun b' hb' => nodup_names_of_mem_dedupBranches hb', ?_⟩
  refine List.pairwise_iff_getElem.mpr fun i j hi hj hlt x hx hx' => ?_
  obtain ⟨-, b, hb⟩ := (mem_dedupBranches_iff (List.getElem?_eq_getElem hi)).mp hx
  obtain ⟨-, b', hb'⟩ := (mem_dedupBranches_iff (List.getElem?_eq_getElem hj)).mp hx'
  exact absurd (hb.unique hb') (Nat.ne_of_lt hlt)

/-! ## The law -/

/--
Each name that the branches declare is left to one branch: to one of a base if a base in one of the
places declares it, else to the first. Nothing else changes.
-/
structure SharedOut (places : Nat → Prop) (before after : List Model) : Prop where
  thinned : List.Forall₂ Thinned before after
  once : (branchNames after).Nodup
  kept : ∀ x ∈ branchNames before, x ∈ branchNames after
  /-- A base keeps what it or a base after it declares, whatever other branches do. -/
  bases : ∀ (i : Nat) (b : Model) x, places i → before[i]? = some b → x ∈ names b.properties →
    ∃ (j : Nat) (b' : Model), j ≤ i ∧ after[j]? = some b' ∧ b'.isBase = true ∧
      x ∈ names b'.properties
  others : ∀ (i : Nat) (b : Model) x, before[i]? = some b → x ∈ names b.properties →
    (∀ (j : Nat) (b' : Model), places j → before[j]? = some b' → x ∉ names b'.properties) →
    (∀ (j : Nat) (b' : Model), j < i → before[j]? = some b' → x ∉ names b'.properties) →
    ∃ b', after[i]? = some b' ∧ x ∈ names b'.properties

/-- **The pass over the branches shares out their properties.** -/
theorem dedupBranches_sharedOut {places : Nat → Prop}
    (hbase : ∀ (i : Nat) (b : Model), places i → branches[i]? = some b → b.isBase = true)
    (hof : ∀ x, x ∈ ofBases ↔ ∃ (i : Nat) (b : Model), places i ∧ branches[i]? = some b ∧
      x ∈ names b.properties) :
    SharedOut places branches (dedupBranches ofBases [] branches) := by
  have hthinned := dedupBranches_thinned ofBases branches []
  -- a name stays in the branch that keeps it
  have hstands : ∀ {x i b}, Keeper ofBases branches x i b → ∃ b',
      (dedupBranches ofBases [] branches)[i]? = some b' ∧ b'.isBase = b.isBase ∧
        x ∈ names b'.properties := by
    intro x i b hb
    obtain ⟨b', hb', hthin⟩ := forall₂_getElem? hthinned hb.place
    refine ⟨b', hb', ?_, (mem_dedupBranches_iff hb').mpr ⟨List.not_mem_nil, b, hb⟩⟩
    rw [hthin.same]
  have hbases : ∀ (i : Nat) (b : Model) x, places i → branches[i]? = some b →
      x ∈ names b.properties → ∃ (j : Nat) (b' : Model), j ≤ i ∧
        (dedupBranches ofBases [] branches)[j]? = some b' ∧ b'.isBase = true ∧
          x ∈ names b'.properties := by
    intro i b x hi hb hx
    obtain ⟨j, k, hk⟩ := exists_keeper (List.mem_of_getElem? hb) hx (.inl (hbase i b hi hb))
    have hmem := (hof x).mpr ⟨i, b, hi, hb, hx⟩
    obtain ⟨b', hb', hsame, hx'⟩ := hstands hk
    refine ⟨j, b', ?_, hb', hsame.trans (hk.free.resolve_right (not_not_intro hmem)), hx'⟩
    -- a base before the keeper would have kept the name itself
    by_contra hlt
    obtain ⟨hno, -⟩ := hk.first i b (Nat.lt_of_not_le hlt) hb hx
    exact absurd (hbase i b hi hb) (by simp [hno])
  refine ⟨hthinned, nodup_branchNames_dedupBranches ofBases [] branches, fun x hx => ?_, hbases,
    fun i b x hb hx hno hfirst => ?_⟩
  · by_cases hmem : x ∈ ofBases
    · obtain ⟨i, b, hi, hb, hx⟩ := (hof x).mp hmem
      obtain ⟨j, b', -, hb', -, hx'⟩ := hbases i b x hi hb hx
      exact mem_branchNames.mpr ⟨j, b', hb', hx'⟩
    · obtain ⟨i, b, hb, hx⟩ := mem_branchNames.mp hx
      obtain ⟨j, k, hk⟩ := exists_keeper (List.mem_of_getElem? hb) hx (.inr hmem)
      obtain ⟨b', hb', -, hx'⟩ := hstands hk
      exact mem_branchNames.mpr ⟨j, b', hb', hx'⟩
  · have hmem : x ∉ ofBases := fun h => by
      obtain ⟨j, b', hj, hb', hx'⟩ := (hof x).mp h
      exact hno j b' hj hb' hx'
    have hkeeper : Keeper ofBases branches x i b :=
      ⟨hb, hx, .inr hmem, fun j b' hj hb' hx' => absurd hx' (hfirst j b' hj hb')⟩
    obtain ⟨b', hb', -, hx'⟩ := hstands hkeeper
    exact ⟨b', hb', hx'⟩

end Model

/-! ## Subtypes -/

namespace Build

variable {setting : Setting} {r : Registry} {s s' : Session} {c : Schema} {m m' : Model}
variable {container : String} {subtype : Subtype}

/-- The full models of bases stand in the places of the branches that refer to them. -/
structure BasesPlaced [Text.Transliteration] (setting : Setting) (container : String) (r : Registry)
    (branches : List Schema) (before after : List Model) : Prop where
  length : after.length = before.length
  bases : ∀ (i : Nat) b, branches[i]? = some b → RefersToBase r b → ∃ base,
    after[i]? = some base ∧ ExpandsTo setting container r b base
  others : ∀ i : Nat, (∀ b, branches[i]? = some b → ¬ RefersToBase r b) → after[i]? = before[i]?

/-- Bases are put in place, and the names given besides are those of their properties. -/
theorem expandBranches_placed {branches : List Schema} {allOf : List Model}
    {result : List Model × List String}
    (hplace : ∀ (i : Nat) b, branches[i]? = some b → RefersToBase s'.registry b →
      i < allOf.length)
    (h : (expandBranches setting container 0 allOf branches).Gives s result s') :
    BasesPlaced setting container s'.registry branches allOf result.1 ∧
      ∀ x, x ∈ result.2 ↔ ∃ (i : Nat) (m : Model),
        (∃ b, branches[i]? = some b ∧ RefersToBase s'.registry b) ∧ result.1[i]? = some m ∧
          x ∈ names m.properties := by
  obtain ⟨-, hlen, hkept, hat, hnames⟩ :=
    expandBranches_expands (fun i b hb hbase => by simpa using hplace i b hb hbase) h
  simp only [Nat.zero_add] at hkept hat hnames
  -- a branch is no reference to a base if what it leads to has no discriminator
  have hno : ∀ {b : Schema}, (∀ reference, b.reference = some reference →
      ∃ d, s'.registry.Leads reference d ∧ d.discriminator = none) →
      ¬ RefersToBase s'.registry b := by
    rintro b hnone ⟨reference, d, href, hleads, hdisc⟩
    obtain ⟨d', hleads', hd'⟩ := hnone reference href
    obtain rfl := hleads.unique hleads'
    exact absurd hdisc (by simp [hd'])
  refine ⟨⟨hlen, fun i b hb hbase => ?_, fun i hi => ?_⟩, fun x => ⟨fun hx => ?_, ?_⟩⟩
  · cases hat i b hb with
    | kept _ hnone => exact absurd hbase (hno hnone)
    | expanded heq hexpands _ => exact ⟨_, heq, hexpands⟩
  · by_cases hlt : i < branches.length
    · cases hat i _ (List.getElem?_eq_getElem hlt) with
      | kept heq _ => exact heq
      | expanded _ hexpands _ =>
        exact absurd hexpands.refersToBase (hi _ (List.getElem?_eq_getElem hlt))
    · exact hkept i (.inr (Nat.le_of_not_lt hlt))
  · obtain ⟨i, b, m, hb, hm, hexpands, hx⟩ := hnames x hx
    exact ⟨i, m, ⟨b, hb, hexpands.refersToBase⟩, hm, hx⟩
  · rintro ⟨i, m, ⟨b, hb, hbase⟩, hm, hx⟩
    cases hat i b hb with
    | kept _ hnone => exact absurd hbase (hno hnone)
    | expanded heq _ hincl =>
      obtain rfl := Option.some.inj (hm.symm.trans heq)
      exact hincl x hx

end Build

end KclModels
