import Mathlib.Data.List.Nodup
import Mathlib.Data.String.Basic
import KclModels.Assoc
import KclModels.Sorting

/-!
# Sorted maps

Maps that are only written with `putSorted` have each key once, in order. In a map that has each key
once, every entry is the one that a lookup of its key finds.
-/

namespace KclModels.Assoc

variable {α : Type} {m other : List (String × α)} {k : String} {v : α}

/-- The keys of the map are in order, none of them twice. -/
def Sorted (m : List (String × α)) : Prop := (keys m).Pairwise (· < ·)

theorem sorted_nil : Sorted ([] : List (String × α)) := List.Pairwise.nil

theorem nodup_of_sorted {names : List String} (h : names.Pairwise (· < ·)) : names.Nodup :=
  h.imp fun hlt => ne_of_lt hlt

theorem Sorted.nodup (h : Sorted m) : (keys m).Nodup := nodup_of_sorted h

theorem Sorted.putSorted (h : Sorted m) : Sorted (putSorted m k v) := by
  induction m with
  | nil => exact List.pairwise_singleton _ _
  | cons p rest ih =>
    obtain ⟨hp, hrest⟩ := List.pairwise_cons.mp h
    unfold Assoc.putSorted
    by_cases heq : k = p.1
    · rw [if_pos heq]
      exact List.pairwise_cons.mpr ⟨heq ▸ hp, hrest⟩
    · rw [if_neg heq]
      by_cases hlt : k < p.1
      · rw [if_pos hlt]
        refine List.pairwise_cons.mpr ⟨fun n hn => ?_, h⟩
        rcases List.mem_cons.mp hn with rfl | hn
        · exact hlt
        · exact hlt.trans (hp n hn)
      · rw [if_neg hlt]
        refine List.pairwise_cons.mpr ⟨fun n hn => ?_, ih hrest⟩
        rcases mem_keys_putSorted.mp hn with rfl | hn
        · exact lt_of_le_of_ne (not_lt.mp hlt) (Ne.symm heq)
        · exact hp n hn

theorem Sorted.mergeSorted (h : Sorted m) : Sorted (mergeSorted m other) := by
  unfold Assoc.mergeSorted
  induction other generalizing m with
  | nil => exact h
  | cons p rest ih => exact ih h.putSorted

theorem lookup_of_mem (hnodup : (keys m).Nodup) (h : (k, v) ∈ m) : m.lookup k = some v := by
  induction m with
  | nil => exact absurd h List.not_mem_nil
  | cons p rest ih =>
    obtain ⟨l, w⟩ := p
    obtain ⟨hl, hrest⟩ := List.nodup_cons.mp hnodup
    rw [lookup_pair]
    rcases List.mem_cons.mp h with heq | h
    · obtain ⟨rfl, rfl⟩ := Prod.mk.inj heq
      rw [if_pos rfl]
    · have hk : k ∈ keys rest := List.mem_map.mpr ⟨(k, v), h, rfl⟩
      rw [if_neg fun heq : k = l => hl (heq ▸ hk), ih hrest h]

theorem lookup_eq_none (h : k ∉ keys m) : m.lookup k = none := by
  rw [← Option.not_isSome_iff_eq_none]
  exact fun hsome => h (has_iff_mem_keys.mp hsome)

/-- A key that is set is found with its value, any other as before. -/
theorem lookup_mergeSorted (hnodup : (keys other).Nodup) (k : String) :
    (mergeSorted m other).lookup k = (other.lookup k).or (m.lookup k) := by
  unfold mergeSorted
  induction other generalizing m with
  | nil => rfl
  | cons p rest ih =>
    obtain ⟨l, w⟩ := p
    obtain ⟨hl, hrest⟩ := List.nodup_cons.mp hnodup
    rw [List.foldl_cons, ih hrest, lookup_putSorted, lookup_pair]
    by_cases heq : k = l
    · rw [if_pos heq, if_pos heq, heq, lookup_eq_none hl, Option.none_or, Option.some_or]
    · rw [if_neg heq, if_neg heq]

theorem lookup_sortedOfPairs (hnodup : (keys m).Nodup) (k : String) :
    (sortedOfPairs m).lookup k = m.lookup k := by
  rw [sortedOfPairs, lookup_mergeSorted hnodup, List.lookup_nil, Option.or_none]

/-! ## In another order -/

variable {m' : List (String × α)}

/-- A lookup in a map that has each key once does not depend on the order. -/
theorem lookup_perm (hperm : m'.Perm m) (hnodup : (keys m).Nodup) (k : String) :
    m'.lookup k = m.lookup k := by
  have hnodup' : (keys m').Nodup := (hperm.map Prod.fst).nodup_iff.mpr hnodup
  refine Option.ext fun v => ⟨fun h => ?_, fun h => ?_⟩
  · exact lookup_of_mem hnodup (hperm.mem_iff.mp (mem_of_lookup h))
  · exact lookup_of_mem hnodup' (hperm.mem_iff.mpr (mem_of_lookup h))

/-- Maps that are sorted are equal if they have the same entries. -/
theorem eq_of_perm_of_sorted (hperm : m'.Perm m) (h' : Sorted m') (h : Sorted m) : m' = m := by
  have hkeys : ∀ {l : List (String × α)}, Sorted l → l.Pairwise fun a b => a.1 < b.1 :=
    fun hl => List.pairwise_map.mp hl
  exact hperm.eq_of_pairwise (fun _ _ _ _ hlt hgt => absurd hgt (lt_asymm hlt)) (hkeys h') (hkeys h)

/-- The sorted map of pairs with different keys has the same entries. -/
theorem sortedOfPairs_perm (hnodup : (keys m).Nodup) : (sortedOfPairs m).Perm m := by
  have hsorted : Sorted (sortedOfPairs m) := sorted_nil.mergeSorted
  refine (List.perm_ext_iff_of_nodup (List.Nodup.of_map _ hsorted.nodup)
    (List.Nodup.of_map _ hnodup)).mpr fun e => ⟨fun he => ?_, fun he => ?_⟩
  · exact mem_of_lookup ((lookup_sortedOfPairs hnodup e.1).symm.trans
      (lookup_of_mem hsorted.nodup he))
  · exact mem_of_lookup ((lookup_sortedOfPairs hnodup e.1).trans (lookup_of_mem hnodup he))

theorem sortedOfPairs_eq_of_perm (hperm : m'.Perm m) (hnodup : (keys m).Nodup) :
    sortedOfPairs m' = sortedOfPairs m := by
  have hnodup' : (keys m').Nodup := (hperm.map Prod.fst).nodup_iff.mpr hnodup
  exact eq_of_perm_of_sorted ((sortedOfPairs_perm hnodup').trans
    (hperm.trans (sortedOfPairs_perm hnodup).symm)) sorted_nil.mergeSorted sorted_nil.mergeSorted

/-! ## Sorting by key -/

theorem orders_key : Orders fun a b : String × α => decide (a.1 ≤ b.1) where
  total a b := by simpa using le_total a.1 b.1
  trans a b c hab hbc := by
    rw [decide_eq_true_eq] at hab hbc ⊢
    exact hab.trans hbc

/-- Pairs with different keys that are sorted by key are a sorted map. -/
theorem sorted_sortBy (hnodup : (keys m).Nodup) :
    Sorted (sortBy (fun a b => decide (a.1 ≤ b.1)) m) := by
  have hle : (keys (sortBy (fun a b => decide (a.1 ≤ b.1)) m)).Pairwise (· ≤ ·) :=
    List.pairwise_map.mpr ((sortBy_pairwise orders_key m).imp of_decide_eq_true)
  exact hle.imp₂ (fun _ _ hle hne => lt_of_le_of_ne hle hne)
    (((sortBy_perm _ m).map Prod.fst).nodup_iff.mpr hnodup)

/-! ## What is found -/

/-- Maps that are sorted are equal if the same is found in them. -/
theorem eq_of_lookup (h : Sorted m) (h' : Sorted m') (hlookup : ∀ k, m.lookup k = m'.lookup k) :
    m = m' := by
  refine eq_of_perm_of_sorted ((List.perm_ext_iff_of_nodup (List.Nodup.of_map _ h.nodup)
    (List.Nodup.of_map _ h'.nodup)).mpr fun e => ⟨fun he => ?_, fun he => ?_⟩) h h'
  · exact mem_of_lookup ((hlookup e.1).symm.trans (lookup_of_mem h.nodup he))
  · exact mem_of_lookup ((hlookup e.1).trans (lookup_of_mem h'.nodup he))

theorem Sorted.filter (h : Sorted m) (p : String × α → Bool) : Sorted (m.filter p) :=
  List.Pairwise.sublist (List.filter_sublist.map Prod.fst) h

theorem lookup_filter (p : String → Bool) (m : List (String × α)) (k : String) :
    (m.filter fun e => p e.1).lookup k = if p k then m.lookup k else none := by
  induction m with
  | nil => simp
  | cons e rest ih =>
    obtain ⟨l, w⟩ := e
    rw [List.filter_cons, lookup_pair]
    by_cases heq : k = l
    · subst heq
      by_cases hk : p k
      · simp [hk]
      · simp [hk, ih]
    · by_cases hl : p l
      · simp [hl, lookup_pair, heq, ih]
      · simp [hl, heq, ih]

/-! ## Sets of names -/

/-- Names in order, each once, are told by which they are. -/
theorem eq_of_sorted {names names' : List String} (h : names.Pairwise (· < ·))
    (h' : names'.Pairwise (· < ·)) (hmem : ∀ n, n ∈ names ↔ n ∈ names') : names = names' :=
  ((List.perm_ext_iff_of_nodup (nodup_of_sorted h) (nodup_of_sorted h')).mpr hmem).eq_of_pairwise
    (fun _ _ _ _ hlt hgt => absurd hgt (lt_asymm hlt)) h h'

theorem sorted_insertName {names : List String} (n : String) (h : names.Pairwise (· < ·)) :
    (insertName names n).Pairwise (· < ·) := by
  induction names with
  | nil => exact List.pairwise_singleton _ _
  | cons m rest ih =>
    obtain ⟨hm, hrest⟩ := List.pairwise_cons.mp h
    unfold insertName
    by_cases heq : n = m
    · rw [if_pos heq]
      exact h
    · rw [if_neg heq]
      by_cases hlt : n < m
      · -- the new name comes first
        rw [if_pos hlt]
        refine List.pairwise_cons.mpr ⟨fun k hk => ?_, h⟩
        rcases List.mem_cons.mp hk with rfl | hk
        · exact hlt
        · exact hlt.trans (hm k hk)
      · -- it goes somewhere behind `m`, which stays the least
        rw [if_neg hlt]
        refine List.pairwise_cons.mpr ⟨fun k hk => ?_, ih hrest⟩
        rcases mem_insertName.mp hk with rfl | hk
        · exact lt_of_le_of_ne (not_lt.mp hlt) (Ne.symm heq)
        · exact hm k hk

/-- **A set of names is in order**, with each name once. -/
theorem sorted_nameSet (names : List String) : (nameSet names).Pairwise (· < ·) := by
  have hfold : ∀ acc : List String, acc.Pairwise (· < ·) →
      (names.foldl insertName acc).Pairwise (· < ·) := by
    induction names with
    | nil => exact fun _ h => h
    | cons n rest ih => exact fun acc h => ih _ (sorted_insertName n h)
  exact hfold [] List.Pairwise.nil

theorem nameSet_eq_of_perm {names names' : List String} (hperm : names'.Perm names) :
    nameSet names' = nameSet names :=
  eq_of_sorted (sorted_nameSet names') (sorted_nameSet names) fun n => by
    rw [mem_nameSet, mem_nameSet, hperm.mem_iff]

end KclModels.Assoc
