import Mathlib.Data.List.Nodup
import KclModels.Model.Basic

/-!
# Properties in order

Properties that ask for a place stand before those that do not, by the numbers that they ask with;
the others stand as they were declared, or by name. The numbers are compared in their total order,
in which only a number itself is as good as it. So the comparison of properties is without
contradiction, and where no two of them share a place, or a name, it tells all of them apart: the
order in which they come to be sorted then does not matter.
-/

namespace KclModels

/-! ## The total order of numbers -/

namespace Double

variable {x y : Double}

/--
The total order of numbers: negative ones before positive ones, the positive ones by magnitude and
the negative ones against it. So `-0` stands before `0`, and what is no number stands at the ends.
-/
def TotalLE (x y : Double) : Prop :=
  match x.negative, y.negative with
  | true, false => True
  | false, true => False
  | false, false => x.magnitude ≤ y.magnitude
  | true, true => y.magnitude ≤ x.magnitude

theorem totalLE_iff_rank_le : x.TotalLE y ↔ x.rank ≤ y.rank := by
  unfold TotalLE rank
  cases x.negative <;> cases y.negative <;>
    simp only [if_true, Bool.false_eq_true, if_false, true_iff, false_iff] <;> omega

/-- Only a number itself has its place in the total order. -/
theorem eq_of_rank_eq (h : x.rank = y.rank) : x = y := by
  have hx := x.bits.toNat_lt
  have hy := y.bits.toNat_lt
  have hbits : x.bits.toNat = y.bits.toNat := by
    simp only [rank, negative, magnitude, twoPow, Nat.pow_eq] at h
    by_cases hxs : 2 ^ 63 ≤ x.bits.toNat <;> by_cases hys : 2 ^ 63 ≤ y.bits.toNat <;>
      simp only [hxs, hys, decide_true, decide_false, if_true, Bool.false_eq_true, if_false] at h <;>
      omega
  cases x
  cases y
  exact congrArg Double.mk (UInt64.toNat_inj.mp hbits)

end Double

namespace Model

/-! ## The order of properties -/

variable {keepOrder : Bool} {a b a' b' : Model} {properties properties' : List Model}

/-- Two properties that stand in the same place. -/
structure SamePlace (a b : Model) : Prop where
  name : a.name = b.name
  position : a.position = b.position
  order : a.order = b.order

theorem propertyLE_congr (ha : a.SamePlace a') (hb : b.SamePlace b') :
    propertyLE keepOrder a b = propertyLE keepOrder a' b' := by
  simp only [propertyLE, fallbackLE, ha.name, ha.position, ha.order, hb.name, hb.position, hb.order]

theorem fallbackLE_orders (keepOrder : Bool) : Orders (fallbackLE keepOrder) where
  total a b := by
    unfold fallbackLE
    split
    · simpa using Nat.le_total a.position b.position
    · simpa using String.le_total a.name b.name
  trans a b c hab hbc := by
    unfold fallbackLE at hab hbc ⊢
    split at hab
    · rename_i hkeep
      simp only [hkeep, if_true, decide_eq_true_eq] at hab hbc ⊢
      exact Nat.le_trans hab hbc
    · rename_i hkeep
      simp only [hkeep, Bool.false_eq_true, if_false, decide_eq_true_eq] at hab hbc ⊢
      exact String.le_trans hab hbc

/-- What it takes to stand before another property. -/
theorem propertyLE_iff : propertyLE keepOrder a b = true ↔
    (∃ x, a.order = some x ∧ ∀ y, b.order = some y → x.rank < y.rank) ∨
      (a.order.map Double.rank = b.order.map Double.rank ∧ fallbackLE keepOrder a b = true) := by
  unfold propertyLE
  cases ha : a.order with
  | none => cases hb : b.order <;> simp
  | some x =>
    cases hb : b.order with
    | none => simp
    | some y =>
      by_cases hrank : x.rank = y.rank
      · simp [hrank]
      · simp [hrank]

theorem propertyLE_orders (keepOrder : Bool) : Orders (propertyLE keepOrder) where
  total a b := by
    rw [propertyLE_iff, propertyLE_iff]
    have htotal := (fallbackLE_orders keepOrder).total a b
    cases ha : a.order with
    | none => cases hb : b.order <;> simp [htotal]
    | some x =>
      cases hb : b.order with
      | none => simp
      | some y =>
        -- both have an order: equal ranks fall back on position or name
        rcases Int.lt_trichotomy x.rank y.rank with hlt | heq | hgt
        · simp [hlt]
        · simpa [heq] using htotal
        · simp [hgt]
  trans a b c hab hbc := by
    rw [propertyLE_iff] at hab hbc ⊢
    rcases hab with ⟨x, hx, hab⟩ | ⟨hab, hle⟩
    · refine .inl ⟨x, hx, fun z hz => ?_⟩
      rcases hbc with ⟨y, hy, hbc⟩ | ⟨hbc, -⟩
      · exact Int.lt_trans (hab y hy) (hbc z hz)
      · -- the last two have one rank, so the first stays before both
        obtain ⟨y, hy, hrank⟩ : ∃ y, b.order = some y ∧ y.rank = z.rank := by
          simpa [hz] using hbc
        exact hrank ▸ hab y hy
    · rcases hbc with ⟨y, hy, hbc⟩ | ⟨hbc, hle'⟩
      · -- the first two have one rank, so both stay before the last
        obtain ⟨x, hx, hrank⟩ : ∃ x, a.order = some x ∧ x.rank = y.rank := by
          simpa [hy] using hab
        exact .inl ⟨x, hx, fun z hz => hrank ▸ hbc z hz⟩
      · exact .inr ⟨hab.trans hbc, (fallbackLE_orders keepOrder).trans _ _ _ hle hle'⟩

/-- What puts a property before another. -/
structure StandsBefore (keepOrder : Bool) (a b : Model) : Prop where
  /-- Properties with an order stand before those without. -/
  asked : b.order.isSome → a.order.isSome
  /-- Of two with an order, the orders count. -/
  byOrder : ∀ x y, a.order = some x → b.order = some y → x.TotalLE y
  /-- Where these do not tell, the places in the document count, or the names. -/
  otherwise : a.order = b.order → if keepOrder then a.position ≤ b.position else a.name ≤ b.name

theorem fallbackLE_iff : fallbackLE keepOrder a b = true ↔
    if keepOrder then a.position ≤ b.position else a.name ≤ b.name := by
  unfold fallbackLE
  cases keepOrder <;> simp

theorem map_rank_eq_iff : a.order.map Double.rank = b.order.map Double.rank ↔ a.order = b.order :=
  (Option.map_injective fun _ _ => Double.eq_of_rank_eq).eq_iff

/-- **The comparison of properties says what puts one before another.** -/
theorem propertyLE_iff_standsBefore :
    propertyLE keepOrder a b = true ↔ StandsBefore keepOrder a b := by
  rw [propertyLE_iff, fallbackLE_iff, map_rank_eq_iff]
  constructor
  · intro h
    rcases h with ⟨x, hx, hlt⟩ | ⟨heq, hle⟩
    · refine ⟨fun _ => by simp [hx], fun x' y hx' hy => ?_, fun heq => ?_⟩
      · obtain rfl := Option.some.inj (hx.symm.trans hx')
        exact Double.totalLE_iff_rank_le.mpr (Int.le_of_lt (hlt y hy))
      · exact absurd (hlt x (heq ▸ hx)) (Int.lt_irrefl _)
    · refine ⟨fun hb => heq ▸ hb, fun x y hx hy => ?_, fun _ => hle⟩
      obtain rfl := Option.some.inj ((hx.symm.trans heq).trans hy)
      exact Double.totalLE_iff_rank_le.mpr (Int.le_refl _)
  · intro h
    by_cases heq : a.order = b.order
    · exact .inr ⟨heq, h.otherwise heq⟩
    · -- with different orders it is the orders that tell, since no two numbers share a rank
      cases hx : a.order with
      | none =>
        cases hy : b.order with
        | none => exact absurd (hx.trans hy.symm) heq
        | some y => exact absurd (h.asked (by simp [hy])) (by simp [hx])
      | some x =>
        refine .inl ⟨x, rfl, fun y hy => ?_⟩
        have hle := Double.totalLE_iff_rank_le.mp (h.byOrder x y hx hy)
        have hne : x.rank ≠ y.rank := fun hrank =>
          heq (by rw [hx, hy, Double.eq_of_rank_eq hrank])
        omega

/-- Two properties that may stand in either order share their place, or their name. -/
theorem StandsBefore.same_place (hab : StandsBefore keepOrder a b)
    (hba : StandsBefore keepOrder b a) :
    if keepOrder then a.position = b.position else a.name = b.name := by
  have horder : a.order = b.order := by
    cases hx : a.order with
    | none =>
      cases hy : b.order with
      | none => rfl
      | some y => exact absurd (hab.asked (by simp [hy])) (by simp [hx])
    | some x =>
      obtain ⟨y, hy⟩ := Option.isSome_iff_exists.mp (hba.asked (by simp [hx]))
      have hle := Double.totalLE_iff_rank_le.mp (hab.byOrder x y hx hy)
      have hge := Double.totalLE_iff_rank_le.mp (hba.byOrder y x hy hx)
      rw [hy, Double.eq_of_rank_eq (Int.le_antisymm hle hge)]
  have hle := hab.otherwise horder
  have hge := hba.otherwise horder.symm
  cases keepOrder with
  | true => exact Nat.le_antisymm hle hge
  | false => exact String.le_antisymm hle hge

/-! ## Sorted properties -/

theorem sortProperties_perm (properties : List Model) (keepOrder : Bool) :
    (sortProperties properties keepOrder).Perm properties :=
  sortBy_perm _ properties

/-- Properties that are in order stay as they are. -/
theorem sortProperties_of_pairwise (h : properties.Pairwise (propertyLE keepOrder · · = true)) :
    sortProperties properties keepOrder = properties :=
  sortBy_of_pairwise h

/-- **Sorted properties are in order.** -/
theorem sortProperties_pairwise (properties : List Model) (keepOrder : Bool) :
    (sortProperties properties keepOrder).Pairwise (propertyLE keepOrder · · = true) :=
  sortBy_pairwise (propertyLE_orders keepOrder) properties

/-- Properties that do not share their places, or their names, are sorted in one way. -/
theorem sortProperties_eq_of_perm (hperm : properties'.Perm properties)
    (hkeys : if keepOrder then (properties.map (·.position)).Nodup
      else (properties.map (·.name)).Nodup) :
    sortProperties properties' keepOrder = sortProperties properties keepOrder := by
  refine sortBy_eq_of_perm (propertyLE_orders keepOrder) hperm fun a ha b hb hab hba => ?_
  have hsame := (propertyLE_iff_standsBefore.mp hab).same_place
    (propertyLE_iff_standsBefore.mp hba)
  cases keepOrder with
  | true => exact List.inj_on_of_nodup_map hkeys ha hb hsame
  | false => exact List.inj_on_of_nodup_map hkeys ha hb hsame

/--
**The order of properties is canonical.** Sorting loses and adds none, puts each property before
those that it stands before, leaves alone what is in order already, in part or as a whole, and
gives one result for all lists of the same properties if no two share their places, or their names.
-/
theorem sortProperties_canonical (properties : List Model) (keepOrder : Bool) :
    (sortProperties properties keepOrder).Perm properties ∧
      (sortProperties properties keepOrder).Pairwise (StandsBefore keepOrder) ∧
      (∀ part : List Model, part.Pairwise (StandsBefore keepOrder) → part.Sublist properties →
        part.Sublist (sortProperties properties keepOrder)) ∧
      sortProperties (sortProperties properties keepOrder) keepOrder =
        sortProperties properties keepOrder ∧
      ∀ properties' : List Model, properties'.Perm properties →
        (if keepOrder then (properties.map (·.position)).Nodup
          else (properties.map (·.name)).Nodup) →
        sortProperties properties' keepOrder = sortProperties properties keepOrder := by
  have hsorted := sortProperties_pairwise properties keepOrder
  refine ⟨sortProperties_perm properties keepOrder, ?_, fun part hpart hsub => ?_,
    sortProperties_of_pairwise hsorted, fun _ hperm hkeys => sortProperties_eq_of_perm hperm hkeys⟩
  · exact hsorted.imp propertyLE_iff_standsBefore.mp
  · exact sublist_sortBy (hpart.imp propertyLE_iff_standsBefore.mpr) hsub

/-- Properties with both zeros, no number and no order; two of them share the order zero. -/
def seats : List Model := [
  { name := "a", order := some Double.zero, position := 4 },
  { name := "b", position := 3 },
  { name := "c", order := some (Double.nan false), position := 2 },
  { name := "d", order := some Double.zero, position := 1 },
  { name := "e", order := some (Double.ofMagnitude true 0), position := 0 }]

theorem seats_canonical :
    (seats.map (·.position)).Nodup ∧ (seats.map (·.name)).Nodup ∧
      sortProperties seats.reverse true = sortProperties seats true ∧
      (sortProperties seats true).map (·.name) = ["e", "d", "a", "c", "b"] ∧
      sortProperties seats.reverse false = sortProperties seats false ∧
      (sortProperties seats false).map (·.name) = ["e", "a", "d", "c", "b"] ∧
      [seats[0], seats[3]].Sublist (sortProperties seats false) := by
  have hplaces := (sortProperties_canonical seats true).2.2.2.2 seats.reverse
    (List.reverse_perm seats) (by decide)
  obtain ⟨-, -, hparts, -, hnames⟩ := sortProperties_canonical seats false
  refine ⟨by decide, by decide, hplaces, by decide +kernel,
    hnames seats.reverse (List.reverse_perm seats) (by decide), by decide +kernel, ?_⟩
  refine hparts _ ?_ (.cons_cons _ (.cons _ (.cons _ (.cons_cons _ (.cons _ .slnil)))))
  exact List.pairwise_pair.mpr (propertyLE_iff_standsBefore.mp (by decide +kernel))

end Model

end KclModels
