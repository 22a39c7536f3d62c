import Mathlib.Algebra.Order.Field.Basic
import Mathlib.Algebra.Order.Field.Power
import Mathlib.Data.Rat.Cast.Order
import Mathlib.Order.Monotone.Basic
import Mathlib.Tactic.FieldSimp
import Mathlib.Tactic.Linarith
import Mathlib.Tactic.LinearCombination
import Mathlib.Tactic.Positivity
import Mathlib.Tactic.Ring
import Mathlib.Tactic.SplitIfs
import KclModels.Decimal.Shortest

/-!
# How binary64 numbers lie

The magnitudes of finite numbers count them in order: each number is one gap above the one before
it. A decimal reads back as a number if it lies between the middles of the gaps around the number.
These intervals only meet at their ends, and of two that do only one has the end in it, so a decimal
reads back as one number.
-/

namespace KclModels

theorem twoPow_eq (n : Nat) : twoPow n = 2 ^ n := rfl

theorem tenPow_eq (n : Nat) : tenPow n = 10 ^ n := rfl

namespace Double

/-! ## The numbers in their order -/

/-- The significand of the number with a magnitude. -/
def significandAt (m : Nat) : Nat := if m < 2 ^ 52 then m else 2 ^ 52 + m % 2 ^ 52

/-- The exponent of the unit of the number with a magnitude. -/
def scaleAt (m : Nat) : Int := (max 1 (m / 2 ^ 52) : Nat) - 1075

/-- The distance from the number with a magnitude to the next larger one. -/
def gapAt (m : Nat) : ℚ := 2 ^ scaleAt m

/-- The absolute value of the number with a magnitude. -/
def valueAt (m : Nat) : ℚ := significandAt m * gapAt m

/-- The middle between the number with a magnitude and the next larger one. -/
def middleAt (m : Nat) : ℚ := valueAt m + gapAt m / 2

/-- The gap below the number with the magnitude is smaller than the one above. -/
def IsStep (m : Nat) : Prop := significandAt m = 2 ^ 52 ∧ -1074 < scaleAt m

instance (m : Nat) : Decidable (IsStep m) :=
  inferInstanceAs (Decidable (significandAt m = 2 ^ 52 ∧ -1074 < scaleAt m))

variable {x y : Double} {k m n d d' : Nat} {e e' : Int}

theorem significand_eq (x : Double) : x.significand = significandAt x.magnitude := rfl

theorem scale_eq (x : Double) : x.scale = scaleAt x.magnitude := by
  unfold scale scaleAt
  rw [twoPow_eq]
  split <;> omega

theorem gapAt_pos (m : Nat) : 0 < gapAt m := by
  unfold gapAt
  positivity

theorem significandAt_lt (m : Nat) : significandAt m < 2 ^ 53 := by
  unfold significandAt
  split <;> omega

theorem significandAt_parity (m : Nat) : significandAt m % 2 = m % 2 := by
  unfold significandAt
  split <;> omega

theorem significandAt_pos (h : m ≠ 0) : 0 < significandAt m := by
  unfold significandAt
  split <;> omega

/-- Where the gap changes the significand starts again. -/
theorem succ_of_isStep (h : IsStep (m + 1)) :
    gapAt (m + 1) = 2 * gapAt m ∧ significandAt m + 1 = 2 * significandAt (m + 1) := by
  obtain ⟨hsig, hscale⟩ := h
  unfold significandAt at hsig ⊢
  have hnext : scaleAt (m + 1) = scaleAt m + 1 := by
    unfold scaleAt at hscale ⊢
    split at hsig <;> omega
  refine ⟨?_, ?_⟩
  · rw [gapAt, gapAt, hnext, zpow_add_one₀ (by norm_num), mul_comm]
  · unfold scaleAt at hscale
    split at hsig <;> split <;> omega

theorem succ_of_not_isStep (h : ¬IsStep (m + 1)) :
    gapAt (m + 1) = gapAt m ∧ significandAt (m + 1) = significandAt m + 1 := by
  have hboth : scaleAt (m + 1) = scaleAt m ∧ significandAt (m + 1) = significandAt m + 1 := by
    unfold IsStep significandAt scaleAt at h
    unfold significandAt scaleAt
    split_ifs at h ⊢ <;> omega
  exact ⟨by rw [gapAt, gapAt, hboth.1], hboth.2⟩

/-- **The next number is one gap away.** -/
theorem valueAt_succ (m : Nat) : valueAt (m + 1) = valueAt m + gapAt m := by
  unfold valueAt
  by_cases h : IsStep (m + 1)
  · obtain ⟨hgap, hsig⟩ := succ_of_isStep h
    have hsig' : (significandAt m : ℚ) + 1 = 2 * significandAt (m + 1) := by exact_mod_cast hsig
    rw [hgap]
    linear_combination -(gapAt m) * hsig'
  · obtain ⟨hgap, hsig⟩ := succ_of_not_isStep h
    rw [hgap, hsig]
    push_cast
    ring

theorem middleAt_strictMono : StrictMono middleAt := by
  refine strictMono_nat_of_lt_succ fun m => ?_
  have hgap := gapAt_pos m
  have hgap' := gapAt_pos (m + 1)
  rw [middleAt, middleAt, valueAt_succ]
  linarith

/-! ## The interval of a number -/

/-- The decimal `d * 10 ^ e`. -/
def decimal (d : Nat) (e : Int) : ℚ := d * 10 ^ e

theorem cast_toNat_zpow {b : ℚ} {e : Int} (h : 0 ≤ e) : b ^ e.toNat = b ^ e := by
  rw [← zpow_natCast, Int.toNat_of_nonneg h]

theorem ratio_eq (x : Double) :
    (x.ratio.1 : ℚ) = valueAt x.magnitude * x.ratio.2 ∧ 0 < x.ratio.2 := by
  unfold ratio
  rw [valueAt, gapAt, ← scale_eq, ← significand_eq, twoPow_eq, twoPow_eq]
  split
  · rename_i h
    push_cast
    rw [cast_toNat_zpow h, mul_one]
    exact ⟨rfl, trivial⟩
  · rename_i h
    push_cast
    rw [cast_toNat_zpow (by omega), mul_assoc, ← zpow_add₀ (by norm_num), add_neg_cancel, zpow_zero,
      mul_one]
    exact ⟨rfl, by positivity⟩

/-- The unit of the interval is the gap above the number. -/
theorem unit_eq (x : Double) : ((if 0 ≤ x.scale then twoPow x.scale.toNat else 1 : Nat) : ℚ) =
    gapAt x.magnitude * x.ratio.2 := by
  unfold ratio
  rw [gapAt, ← scale_eq, twoPow_eq, twoPow_eq]
  split
  · rename_i h
    push_cast
    rw [cast_toNat_zpow h, mul_one]
  · rename_i h
    push_cast
    rw [cast_toNat_zpow (by omega), ← zpow_add₀ (by norm_num), add_neg_cancel, zpow_zero]

/-- **The interval of a number** goes from the middle below it to the middle above it. -/
theorem interval_eq (h : x.magnitude = k + 1) :
    0 < x.interval.2 ∧ (x.interval.1.1 : ℚ) = middleAt k * x.interval.2 ∧
      (x.interval.1.2 : ℚ) = middleAt (k + 1) * x.interval.2 := by
  obtain ⟨hnum, hden⟩ := ratio_eq x
  have hunit := unit_eq x
  have hstep : (x.significand = twoPow 52 && -1074 < x.scale) = decide (IsStep x.magnitude) := by
    rw [significand_eq, scale_eq, twoPow_eq, ← Bool.decide_and]
    rfl
  unfold interval
  dsimp only
  rw [hstep]
  generalize (if 0 ≤ x.scale then twoPow x.scale.toNat else 1 : Nat) = unit at hunit ⊢
  generalize x.ratio.1 = num at hnum ⊢
  generalize x.ratio.2 = den at *
  rw [h] at hnum hunit ⊢
  -- what is taken off is at most the number, so the subtraction is one of rationals as well
  have hle : unit ≤ num := by
    have hsig : (1 : ℚ) ≤ significandAt (k + 1) := by
      exact_mod_cast significandAt_pos k.succ_ne_zero
    have hpos : 0 ≤ gapAt (k + 1) * den := mul_nonneg (gapAt_pos _).le (Nat.cast_nonneg _)
    have : (unit : ℚ) ≤ num := by
      rw [hnum, hunit, valueAt, mul_assoc]
      exact le_mul_of_one_le_left hpos hsig
    exact_mod_cast this
  refine ⟨by omega, ?_, ?_⟩
  · have hmiddle : middleAt k = valueAt (k + 1) - gapAt k / 2 := by
      rw [middleAt, valueAt_succ]
      ring
    rw [Nat.cast_sub (by split <;> omega), hmiddle]
    push_cast
    split
    · rename_i hs
      -- at a power of two the gap below is half of the gap above
      rw [(succ_of_isStep (of_decide_eq_true hs)).1] at hunit
      rw [hnum, hunit]
      ring
    · rename_i hs
      rw [(succ_of_not_isStep (of_decide_eq_false (Bool.eq_false_iff.mpr hs))).1] at hunit
      rw [hnum, hunit]
      ring
  · push_cast
    rw [hnum, hunit, middleAt]
    ring

/--
The decimals that read back as the number with magnitude `k + 1`: those between the middles around
it, with the middles themselves if its significand is even.
-/
structure Rounds (k : Nat) (v : ℚ) : Prop where
  low : middleAt k ≤ v
  high : v ≤ middleAt (k + 1)
  strict : k % 2 = 0 → middleAt k < v ∧ v < middleAt (k + 1)

/-- Naturals that are multiples of one positive unit compare as the factors. -/
theorem cast_le_iff {p q : Nat} {u v unit : ℚ} (hunit : 0 < unit) (hp : (p : ℚ) = u * unit)
    (hq : (q : ℚ) = v * unit) : p ≤ q ↔ u ≤ v := by
  rw [← Nat.cast_le (α := ℚ), hp, hq, mul_le_mul_iff_left₀ hunit]

/-- **What reads back as a number is in its interval.** -/
theorem readsBack_iff (h : x.magnitude = k + 1) :
    readsBack x d e = true ↔ Rounds k (decimal d e) := by
  obtain ⟨hden, hlow, hhigh⟩ := interval_eq h
  have hparity : x.significand % 2 = 0 ↔ k % 2 ≠ 0 := by
    rw [significand_eq, significandAt_parity, h]
    omega
  unfold readsBack
  generalize x.interval = bounds at *
  obtain ⟨⟨low, high⟩, den⟩ := bounds
  dsimp only at hden hlow hhigh ⊢
  -- the decimal as a fraction, whatever the sign of the exponent
  obtain ⟨a, b, hab, hb, ha⟩ : ∃ a b, (if 0 ≤ e then (d * tenPow e.toNat * den, 1)
      else (d * den, tenPow (-e).toNat)) = (a, b) ∧ 0 < b ∧
        (a : ℚ) = decimal d e * (den * b : Nat) := by
    unfold decimal
    split
    · rename_i he
      refine ⟨_, _, rfl, Nat.one_pos, ?_⟩
      rw [tenPow_eq]
      push_cast
      rw [cast_toNat_zpow he]
      ring
    · rename_i he
      refine ⟨_, _, rfl, Nat.pow_pos (by decide), ?_⟩
      rw [tenPow_eq]
      push_cast
      rw [cast_toNat_zpow (by omega), zpow_neg]
      field_simp
  rw [hab]
  have hunit : (0 : ℚ) < (den * b : Nat) := by exact_mod_cast Nat.mul_pos hden hb
  have hlow' : ((low * b : Nat) : ℚ) = middleAt k * (den * b : Nat) := by
    push_cast
    rw [hlow]
    ring
  have hhigh' : ((high * b : Nat) : ℚ) = middleAt (k + 1) * (den * b : Nat) := by
    push_cast
    rw [hhigh]
    ring
  -- the tests of the program compare integers: one common denominator turns them to rationals
  have h₁ := cast_le_iff hunit hlow' ha
  have h₂ := cast_le_iff hunit ha hhigh'
  have h₃ := cast_le_iff hunit ha hlow'
  have h₄ := cast_le_iff hunit hhigh' ha
  rw [← not_iff_not, not_le, not_le] at h₃ h₄
  split
  · rename_i hk
    rw [Bool.and_eq_true, decide_eq_true_eq, decide_eq_true_eq, h₁, h₂]
    exact ⟨fun ⟨hl, hr⟩ => ⟨hl, hr, fun heven => absurd heven (hparity.mp hk)⟩,
      fun hr => ⟨hr.low, hr.high⟩⟩
  · rename_i hk
    rw [Bool.and_eq_true, decide_eq_true_eq, decide_eq_true_eq, h₃, h₄]
    have heven : k % 2 = 0 := by
      by_contra hodd
      exact hk (hparity.mpr hodd)
    exact ⟨fun ⟨hl, hr⟩ => ⟨hl.le, hr.le, fun _ => ⟨hl, hr⟩⟩, fun hr => hr.strict heven⟩

/-- **A decimal reads back as one number.** -/
theorem Rounds.unique {v : ℚ} {k' : Nat} (h : Rounds k v) (h' : Rounds k' v) : k = k' := by
  wlog hlt : k < k' generalizing k k'
  · rcases Nat.lt_trichotomy k k' with hk | hk | hk
    · exact this h h' hk
    · exact hk
    · exact (this h' h hk).symm
  -- the number above begins where the one below ends, and one of them has an odd significand
  have hle : middleAt (k + 1) ≤ middleAt k' := middleAt_strictMono.monotone hlt
  have hsame : k' = k + 1 := by
    by_contra hne
    have := middleAt_strictMono (show k + 1 < k' by omega)
    linarith [h.high, h'.low]
  subst hsame
  rcases Nat.mod_two_eq_zero_or_one k with hk | hk
  · linarith [(h.strict hk).2, h'.low]
  · linarith [h.high, (h'.strict (by omega)).1]

end Double

end KclModels

/-!
## Seventeen digits are enough

Decimals of seventeen digits lie closer together than the middles around a number. So one of the two
next to the number reads back as it, and the search for the shortest decimal ends with one that
does.
-/

namespace KclModels.Double

variable {x : Double} {k n d : Nat} {e : Int}

theorem roundDiv_cases (a b : Nat) : roundDiv a b = a / b ∨ roundDiv a b = a / b + 1 := by
  unfold roundDiv
  dsimp only
  split_ifs <;> simp

/-- The quotient that is cut off to get the decimal below a number. -/
theorem nearestOn_readsBack (h : nearestOn x e = some d) : readsBack x d e = true := by
  unfold nearestOn at h
  dsimp only at h
  generalize (if 0 ≤ e then (x.ratio.1, x.ratio.2 * tenPow e.toNat)
    else (x.ratio.1 * tenPow (-e).toNat, x.ratio.2)) = q at h
  split at h
  · rename_i hlow hhigh
    rcases roundDiv_cases q.1 q.2 with hd | hd
    · rw [← Option.some.inj h, hd, hlow]
    · rw [← Option.some.inj h, hd, hhigh]
  · rename_i hlow _
    rw [← Option.some.inj h, hlow]
  · rename_i _ hhigh
    rw [← Option.some.inj h, hhigh]
  · simp at h

/-- Two decimals that are close together do not lie on both sides of an interval. -/
theorem rounds_or_rounds (hlow : decimal d e ≤ valueAt (k + 1))
    (hhigh : valueAt (k + 1) < decimal (d + 1) e) (hfine : 10 ^ 16 * 10 ^ e ≤ valueAt (k + 1)) :
    Rounds k (decimal d e) ∨ Rounds k (decimal (d + 1) e) := by
  have hgap := gapAt_pos k
  have hgap' := gapAt_pos (k + 1)
  have hmiddle : middleAt k = valueAt (k + 1) - gapAt k / 2 := by
    rw [middleAt, valueAt_succ]
    ring
  have hmiddle' : middleAt (k + 1) = valueAt (k + 1) + gapAt (k + 1) / 2 := rfl
  have hnext : decimal (d + 1) e = decimal d e + 10 ^ e := by
    unfold decimal
    push_cast
    ring
  -- one step of the decimals is less than the interval is wide
  have hwidth : (10 : ℚ) ^ e < gapAt k / 2 + gapAt (k + 1) / 2 := by
    by_cases hs : IsStep (k + 1)
    · have hvalue : valueAt (k + 1) = 2 ^ 52 * gapAt (k + 1) := by
        rw [valueAt, hs.1]
        norm_num
      linarith [(succ_of_isStep hs).1]
    · have hvalue : valueAt (k + 1) ≤ 2 ^ 53 * gapAt (k + 1) := by
        refine mul_le_mul_of_nonneg_right ?_ hgap'.le
        exact_mod_cast (significandAt_lt (k + 1)).le
      linarith [(succ_of_not_isStep hs).1]
  -- the lower one is inside, or the next one is: it cannot jump over the interval
  by_cases hd : middleAt k < decimal d e
  · exact Or.inl ⟨hd.le, by linarith, fun _ => ⟨hd, by linarith⟩⟩
  · have hd' : decimal (d + 1) e < middleAt (k + 1) := by linarith
    exact Or.inr ⟨by linarith, hd'.le, fun _ => ⟨by linarith, hd'⟩⟩

/-- Of the two decimals around a number one reads back if they are close together. -/
theorem nearestOn_isSome (h : x.magnitude = k + 1) (hfine : 10 ^ 16 * 10 ^ e ≤ valueAt (k + 1)) :
    (nearestOn x e).isSome = true := by
  obtain ⟨hnum, hden⟩ := ratio_eq x
  obtain ⟨a, b, hab, hb, ha⟩ : ∃ a b, (if 0 ≤ e then (x.ratio.1, x.ratio.2 * tenPow e.toNat)
      else (x.ratio.1 * tenPow (-e).toNat, x.ratio.2)) = (a, b) ∧ 0 < b ∧
        (a : ℚ) * 10 ^ e = valueAt (k + 1) * b := by
    rw [h] at hnum
    split
    · rename_i he
      refine ⟨_, _, rfl, Nat.mul_pos hden (Nat.pow_pos (by decide)), ?_⟩
      rw [tenPow_eq, hnum]
      push_cast
      rw [cast_toNat_zpow he, mul_assoc]
    · rename_i he
      refine ⟨_, _, rfl, hden, ?_⟩
      rw [tenPow_eq]
      push_cast
      rw [cast_toNat_zpow (by omega), zpow_neg, hnum]
      field_simp
  have hb' : (0 : ℚ) < b := by exact_mod_cast hb
  have hpow : (0 : ℚ) < 10 ^ e := by positivity
  -- the quotient rounds down, so the number lies between it and the next
  have hlow : decimal (a / b) e ≤ valueAt (k + 1) := by
    have hle : ((a / b : Nat) : ℚ) * b ≤ a := by exact_mod_cast Nat.div_mul_le_self a b
    refine le_of_mul_le_mul_right ?_ hb'
    calc decimal (a / b) e * b = ((a / b : Nat) : ℚ) * b * 10 ^ e := by unfold decimal; ring
      _ ≤ a * 10 ^ e := mul_le_mul_of_nonneg_right hle hpow.le
      _ = valueAt (k + 1) * b := ha
  have hhigh : valueAt (k + 1) < decimal (a / b + 1) e := by
    have hlt : (a : ℚ) < ((a / b + 1 : Nat) : ℚ) * b := by
      exact_mod_cast (Nat.div_lt_iff_lt_mul hb).mp (Nat.lt_succ_self _)
    refine lt_of_mul_lt_mul_right ?_ hb'.le
    calc valueAt (k + 1) * b = a * 10 ^ e := ha.symm
      _ < ((a / b + 1 : Nat) : ℚ) * b * 10 ^ e := mul_lt_mul_of_pos_right hlt hpow
      _ = decimal (a / b + 1) e * b := by unfold decimal; ring
  unfold nearestOn
  dsimp only
  rw [hab]
  dsimp only
  rcases rounds_or_rounds hlow hhigh hfine with hr | hr
  · rw [(readsBack_iff h).mpr hr]
    cases readsBack x (a / b + 1) e <;> rfl
  · rw [(readsBack_iff h).mpr hr]
    cases readsBack x (a / b) e <;> rfl

theorem pow_digitCount_le (h : 0 < n) : 10 ^ (digitCount n - 1) ≤ n := by
  rcases Nat.eq_zero_or_pos (digitCount n - 1) with h0 | hpos
  · rw [h0]
    exact h
  · by_contra hlt
    have hle := (Nat.length_toDigits_le_iff (b := 10) (by decide) hpos).mpr (not_le.mp hlt)
    change digitCount n ≤ digitCount n - 1 at hle
    omega

/-- Numbers other than zero are not too small for their first digit to be found. -/
theorem valueAt_ge (k : Nat) : (10 : ℚ) ^ (-400 : Int) ≤ valueAt (k + 1) := by
  have hscale : -1074 ≤ scaleAt (k + 1) := by
    unfold scaleAt
    omega
  have hsig : (1 : ℚ) ≤ significandAt (k + 1) := by
    exact_mod_cast significandAt_pos k.succ_ne_zero
  calc (10 : ℚ) ^ (-400 : Int) ≤ 10 ^ (-358 : Int) :=
        zpow_le_zpow_right₀ (by norm_num) (by norm_num)
    _ ≤ (2 ^ (3 : Int)) ^ (-358 : Int) := by
      rw [zpow_neg, zpow_neg]
      exact inv_anti₀ (by positivity) (zpow_le_zpow_left₀ (by norm_num) (by norm_num) (by norm_num))
    _ = 2 ^ (-1074 : Int) := by rw [← zpow_mul]; norm_num
    _ ≤ gapAt (k + 1) := zpow_le_zpow_right₀ (by norm_num) hscale
    _ ≤ valueAt (k + 1) := le_mul_of_one_le_left (gapAt_pos _).le hsig

/-- The first digit of a number does not stand too far left. -/
theorem pow_leadingExponent_le (h : x.magnitude = k + 1) :
    (10 : ℚ) ^ leadingExponent x.ratio.1 x.ratio.2 ≤ valueAt (k + 1) := by
  obtain ⟨hnum, hden⟩ := ratio_eq x
  rw [h] at hnum
  unfold leadingExponent
  generalize x.ratio.1 = num at hnum ⊢
  generalize x.ratio.2 = den at hnum hden ⊢
  have hshift : (10 : ℚ) ^ (-400 : Int) * (tenPow 400 : Nat) = 1 := by
    rw [tenPow_eq, Nat.cast_pow, Nat.cast_ofNat, ← zpow_natCast, ← zpow_add₀ (by norm_num)]
    rfl
  generalize tenPow 400 = shift at hshift ⊢
  have hden' : (0 : ℚ) < den := by exact_mod_cast hden
  have hscaled : ((num * shift : Nat) : ℚ) = valueAt (k + 1) * shift * den := by
    push_cast
    rw [hnum]
    ring
  -- shifted by 400 digits even the least number has a digit before the point
  have hpos : 0 < num * shift / den := by
    refine Nat.div_pos ?_ hden
    have hone : (1 : ℚ) ≤ valueAt (k + 1) * shift := by
      rw [← hshift]
      exact mul_le_mul_of_nonneg_right (valueAt_ge k) (Nat.cast_nonneg _)
    have hle : (den : ℚ) ≤ (num * shift : Nat) := by
      rw [hscaled]
      exact le_mul_of_one_le_left hden'.le hone
    exact_mod_cast hle
  have hcut : ((num * shift / den : Nat) : ℚ) ≤ valueAt (k + 1) * shift := by
    refine le_of_mul_le_mul_right ?_ hden'
    rw [← hscaled]
    exact_mod_cast Nat.div_mul_le_self (num * shift) den
  have hfirst := pow_digitCount_le hpos
  have hcount : 0 < digitCount (num * shift / den) := Nat.length_toDigits_pos
  generalize num * shift / den = n at hcut hfirst hcount ⊢
  -- only the count of the digits of the shifted number is known, and it is shifted back
  calc (10 : ℚ) ^ ((digitCount n : Int) - 401)
      = 10 ^ (digitCount n - 1) * 10 ^ (-400 : Int) := by
        rw [← zpow_natCast, ← zpow_add₀ (by norm_num)]
        congr 1
        omega
    _ ≤ n * 10 ^ (-400 : Int) :=
        mul_le_mul_of_nonneg_right (by exact_mod_cast hfirst) (by positivity)
    _ ≤ valueAt (k + 1) * shift * 10 ^ (-400 : Int) :=
        mul_le_mul_of_nonneg_right hcut (by positivity)
    _ = valueAt (k + 1) := by rw [mul_assoc, mul_comm (shift : ℚ), hshift, mul_one]

theorem shortestFrom_readsBack {tries : Nat} : ∀ {e : Int} (n : Nat), n < tries →
    (nearestOn x (e - n)).isSome = true →
    readsBack x (shortestFrom x tries e).1 (shortestFrom x tries e).2 = true := by
  induction tries with
  | zero => exact fun n hn => absurd hn (Nat.not_lt_zero n)
  | succ tries ih =>
    intro e n hn hsome
    rw [shortestFrom]
    split
    · rename_i d hd
      exact nearestOn_readsBack hd
    · rename_i hnone
      cases n with
      | zero => simp [hnone] at hsome
      | succ n =>
        refine ih n (Nat.lt_of_succ_lt_succ hn) ?_
        rw [show e - 1 - n = e - (n + 1 : Nat) by omega]
        exact hsome

/-- **Seventeen digits are enough**: the shortest decimal of a number reads back as it. -/
theorem shortest_readsBack (h : x.magnitude = k + 1) :
    readsBack x x.shortest.1 x.shortest.2 = true := by
  have hsig : x.significand ≠ 0 := by
    rw [significand_eq, h]
    exact (significandAt_pos k.succ_ne_zero).ne'
  rw [shortest, if_neg hsig]
  refine shortestFrom_readsBack 16 (by decide) (nearestOn_isSome h ?_)
  rw [← zpow_natCast, ← zpow_add₀ (by norm_num)]
  rw [show ((16 : Nat) : Int) + (leadingExponent x.ratio.1 x.ratio.2 - (16 : Nat)) =
    leadingExponent x.ratio.1 x.ratio.2 by omega]
  exact pow_leadingExponent_le h

end KclModels.Double
