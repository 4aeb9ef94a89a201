import Mathlib.Algebra.Order.Field.Rat
import Mathlib.Tactic.Ring
import TreeQuery.Number.Decimal
import TreeQuery.Proofs.Text.Digits

/-! # The number that a decimal denotes

Decimals are compared without raising ten to a scale: by the place of the first digit, and then by their
digits, filled up with zeros to the same scale. This tells apart exactly the decimals that denote different
numbers (`same_iff`), so it is an equivalence. -/

namespace TreeQuery.Decimal

variable {a b c : Decimal}

/-- The number that a decimal denotes. -/
def value (d : Decimal) : ℚ := d.digits * 10 ^ (-d.scale)

theorem value_eq_zero_iff : a.value = 0 ↔ a.digits = 0 := by
  have hpow : (10 : ℚ) ^ (-a.scale) ≠ 0 := zpow_ne_zero _ (by norm_num)
  rw [value, mul_eq_zero, or_iff_left hpow, Int.cast_eq_zero]

/-- Decimals denote one number if the one with the smaller scale has the digits of the other one when it is
    filled up with zeros. -/
theorem value_eq_iff_of_scale_le (h : a.scale ≤ b.scale) :
    a.value = b.value ↔ a.digits * 10 ^ (b.scale - a.scale).toNat = b.digits := by
  have hpow : (10 : ℚ) ^ (-b.scale) ≠ 0 := zpow_ne_zero _ (by norm_num)
  have hscale : -a.scale = ((b.scale - a.scale).toNat : ℤ) + -b.scale := by omega
  have ha : a.value = ((a.digits * 10 ^ (b.scale - a.scale).toNat : ℤ) : ℚ) * 10 ^ (-b.scale) := by
    rw [value, hscale, zpow_add₀ (by norm_num), zpow_natCast]
    push_cast
    ring
  rw [ha, value, mul_left_inj' hpow, Int.cast_inj]

/-! ### Sizes -/

/-- Zeros behind the digits count as digits. -/
theorem size_of_digits_eq {k : Nat} (h : a.digits ≠ 0) (hk : a.digits * 10 ^ k = b.digits) :
    b.size = a.size + k := by
  have habs : b.digits.natAbs = a.digits.natAbs * 10 ^ k := by
    rw [← hk, Int.natAbs_mul, Int.natAbs_pow]
    rfl
  rw [size, size, digitText, digitText, habs, Digits.ofNat_mul_pow (Int.natAbs_pos.mpr h), List.length_append,
    List.length_replicate]

/-! ### Comparison -/

theorem same_comm (a b : Decimal) : a.same b = b.same a := by
  unfold same
  by_cases h : a.digits = 0 ∨ b.digits = 0
  · rw [if_pos h, if_pos h.symm]
    exact Bool.beq_comm
  · rw [if_neg h, if_neg fun h' => h h'.symm]
    exact congrArg₂ _ Bool.beq_comm Bool.beq_comm

/-- Comparing decimals compares the numbers that they denote. -/
theorem same_iff : a.same b = true ↔ a.value = b.value := by
  -- The comparison does not depend on the order, so the first one may have the smaller scale.
  wlog hle : a.scale ≤ b.scale generalizing a b with h
  · rw [same_comm, h (by omega), eq_comm]
  unfold same
  split
  · rename_i hzero
    rw [beq_iff_eq]
    rcases hzero with hz | hz
    · rw [hz, value_eq_zero_iff.mpr hz, eq_comm, eq_comm (a := (0 : ℚ)), value_eq_zero_iff]
    · rw [hz, value_eq_zero_iff.mpr hz, value_eq_zero_iff]
  · rename_i hne
    rw [not_or] at hne
    have hzero : (a.scale - b.scale).toNat = 0 := by omega
    rw [Bool.and_eq_true, beq_iff_eq, beq_iff_eq, value_eq_iff_of_scale_le hle, hzero, pow_zero, mul_one]
    refine and_iff_right_of_imp fun h => ?_
    have hsize := size_of_digits_eq hne.1 h
    omega

theorem same_trans (hab : a.same b = true) (hbc : b.same c = true) : a.same c = true :=
  same_iff.mpr ((same_iff.mp hab).trans (same_iff.mp hbc))

end TreeQuery.Decimal
