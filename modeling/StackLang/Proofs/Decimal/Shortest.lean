import Mathlib.Algebra.Order.Field.Power
import Mathlib.Tactic.FieldSimp
import Mathlib.Tactic.NormNum
import StackLang.Decimal.Shortest
import StackLang.Proofs.Decimal.Rounding

namespace StackLang.Decimal
open Binary64

/-- The number that a decimal stands for. -/
def value (d : Decimal) : ℚ := d.coefficient * 10 ^ d.exponent

theorem value_eq_div (d : Decimal) : d.value =
    (d.coefficient * 10 ^ d.exponent.toNat : ℕ) / (10 ^ (-d.exponent).toNat : ℕ) := by
  have hz : (10 : ℚ) ≠ 0 := by norm_num
  have he : d.exponent = (d.exponent.toNat : ℤ) - ((-d.exponent).toNat : ℤ) := by omega
  rw [value]
  nth_rewrite 1 [he]
  rw [zpow_sub₀ hz, zpow_natCast, zpow_natCast]
  push_cast
  ring

theorem toUnits_eq (d : Decimal) : d.toUnits = roundUnits
    (d.coefficient * 10 ^ d.exponent.toNat * unitsPerOne) (10 ^ (-d.exponent).toNat) := by
  simp only [toUnits, Nat.pow_eq]

/-- Whatever quotient a decimal is written as, it is read as the same magnitude. -/
theorem roundUnits_of_value {d : Decimal} {num den : ℕ} (hd : 0 < den)
    (h : (num : ℚ) / den = d.value) : roundUnits (num * unitsPerOne) den = d.toUnits := by
  rw [toUnits_eq]
  refine roundUnits_eq_of_div_eq hd (by positivity) ?_
  rw [Nat.cast_mul num, Nat.cast_mul (d.coefficient * _), mul_div_right_comm, mul_div_right_comm, h,
    value_eq_div]

theorem toUnits_mono {d d' : Decimal} (h : d.value ≤ d'.value) : d.toUnits ≤ d'.toUnits := by
  rw [toUnits_eq, toUnits_eq]
  refine roundUnits_le_of_div_le (by positivity) (by positivity) ?_
  rw [Nat.cast_mul (d.coefficient * _), Nat.cast_mul (d'.coefficient * _), mul_div_right_comm,
    mul_div_right_comm, ← value_eq_div, ← value_eq_div]
  exact mul_le_mul_of_nonneg_right h (Nat.cast_nonneg _)

/-- A decimal that stands for a magnitude of 53 significant bits is read as no other. -/
theorem toUnits_of_value {d : Decimal} {units : ℕ} (h : Representable units)
    (hv : d.value * unitsPerOne = units) : d.toUnits = units := by
  rw [← h.roundUnits_mul Nat.one_pos, toUnits_eq]
  refine roundUnits_eq_of_div_eq (by positivity) Nat.one_pos ?_
  rw [Nat.cast_mul (d.coefficient * _), mul_div_right_comm, ← value_eq_div, hv]
  simp

theorem toUnits_of_onGrid? {units : ℕ} {exponent : ℤ} {d : Decimal}
    (h : onGrid? units exponent = some d) : d.toUnits = units := by
  obtain ⟨coefficient, -, hc⟩ := List.exists_of_findSome?_eq_some h
  dsimp only at hc
  split at hc
  · next hu => cases hc; exact hu
  · cases hc

theorem value_mul_pow (units k : ℕ) :
    value ⟨units * Nat.pow 5 k, -(k : ℤ)⟩ * (Nat.pow 2 k : ℕ) = units := by
  have hten : (10 : ℚ) ^ k ≠ 0 := by positivity
  rw [value, Nat.pow_eq, Nat.pow_eq, zpow_neg, zpow_natCast]
  push_cast
  rw [mul_right_comm, mul_assoc (units : ℚ), ← mul_pow]
  norm_num

theorem value_exact (units : ℕ) : (exact units).value * unitsPerOne = units := by
  unfold exact unitsPerOne
  -- The powers cancel as they stand; neither is to be computed.
  generalize hk : 1074 = k
  subst hk
  exact value_mul_pow units 1074

/-- Of all the decimals tried, each is read as the magnitude; so is the one taken. -/
theorem toUnits_shortest {units : ℕ} (h : Representable units) :
    (shortest units).toUnits = units := by
  unfold shortest
  split
  · next h0 =>
    subst h0
    decide +kernel
  · dsimp only
    cases hf : (List.range 17).findSome? fun (n : ℕ) =>
      onGrid? units (leadingExponent units - n) with
    | none => exact toUnits_of_value h (value_exact units)
    | some d =>
      obtain ⟨n, -, hd⟩ := List.exists_of_findSome?_eq_some hf
      exact toUnits_of_onGrid? hd

end StackLang.Decimal
