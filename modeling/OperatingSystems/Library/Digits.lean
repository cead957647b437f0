import Mathlib.Data.Int.ModEq
import Mathlib.Tactic.Ring

namespace OperatingSystems.Library

/-- The digit of `x` at the place `i`, in base `B`; those of a negative number are its two's complement. -/
def digit (B x : ℤ) (i : ℕ) : ℤ := x / B ^ i % B

/-- `x` with the digit `v` at the place `k`. -/
def setDigit (B x : ℤ) (k : ℕ) (v : ℤ) : ℤ := x + (v - digit B x k) * B ^ k

variable {B x y v : ℤ} {i k : ℕ}

/-- A digit is that of the number up to multiples of the next power. -/
theorem digit_congr (hB : 0 < B) (h : x ≡ y [ZMOD B ^ (i + 1)]) : digit B x i = digit B y i := by
  obtain ⟨c, hc⟩ := h.symm.dvd
  have hpow : 0 < B ^ i := Int.pow_pos hB
  obtain rfl : x = y + B ^ i * (B * c) := by
    rw [pow_succ, Int.mul_assoc] at hc
    omega
  rw [digit, digit, Int.add_mul_ediv_left _ _ hpow.ne', Int.add_mul_emod_self_left]

theorem setDigit_div (hB : 0 < B) : setDigit B x k v / B ^ k = v + B * (x / B ^ (k + 1)) := by
  have hpow : 0 < B ^ k := Int.pow_pos hB
  have hdiv : setDigit B x k v / B ^ k = x / B ^ k + (v - digit B x k) :=
    Int.add_mul_ediv_right _ _ hpow.ne'
  have hmod := Int.emod_add_mul_ediv (x / B ^ k) B
  rw [pow_succ, ← Int.ediv_ediv_of_nonneg hpow.le, hdiv, digit]
  omega

theorem digit_setDigit_self (hB : 0 < B) (hv : 0 ≤ v) (hlt : v < B) :
    digit B (setDigit B x k v) k = v := by
  rw [digit, setDigit_div hB, Int.add_mul_emod_self_left, Int.emod_eq_of_lt hv hlt]

theorem digit_setDigit_of_lt (hB : 0 < B) (hi : i < k) : digit B (setDigit B x k v) i = digit B x i := by
  apply digit_congr hB
  have hzero : (v - digit B x k) * B ^ k ≡ 0 [ZMOD B ^ (i + 1)] :=
    Int.modEq_zero_iff_dvd.mpr ((pow_dvd_pow B (Nat.succ_le_of_lt hi)).mul_left _)
  have hsum := hzero.add_left x
  rwa [add_zero] at hsum

theorem digit_setDigit_of_gt (hB : 0 < B) (hv : 0 ≤ v) (hlt : v < B) (hi : k < i) :
    digit B (setDigit B x k v) i = digit B x i := by
  have hpow : 0 < B ^ k := Int.pow_pos hB
  have hnext : 0 < B ^ (k + 1) := Int.pow_pos hB
  -- both numbers agree above the place `k`
  have hhigh : setDigit B x k v / B ^ (k + 1) = x / B ^ (k + 1) := by
    rw [pow_succ B k, ← Int.ediv_ediv_of_nonneg hpow.le, setDigit_div hB,
      Int.add_mul_ediv_left _ _ hB.ne', Int.ediv_eq_zero_of_lt hv hlt, Int.zero_add, pow_succ]
  obtain ⟨j, rfl⟩ := Nat.exists_eq_add_of_lt hi
  have hsplit : B ^ (k + j + 1) = B ^ (k + 1) * B ^ j := by ring
  rw [digit, digit, hsplit, ← Int.ediv_ediv_of_nonneg hnext.le, ← Int.ediv_ediv_of_nonneg hnext.le,
    hhigh]

theorem digit_setDigit_of_ne (hB : 0 < B) (hv : 0 ≤ v) (hlt : v < B) (hi : i ≠ k) :
    digit B (setDigit B x k v) i = digit B x i := by
  rcases Nat.lt_or_gt_of_ne hi with hlow | hhigh
  · exact digit_setDigit_of_lt hB hlow
  · exact digit_setDigit_of_gt hB hv hlt hhigh

/-- A register that keeps a number up to a multiple of a power keeps the digits below it. -/
theorem digit_bmod {n : ℕ} {m : ℕ} (hB : 0 < B) (hm : (m : ℤ) = B ^ n) (hi : i < n) :
    digit B (x.bmod m) i = digit B x i := by
  apply digit_congr hB
  have hmod : x.bmod m ≡ x [ZMOD m] := Int.bmod_emod
  rw [hm] at hmod
  exact hmod.of_dvd (pow_dvd_pow B (Nat.succ_le_of_lt hi))

end OperatingSystems.Library
