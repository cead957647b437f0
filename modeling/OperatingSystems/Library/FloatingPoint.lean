import Mathlib.Algebra.Order.Field.Power
import Mathlib.Algebra.Order.Round
import Mathlib.Data.Int.Log
import Mathlib.Data.Rat.Floor
import Mathlib.Tactic.FieldSimp
import Mathlib.Tactic.Linarith

namespace OperatingSystems.Library

/-- The numbers of `p` significant binary digits, with exponents as large and as small as needed. -/
def Representable (p : ℕ) (x : ℚ) : Prop := ∃ m e : ℤ, |m| ≤ 2 ^ p ∧ x = m * 2 ^ e

/-- Rounding to a nearest number of `p` digits; what becomes of ties is left open. -/
structure Rounding (p : ℕ) where
  fl : ℚ → ℚ
  representable : ∀ x, Representable p (fl x)
  nearest : ∀ x y, Representable p y → |fl x - x| ≤ |y - x|

namespace Rounding

variable {p : ℕ} (r : Rounding p)

def add (x y : ℚ) : ℚ := r.fl (x + y)

def mul (x y : ℚ) : ℚ := r.fl (x * y)

def div (x y : ℚ) : ℚ := r.fl (x / y)

end Rounding

/-- A nearest integer, and of two the even one. -/
def roundHalfEven (x : ℚ) : ℤ :=
  if Int.fract x = 1 / 2 then 2 * ((⌊x⌋ + 1) / 2) else round x

variable {p : ℕ} {x y a b : ℚ} {m e : ℤ}

theorem roundHalfEven_error (x : ℚ) : |(roundHalfEven x : ℚ) - x| ≤ 1 / 2 := by
  unfold roundHalfEven
  split_ifs with htie
  · have hx : x = ⌊x⌋ + 1 / 2 := by
      rw [← htie, Int.floor_add_fract]
    have hside : 2 * ((⌊x⌋ + 1) / 2) = ⌊x⌋ ∨ 2 * ((⌊x⌋ + 1) / 2) = ⌊x⌋ + 1 := by
      omega
    rcases hside with hlow | hhigh
    · rw [hlow, abs_le]
      constructor <;> linarith
    · rw [hhigh, abs_le]
      push_cast
      constructor <;> linarith
  · rw [abs_sub_comm]
    exact abs_sub_round x

theorem roundHalfEven_nearest (x : ℚ) (n : ℤ) : |(roundHalfEven x : ℚ) - x| ≤ |(n : ℚ) - x| := by
  by_cases hn : roundHalfEven x = n
  · rw [hn]
  · have hone : (1 : ℚ) ≤ |(roundHalfEven x : ℚ) - n| := by
      exact_mod_cast Int.one_le_abs (sub_ne_zero.mpr hn)
    have htri := abs_sub_le (roundHalfEven x : ℚ) x n
    rw [abs_sub_comm x] at htri
    linarith [roundHalfEven_error x]

/-- Of two numbers the upper one is nearer only to what lies above their middle. -/
theorem middle_le (hlt : b < a) (h : |a - x| ≤ |b - x|) : a + b ≤ 2 * x := by
  rcases abs_cases (a - x) with ha | ha <;> rcases abs_cases (b - x) with hb | hb <;> linarith

theorem le_middle (hlt : b < a) (h : |b - x| ≤ |a - x|) : 2 * x ≤ a + b := by
  rcases abs_cases (a - x) with ha | ha <;> rcases abs_cases (b - x) with hb | hb <;> linarith

theorem abs_roundHalfEven_le {n : ℤ} (h : |x| ≤ n) : |roundHalfEven x| ≤ n := by
  obtain ⟨hlow, hhigh⟩ := abs_le.mp h
  rw [abs_le]
  constructor
  · by_contra hlt
    have hlt' : (roundHalfEven x : ℚ) < ((-n : ℤ) : ℚ) := by exact_mod_cast lt_of_not_ge hlt
    have hmiddle := le_middle hlt' (roundHalfEven_nearest x (-n))
    push_cast at hlt' hmiddle
    linarith
  · by_contra hlt
    have hlt' : (n : ℚ) < roundHalfEven x := by exact_mod_cast lt_of_not_ge hlt
    have hmiddle := middle_le hlt' (roundHalfEven_nearest x n)
    linarith

namespace Representable

theorem natCast {n : ℕ} (h : n ≤ 2 ^ p) : Representable p n := by
  refine ⟨n, 0, ?_, by simp⟩
  rw [Nat.abs_cast]
  exact_mod_cast h

theorem scale (h : Representable p x) (k : ℤ) : Representable p (x * 2 ^ k) := by
  obtain ⟨m, e, hm, rfl⟩ := h
  refine ⟨m, e + k, hm, ?_⟩
  rw [zpow_add₀ two_ne_zero, mul_assoc]

/-- With an exponent below `e` a number is at most the least one of `p` digits and exponent `e`. -/
theorem multiple_or_le (hp : 0 < p) (h : Representable p x) (e : ℤ) :
    (∃ m : ℤ, x = m * 2 ^ e) ∨ |x| ≤ 2 ^ (p - 1) * 2 ^ e := by
  obtain ⟨m, f, hm, rfl⟩ := h
  by_cases hf : e ≤ f
  · obtain ⟨d, rfl⟩ := Int.le.dest hf
    refine .inl ⟨m * 2 ^ d, ?_⟩
    rw [zpow_add₀ two_ne_zero, zpow_natCast]
    push_cast
    ring
  · have hhalf : (2 : ℚ) ^ f ≤ 2 ^ e / 2 := by
      have hle : (2 : ℚ) ^ f ≤ 2 ^ (e - 1) := zpow_le_zpow_right₀ one_le_two (by omega)
      rwa [zpow_sub_one₀ two_ne_zero] at hle
    have hm' : |(m : ℚ)| ≤ 2 ^ p := by exact_mod_cast hm
    have htwo : (2 : ℚ) ^ p = 2 * 2 ^ (p - 1) := by
      rw [← pow_succ', Nat.sub_add_cancel hp]
    have hf0 : (0 : ℚ) ≤ 2 ^ f := by positivity
    right
    calc |(m : ℚ) * 2 ^ f| = |(m : ℚ)| * 2 ^ f := by rw [abs_mul, abs_of_nonneg hf0]
      _ ≤ 2 ^ p * (2 ^ e / 2) := by gcongr
      _ = 2 ^ (p - 1) * 2 ^ e := by rw [htwo]; ring

end Representable

theorem abs_scaled_sub {u : ℚ} (hu : 0 < u) (x : ℚ) (n : ℤ) : |n * u - x| = |n - x / u| * u := by
  rw [← abs_of_pos hu, ← abs_mul, abs_of_pos hu, sub_mul, div_mul_cancel₀ x hu.ne']

/-- A nearest multiple of a unit. -/
theorem scaled_nearest {u : ℚ} (hu : 0 < u) (x : ℚ) (n : ℤ) :
    |roundHalfEven (x / u) * u - x| ≤ |n * u - x| := by
  rw [abs_scaled_sub hu, abs_scaled_sub hu]
  exact mul_le_mul_of_nonneg_right (roundHalfEven_nearest _ _) hu.le

theorem abs_scaled_le {u : ℚ} (hu : 0 < u) (h : |x| ≤ 2 ^ p * u) :
    |roundHalfEven (x / u)| ≤ 2 ^ p := by
  apply abs_roundHalfEven_le
  rw [abs_div, abs_of_pos hu, div_le_iff₀ hu]
  exact_mod_cast h

namespace Rounding

variable (r : Rounding p)

/-- A number that has no more digits stays as it is. -/
theorem exact (h : Representable p x) : r.fl x = x := by
  have hnear := r.nearest x x h
  rw [sub_self, abs_zero] at hnear
  exact sub_eq_zero.mp (abs_nonpos_iff.mp hnear)

theorem mono (h : x ≤ y) : r.fl x ≤ r.fl y := by
  rcases h.eq_or_lt with rfl | hlt
  · exact le_rfl
  · by_contra hgt
    -- `x` lies above the middle of the two results, and `y` below
    have hx := middle_le (lt_of_not_ge hgt) (r.nearest x (r.fl y) (r.representable y))
    have hy := le_middle (lt_of_not_ge hgt) (r.nearest y (r.fl x) (r.representable x))
    linarith

/-- Division by a power of two only moves the exponent. -/
theorem div_pow (hx : Representable p x) (k : ℕ) : r.div x (2 ^ k) = x / 2 ^ k := by
  have hscale := r.exact (hx.scale (-k))
  rwa [zpow_neg, zpow_natCast, ← div_eq_mul_inv] at hscale

theorem mul_div_pow (hx : Representable p x) (k : ℕ) :
    r.mul x (r.div 1 (2 ^ k)) = x / 2 ^ k := by
  have hone : Representable p 1 := by
    simpa using Representable.natCast (@Nat.one_le_two_pow p)
  rw [r.div_pow hone, mul, mul_one_div]
  exact r.div_pow hx k

/-- The error is at most half a unit in the last place. -/
theorem error_le (h : |x| ≤ 2 ^ p * 2 ^ e) : |r.fl x - x| ≤ 2 ^ e / 2 := by
  have hpos : (0 : ℚ) < 2 ^ e := by positivity
  have hgrid : Representable p (roundHalfEven (x / 2 ^ e) * 2 ^ e) :=
    ⟨_, e, abs_scaled_le hpos h, rfl⟩
  calc |r.fl x - x| ≤ |roundHalfEven (x / 2 ^ e) * 2 ^ e - x| := r.nearest x _ hgrid
    _ = |roundHalfEven (x / 2 ^ e) - x / 2 ^ e| * 2 ^ e := abs_scaled_sub hpos x _
    _ ≤ 1 / 2 * 2 ^ e := by
      gcongr
      exact roundHalfEven_error _
    _ = 2 ^ e / 2 := by ring

/-- The result, when a number of `p` digits is closer than half a unit in the last place. -/
theorem eq_of_near (hp : 0 < p) (hm : Representable p (m * 2 ^ e)) (hx : 2 ^ (p - 1) * 2 ^ e ≤ x)
    (hnear : |m * 2 ^ e - x| < 2 ^ e / 2) : r.fl x = m * 2 ^ e := by
  have hpos : (0 : ℚ) < 2 ^ e := by positivity
  have hbase : Representable p (2 ^ (p - 1) * 2 ^ e) := by
    have hnat : Representable p ((2 ^ (p - 1) : ℕ) : ℚ) :=
      .natCast (Nat.pow_le_pow_right two_pos (Nat.sub_le p 1))
    simpa using hnat.scale e
  have hge : 2 ^ (p - 1) * 2 ^ e ≤ r.fl x := (r.exact hbase).symm.trans_le (r.mono hx)
  obtain ⟨k, hk⟩ : ∃ k : ℤ, r.fl x = k * 2 ^ e := by
    rcases (r.representable x).multiple_or_le hp e with hk | hle
    · exact hk
    · refine ⟨2 ^ (p - 1), ?_⟩
      push_cast
      exact le_antisymm ((le_abs_self _).trans hle) hge
  have herror := (r.nearest x _ hm).trans_lt hnear
  rw [hk] at herror
  have hclose : |((k - m : ℤ) : ℚ)| * 2 ^ e < 1 * 2 ^ e := by
    have htri := abs_sub_le (k * 2 ^ e : ℚ) x (m * 2 ^ e)
    rw [abs_sub_comm x, ← sub_mul, abs_mul, abs_of_pos hpos] at htri
    push_cast
    linarith
  have hone : |k - m| < 1 := by exact_mod_cast lt_of_mul_lt_mul_right hclose hpos.le
  rw [hk, sub_eq_zero.mp (Int.abs_lt_one_iff.mp hone)]

end Rounding

/-- To nearest, and of two to the even one: the rounding that arithmetic starts with. -/
def roundToEven (p : ℕ) (x : ℚ) : ℚ :=
  let ulp : ℚ := 2 ^ (Int.log 2 |x| + 1 - p)
  roundHalfEven (x / ulp) * ulp

theorem roundToEven_zero : roundToEven p 0 = 0 := by
  simp [roundToEven, roundHalfEven]

/-- A number that is not zero has exactly `p` digits down to its last place. -/
theorem ulp_bounds (hp : 0 < p) (hx : x ≠ 0) : |x| ≤ 2 ^ p * 2 ^ (Int.log 2 |x| + 1 - p) ∧
    2 ^ (p - 1) * 2 ^ (Int.log 2 |x| + 1 - p) ≤ |x| := by
  have hhigh : (p : ℤ) + (Int.log 2 |x| + 1 - p) = Int.log 2 |x| + 1 := by omega
  have hlow : ((p - 1 : ℕ) : ℤ) + (Int.log 2 |x| + 1 - p) = Int.log 2 |x| := by omega
  rw [← zpow_natCast, ← zpow_natCast, ← zpow_add₀ two_ne_zero, ← zpow_add₀ two_ne_zero, hhigh, hlow]
  constructor
  · exact_mod_cast (Int.lt_zpow_succ_log_self one_lt_two |x|).le
  · exact_mod_cast Int.zpow_log_le_self one_lt_two (abs_pos.mpr hx)

theorem roundToEven_representable (hp : 0 < p) (x : ℚ) : Representable p (roundToEven p x) := by
  by_cases hx : x = 0
  · rw [hx, roundToEven_zero]
    simpa using Representable.natCast (p := p) (Nat.zero_le _)
  · exact ⟨_, _, abs_scaled_le (by positivity) (ulp_bounds hp hx).1, rfl⟩

theorem roundToEven_nearest (hp : 0 < p) (x : ℚ) (hy : Representable p y) :
    |roundToEven p x - x| ≤ |y - x| := by
  by_cases hx : x = 0
  · rw [hx, roundToEven_zero, sub_self, abs_zero]
    exact abs_nonneg _
  · have hpos : (0 : ℚ) < 2 ^ (Int.log 2 |x| + 1 - p) := by positivity
    rcases hy.multiple_or_le hp (Int.log 2 |x| + 1 - p) with ⟨n, rfl⟩ | hle
    · exact scaled_nearest hpos x n
    · -- the least number with as many places before the point as `x` is at least as near
      have hbelow := (ulp_bounds hp hx).2
      obtain ⟨n, hn⟩ : ∃ n : ℤ, |n * 2 ^ (Int.log 2 |x| + 1 - p) - x| =
          |x| - 2 ^ (p - 1) * 2 ^ (Int.log 2 |x| + 1 - p) := by
        rcases abs_cases x with ⟨habs, hsign⟩ | ⟨habs, hsign⟩
        · refine ⟨2 ^ (p - 1), ?_⟩
          rw [habs] at hbelow ⊢
          push_cast
          rw [abs_sub_comm, abs_of_nonneg (sub_nonneg.mpr hbelow)]
        · refine ⟨-2 ^ (p - 1), ?_⟩
          rw [habs] at hbelow ⊢
          push_cast
          rw [abs_of_nonneg (by linarith)]
          ring
      refine (scaled_nearest hpos x n).trans ?_
      rw [hn, abs_sub_comm]
      linarith [abs_sub_abs_le_abs_sub x y]

def Rounding.toEven (p : ℕ) (hp : 0 < p) : Rounding p where
  fl := roundToEven p
  representable := roundToEven_representable hp
  nearest x _ hy := roundToEven_nearest hp x hy

end OperatingSystems.Library
