import OperatingSystems.ProducerConsumer.Buffer

namespace OperatingSystems.ProducerConsumer

variable {min max : Int32} {word : UInt32}

/-- How many integers lie between the bounds. -/
def width (min max : Int32) : ℤ := max.toInt - min.toInt + 1

/-- The divisor of the path with the instruction: an `unsigned int`. -/
def instructionDivisor (min max : Int32) : UInt32 := (max - min + 1).toUInt32

/-- The divisor of the path with the twister: the `int`, extended by its sign to `unsigned long`. -/
def twisterDivisor (min max : Int32) : UInt64 := (max - min + 1).toInt64.toUInt64

/-- What a caller of `rdrand` relies on when the machine hands over `word`. -/
structure InRange (min max : Int32) (word : UInt32) : Prop where
  instruction_divides : instructionDivisor min max ≠ 0
  twister_divides : twisterDivisor min max ≠ 0
  agree : rdrand min max ⟨true, word⟩ = rdrand min max ⟨false, word⟩
  min_le : min ≤ rdrand min max ⟨true, word⟩
  le_max : rdrand min max ⟨true, word⟩ ≤ max

theorem one_le_width (hle : min ≤ max) : 1 ≤ width min max := by
  have hint : min.toInt ≤ max.toInt := Int32.le_iff_toInt_le.mp hle
  unfold width
  omega

theorem width_le (min max : Int32) : width min max ≤ 2 ^ 32 := by
  have hmin := min.le_toInt
  have hmax := max.toInt_lt
  unfold width
  omega

/-- The unsigned reading of a machine word. -/
theorem toNat_eq_toInt_emod {w : ℕ} (x : BitVec w) : (x.toNat : ℤ) = x.toInt % (2 ^ w : ℕ) := by
  have hlt : (x.toNat : ℤ) < (2 ^ w : ℕ) := Int.ofNat_lt.mpr x.isLt
  rw [BitVec.toInt_eq_toNat_bmod, Int.bmod_emod, Int.emod_eq_of_lt (Int.natCast_nonneg _) hlt]

theorem int32_toUInt32_toNat (x : Int32) : (x.toUInt32.toNat : ℤ) = x.toInt % 2 ^ 32 :=
  toNat_eq_toInt_emod x.toBitVec

theorem int64_toUInt64_toNat (x : Int64) : (x.toUInt64.toNat : ℤ) = x.toInt % 2 ^ 64 :=
  toNat_eq_toInt_emod x.toBitVec

theorem uint32_toInt32_toInt (x : UInt32) : x.toInt32.toInt = (x.toNat : ℤ).bmod (2 ^ 32) :=
  x.toBitVec.toInt_eq_toNat_bmod

theorem uint64_toInt64_toInt (x : UInt64) : x.toInt64.toInt = (x.toNat : ℤ).bmod (2 ^ 64) :=
  x.toBitVec.toInt_eq_toNat_bmod

/-- The `int` that both divisors come from. -/
theorem span_toInt : (max - min + 1).toInt = (width min max).bmod (2 ^ 32) := by
  have hone : (1 : Int32).toInt = 1 := by decide
  rw [Int32.toInt_add, Int32.toInt_sub, Int.bmod_add_bmod, hone, width]

theorem instructionDivisor_toNat (min max : Int32) :
    ((instructionDivisor min max).toNat : ℤ) = width min max % 2 ^ 32 := by
  have hmod : (width min max).bmod (2 ^ 32) % (2 ^ 32 : ℕ) = width min max % (2 ^ 32 : ℕ) :=
    Int.bmod_emod
  rw [instructionDivisor, int32_toUInt32_toNat, span_toInt]
  exact_mod_cast hmod

theorem twisterDivisor_toNat (min max : Int32) :
    ((twisterDivisor min max).toNat : ℤ) = (width min max).bmod (2 ^ 32) % 2 ^ 64 := by
  rw [twisterDivisor, int64_toUInt64_toNat, Int32.toInt_toInt64, span_toInt]

/-- The instruction's path divides by zero only over the range of all `int`s. -/
theorem instructionDivisor_ne_zero_iff (hle : min ≤ max) :
    instructionDivisor min max ≠ 0 ↔ width min max < 2 ^ 32 := by
  have hpos := one_le_width hle
  have hfull := width_le min max
  have hdiv := instructionDivisor_toNat min max
  have hzero : (0 : UInt32).toNat = 0 := rfl
  rw [Ne, ← UInt32.toNat_inj, hzero]
  omega

/-- So does the twister's. -/
theorem twisterDivisor_ne_zero_iff (hle : min ≤ max) :
    twisterDivisor min max ≠ 0 ↔ width min max < 2 ^ 32 := by
  have hpos := one_le_width hle
  have hfull := width_le min max
  have hdiv := twisterDivisor_toNat min max
  have hzero : (0 : UInt64).toNat = 0 := rfl
  rw [Int.bmod_def] at hdiv
  rw [Ne, ← UInt64.toNat_inj, hzero]
  push_cast at hdiv
  split_ifs at hdiv
  · omega
  · omega

/-- An `int` keeps of a value what it is modulo `2 ^ 32`. -/
theorem bmod_congr {a b : ℤ} (h : a % 2 ^ 32 = b % 2 ^ 32) : a.bmod (2 ^ 32) = b.bmod (2 ^ 32) := by
  have hmod : a % (2 ^ 32 : ℕ) = b % (2 ^ 32 : ℕ) := by
    push_cast
    exact h
  calc a.bmod (2 ^ 32) = (a % (2 ^ 32 : ℕ)).bmod (2 ^ 32) := (Int.emod_bmod _ _).symm
    _ = (b % (2 ^ 32 : ℕ)).bmod (2 ^ 32) := by rw [hmod]
    _ = b.bmod (2 ^ 32) := Int.emod_bmod _ _

theorem rdrand_instruction : rdrand min max ⟨true, word⟩ =
    (word % instructionDivisor min max + min.toUInt32).toInt32 := if_pos rfl

theorem rdrand_twister : rdrand min max ⟨false, word⟩ =
    (word.toUInt64 % twisterDivisor min max + min.toInt64.toUInt64).toInt64.toInt32 :=
  if_neg Bool.false_ne_true

theorem rdrand_instruction_toInt : (rdrand min max ⟨true, word⟩).toInt =
    ((word.toNat % (instructionDivisor min max).toNat : ℕ) + min.toInt).bmod (2 ^ 32) := by
  have hmin := int32_toUInt32_toNat min
  rw [rdrand_instruction, uint32_toInt32_toInt, UInt32.toNat_add, UInt32.toNat_mod]
  apply bmod_congr
  omega

theorem rdrand_twister_toInt : (rdrand min max ⟨false, word⟩).toInt =
    ((word.toNat % (twisterDivisor min max).toNat : ℕ) + min.toInt).bmod (2 ^ 32) := by
  have hmin := int64_toUInt64_toNat min.toInt64
  rw [Int32.toInt_toInt64] at hmin
  rw [rdrand_twister, Int64.toInt_toInt32, uint64_toInt64_toInt,
    Int.bmod_bmod_of_dvd (Nat.pow_dvd_pow 2 (show 32 ≤ 64 by decide)), UInt64.toNat_add,
    UInt64.toNat_mod, UInt32.toNat_toUInt64]
  apply bmod_congr
  omega

/-- Divided by the instruction's divisor, every word comes out between the bounds, unless the bounds
span all of `int`. -/
theorem rdrand_instruction_eq (word : UInt32) (hle : min ≤ max) (hwidth : width min max < 2 ^ 32) :
    (rdrand min max ⟨true, word⟩).toInt = (word.toNat : ℤ) % width min max + min.toInt := by
  have hpos := one_le_width hle
  have hdiv : ((instructionDivisor min max).toNat : ℤ) = width min max := by
    rw [instructionDivisor_toNat]
    exact Int.emod_eq_of_lt (by omega) hwidth
  have hlt := Int.emod_lt_of_pos (word.toNat : ℤ) (show 0 < width min max by omega)
  have hnonneg := Int.emod_nonneg (word.toNat : ℤ) (show width min max ≠ 0 by omega)
  have hmin := min.le_toInt
  have hmax := max.toInt_lt
  rw [rdrand_instruction_toInt, Int.natCast_emod, hdiv]
  unfold width at hlt hnonneg ⊢
  exact Int.bmod_eq_of_le (by omega) (by omega)

/-- While the width is an `int`, the twister's divisor is the instruction's. -/
theorem rdrand_agree_of_lt (hle : min ≤ max) (hwidth : width min max < 2 ^ 31) :
    rdrand min max ⟨true, word⟩ = rdrand min max ⟨false, word⟩ := by
  have hpos := one_le_width hle
  have hbmod : (width min max).bmod (2 ^ 32) = width min max :=
    Int.bmod_eq_of_le (by omega) (by omega)
  have htwister := twisterDivisor_toNat min max
  have hinstruction := instructionDivisor_toNat min max
  have hdiv : (twisterDivisor min max).toNat = (instructionDivisor min max).toNat := by
    rw [hbmod] at htwister
    omega
  rw [← Int32.toInt_inj, rdrand_instruction_toInt, rdrand_twister_toInt, hdiv]

/-- A width that is not an `int` becomes negative, and its extension exceeds every word: the twister's
word is not reduced at all. -/
theorem rdrand_twister_of_ge (hwidth : 2 ^ 31 ≤ width min max) (hlt : width min max < 2 ^ 32) :
    (rdrand min max ⟨false, word⟩).toInt = (word.toNat + min.toInt).bmod (2 ^ 32) := by
  have hbmod : (width min max).bmod (2 ^ 32) = width min max - 2 ^ 32 := by
    rw [Int.bmod_eq_iff (by decide)]
    exact ⟨by omega, by omega, by omega⟩
  have htwister := twisterDivisor_toNat min max
  rw [hbmod] at htwister
  have hword := word.toNat_lt
  have hsmall : word.toNat < (twisterDivisor min max).toNat := by omega
  rw [rdrand_twister_toInt, Nat.mod_eq_of_lt hsmall]

/-- Such a width leaves the paths in agreement exactly on the words below it. -/
theorem rdrand_agree_iff_of_ge (hle : min ≤ max) (hwidth : 2 ^ 31 ≤ width min max)
    (hlt : width min max < 2 ^ 32) :
    rdrand min max ⟨true, word⟩ = rdrand min max ⟨false, word⟩ ↔ (word.toNat : ℤ) < width min max := by
  have hword := word.toNat_lt
  have hmin := min.le_toInt
  have hmax := max.toInt_lt
  have hbounds : width min max = max.toInt - min.toInt + 1 := rfl
  rw [← Int32.toInt_inj, rdrand_instruction_eq word hle hlt, rdrand_twister_of_ge hwidth hlt]
  by_cases hsmall : (word.toNat : ℤ) < width min max
  · rw [Int.emod_eq_of_lt (by omega) hsmall, Int.bmod_eq_of_le (by omega) (by omega)]
    exact iff_of_true rfl hsmall
  · -- the word is reduced once on one path and not at all on the other
    have hreduced : (word.toNat : ℤ) % width min max = word.toNat - width min max := by
      rw [← Int.sub_emod_right]
      exact Int.emod_eq_of_lt (by omega) (by omega)
    rw [hreduced, eq_comm, Int.bmod_eq_iff (by decide)]
    refine iff_of_false (fun hsame => ?_) hsmall
    have hdvd := hsame.2.2
    omega

/-- `rdrand` serves its caller exactly when the width of the range is an `int`, or an `unsigned int`
that the word stays below. -/
theorem rdrand_inRange_iff (min max : Int32) (word : UInt32) (hle : min ≤ max) :
    InRange min max word ↔
      width min max < 2 ^ 31 ∨ (width min max < 2 ^ 32 ∧ (word.toNat : ℤ) < width min max) := by
  have hpos := one_le_width hle
  constructor
  · intro h
    have hlt := (instructionDivisor_ne_zero_iff hle).mp h.instruction_divides
    by_cases hwidth : width min max < 2 ^ 31
    · exact Or.inl hwidth
    · exact Or.inr ⟨hlt, (rdrand_agree_iff_of_ge hle (not_lt.mp hwidth) hlt).mp h.agree⟩
  · intro h
    have hlt : width min max < 2 ^ 32 := by omega
    have hresult := rdrand_instruction_eq word hle hlt
    have hnonneg := Int.emod_nonneg (word.toNat : ℤ) (show width min max ≠ 0 by omega)
    have hless := Int.emod_lt_of_pos (word.toNat : ℤ) (show 0 < width min max by omega)
    have hbounds : width min max = max.toInt - min.toInt + 1 := rfl
    exact
      { instruction_divides := (instructionDivisor_ne_zero_iff hle).mpr hlt
        twister_divides := (twisterDivisor_ne_zero_iff hle).mpr hlt
        agree := by
          by_cases hwidth : width min max < 2 ^ 31
          · exact rdrand_agree_of_lt hle hwidth
          · rw [rdrand_agree_iff_of_ge hle (not_lt.mp hwidth) hlt]
            omega
        min_le := by
          rw [Int32.le_iff_toInt_le, hresult]
          omega
        le_max := by
          rw [Int32.le_iff_toInt_le, hresult]
          omega }

/-- The producer's sleep between 3 and 7 seconds. -/
theorem rdrand_inRange_sleep : (3 : Int32) ≤ 7 ∧ InRange 3 7 0xFFFFFFFF :=
  ⟨by decide, (rdrand_inRange_iff 3 7 0xFFFFFFFF (by decide)).mpr (Or.inl (by decide))⟩

/-- From `INT_MIN` to `0` the instruction makes `-2` of the word, the twister `INT_MAX`; from `INT_MIN`
to `INT_MAX` both divide by zero. -/
theorem rdrand_out_of_range :
    (Int32.minValue ≤ 0 ∧ rdrand Int32.minValue 0 ⟨true, 0xFFFFFFFF⟩ = -2 ∧
      rdrand Int32.minValue 0 ⟨false, 0xFFFFFFFF⟩ = Int32.maxValue ∧
      ¬ InRange Int32.minValue 0 0xFFFFFFFF) ∧
    (Int32.minValue ≤ Int32.maxValue ∧ instructionDivisor Int32.minValue Int32.maxValue = 0 ∧
      twisterDivisor Int32.minValue Int32.maxValue = 0 ∧
      ¬ InRange Int32.minValue Int32.maxValue 0) :=
  ⟨⟨by decide, by decide, by decide, fun h => absurd h.agree (by decide)⟩,
    by decide, by decide, by decide, fun h => h.instruction_divides (by decide)⟩

end OperatingSystems.ProducerConsumer
