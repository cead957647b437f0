import Mathlib.Order.Interval.Set.Defs
import Mathlib.Tactic.NormNum
import OperatingSystems.Library.FloatingPoint
import OperatingSystems.MersenneTwister.Outputs

namespace OperatingSystems.MersenneTwister

open Library

section Doubles

variable (r : Rounding 53)

/-- The conversion of an `unsigned long`. -/
def toDouble (x : UInt64) : ℚ := r.fl x.toNat

/-- A random number on the real interval [0,1]. -/
def genrandReal1 (g : State) : ℚ × State :=
  let (x, g) := genrandInt32 g
  (r.mul (toDouble r x) (r.div 1 4294967295), g)

/-- A random number on the real interval [0,1). -/
def genrandReal2 (g : State) : ℚ × State :=
  let (x, g) := genrandInt32 g
  (r.mul (toDouble r x) (r.div 1 4294967296), g)

/-- A random number on the real interval (0,1). -/
def genrandReal3 (g : State) : ℚ × State :=
  let (x, g) := genrandInt32 g
  (r.mul (r.add (toDouble r x) (1 / 2)) (r.div 1 4294967296), g)

/-- A random number on [0,1) with 53-bit resolution. -/
def genrandRes53 (g : State) : ℚ × State :=
  let (x, g) := genrandInt32 g
  let (y, g) := genrandInt32 g
  let a := x >>> 5
  let b := y >>> 6
  (r.mul (r.add (r.mul (toDouble r a) 67108864) (toDouble r b)) (r.div 1 9007199254740992), g)

end Doubles

variable {r : Rounding 53} {g g' : State} {x : UInt64} {n n' : ℕ}

theorem genrandInt32_lt (hg : machine.Reachable g) : (genrandInt32 g).1.toNat < 2 ^ 32 :=
  output_lt hg 0

theorem genrandInt32_reachable (hg : machine.Reachable g) :
    machine.Reachable (genrandInt32 g).2 := by
  have hstep : machine.step g .genrandInt32 = some (genrandInt32 g).2 := rfl
  exact hg.step hstep

theorem toDouble_eq (hx : x.toNat < 2 ^ 32) : toDouble r x = x.toNat :=
  r.exact (.natCast (hx.le.trans (by norm_num)))

theorem toNat_shiftRight_five (x : UInt64) : (x >>> 5).toNat = x.toNat / 2 ^ 5 := by
  rw [UInt64.toNat_shiftRight, Nat.shiftRight_eq_div_pow]
  rfl

theorem toNat_shiftRight_six (x : UInt64) : (x >>> 6).toNat = x.toNat / 2 ^ 6 := by
  rw [UInt64.toNat_shiftRight, Nat.shiftRight_eq_div_pow]
  rfl

/-- Nothing is rounded. -/
theorem genrandReal2_eq (hg : machine.Reachable g) :
    (genrandReal2 r g).1 = (genrandInt32 g).1.toNat / 2 ^ 32 := by
  have hlt := genrandInt32_lt hg
  have hrep : Representable 53 ((genrandInt32 g).1.toNat : ℚ) := .natCast (hlt.le.trans (by norm_num))
  have hpow : (4294967296 : ℚ) = 2 ^ 32 := by norm_num
  simp only [genrandReal2]
  rw [toDouble_eq hlt, hpow, r.mul_div_pow hrep]

theorem genrandReal3_eq (hg : machine.Reachable g) :
    (genrandReal3 r g).1 = (2 * (genrandInt32 g).1.toNat + 1) / 2 ^ 33 := by
  have hlt := genrandInt32_lt hg
  have hrep : Representable 53 (((genrandInt32 g).1.toNat : ℚ) + 1 / 2) := by
    have hodd : Representable 53 ((2 * (genrandInt32 g).1.toNat + 1 : ℕ) : ℚ) := .natCast (by omega)
    convert hodd.scale (-1) using 1
    push_cast
    rw [zpow_neg_one]
    ring
  have hpow : (4294967296 : ℚ) = 2 ^ 32 := by norm_num
  simp only [genrandReal3]
  rw [toDouble_eq hlt, Rounding.add, r.exact hrep, hpow, r.mul_div_pow hrep]
  ring

/-- The 27 upper bits of one word stand before the 26 upper bits of the next. -/
theorem genrandRes53_eq (hg : machine.Reachable g) :
    (genrandRes53 r g).1 = ((genrandInt32 g).1.toNat / 2 ^ 5 * 2 ^ 26 +
      (genrandInt32 (genrandInt32 g).2).1.toNat / 2 ^ 6 : ℕ) / 2 ^ 53 := by
  have hlt := genrandInt32_lt hg
  have hlt' := genrandInt32_lt (genrandInt32_reachable hg)
  generalize hx : (genrandInt32 g).1 = x at *
  generalize hy : (genrandInt32 (genrandInt32 g).2).1 = y at *
  have ha := toNat_shiftRight_five x
  have hb := toNat_shiftRight_six y
  have hupper : Representable 53 ((x.toNat / 2 ^ 5 * 2 ^ 26 : ℕ) : ℚ) := .natCast (by omega)
  have hrep : Representable 53 ((x.toNat / 2 ^ 5 * 2 ^ 26 + y.toNat / 2 ^ 6 : ℕ) : ℚ) :=
    .natCast (by omega)
  have hmul : r.mul (toDouble r (x >>> 5)) 67108864 = (x.toNat / 2 ^ 5 * 2 ^ 26 : ℕ) := by
    rw [toDouble_eq (by omega), ha, Rounding.mul, ← r.exact hupper]
    push_cast
    norm_num
  have hadd : r.add (x.toNat / 2 ^ 5 * 2 ^ 26 : ℕ) (toDouble r (y >>> 6)) =
      (x.toNat / 2 ^ 5 * 2 ^ 26 + y.toNat / 2 ^ 6 : ℕ) := by
    rw [toDouble_eq (by omega), hb, Rounding.add, ← r.exact hrep, ← Nat.cast_add]
  have hpow : (9007199254740992 : ℚ) = 2 ^ 53 := by norm_num
  simp only [genrandRes53, hx, hy]
  rw [hmul, hadd, hpow, r.mul_div_pow hrep]

/-- The factor of `genrand_real1` is a little too small. -/
theorem factor_eq : r.div 1 4294967295 = (2 ^ 32 + 1) / 2 ^ 64 := by
  have hrep : Representable 53 (((2 ^ 52 + 2 ^ 20 : ℤ) : ℚ) * 2 ^ (-84 : ℤ)) :=
    ⟨2 ^ 52 + 2 ^ 20, -84, by norm_num, rfl⟩
  have heq := r.eq_of_near (x := 1 / 4294967295) (by norm_num) hrep (by norm_num) (by norm_num)
  rw [Rounding.div, heq]
  norm_num

/-- What `genrand_real1` makes of a word. -/
theorem genrandReal1_eq (hg : machine.Reachable g) :
    (genrandReal1 r g).1 = r.fl ((genrandInt32 g).1.toNat * ((2 ^ 32 + 1) / 2 ^ 64)) := by
  simp only [genrandReal1]
  rw [toDouble_eq (genrandInt32_lt hg), Rounding.mul, factor_eq]

/-- The rounding is finer than the words lie apart. -/
theorem real1_lt (h : n < n') (hn : n' < 2 ^ 32) :
    r.fl (n * ((2 ^ 32 + 1) / 2 ^ 64)) < r.fl (n' * ((2 ^ 32 + 1) / 2 ^ 64)) := by
  have hcast : (n : ℚ) + 1 ≤ n' := by exact_mod_cast h
  have hlast : (n' : ℚ) + 1 ≤ 2 ^ 32 := by exact_mod_cast hn
  have hzero : (0 : ℚ) ≤ n := n.cast_nonneg
  have herror : |r.fl (n * ((2 ^ 32 + 1) / 2 ^ 64)) - n * ((2 ^ 32 + 1) / 2 ^ 64)| ≤
      2 ^ (-53 : ℤ) / 2 := by
    apply r.error_le
    rw [abs_of_nonneg (by positivity)]
    norm_num
    linarith
  have herror' : |r.fl (n' * ((2 ^ 32 + 1) / 2 ^ 64)) - n' * ((2 ^ 32 + 1) / 2 ^ 64)| ≤
      2 ^ (-53 : ℤ) / 2 := by
    apply r.error_le
    rw [abs_of_nonneg (by positivity)]
    norm_num
    linarith
  have hbelow := (abs_le.mp herror).2
  have habove := (abs_le.mp herror').1
  norm_num at hbelow habove ⊢
  linarith

theorem real1_zero : r.fl (((0 : ℕ) : ℚ) * ((2 ^ 32 + 1) / 2 ^ 64)) = 0 := by
  have hzero : Representable 53 0 := by
    simpa using Representable.natCast (p := 53) (Nat.zero_le _)
  rw [Nat.cast_zero, zero_mul, r.exact hzero]

/-- The last word is rounded up to one. -/
theorem real1_last : r.fl (((2 ^ 32 - 1 : ℕ) : ℚ) * ((2 ^ 32 + 1) / 2 ^ 64)) = 1 := by
  have hrep : Representable 53 (((2 ^ 53 : ℤ) : ℚ) * 2 ^ (-53 : ℤ)) :=
    ⟨2 ^ 53, -53, by norm_num, rfl⟩
  have heq := r.eq_of_near (x := ((2 ^ 32 - 1 : ℕ) : ℚ) * ((2 ^ 32 + 1) / 2 ^ 64)) (by norm_num) hrep
    (by norm_num) (by norm_num)
  rw [heq]
  norm_num

theorem genrandReal1_mem (hg : machine.Reachable g) : (genrandReal1 r g).1 ∈ Set.Icc 0 1 ∧
    ((genrandReal1 r g).1 = 0 ↔ (genrandInt32 g).1.toNat = 0) ∧
    ((genrandReal1 r g).1 = 1 ↔ (genrandInt32 g).1.toNat = 2 ^ 32 - 1) := by
  rw [genrandReal1_eq hg]
  have hlt := genrandInt32_lt hg
  generalize (genrandInt32 g).1.toNat = n at *
  have hzero : n = 0 ∨ 0 < r.fl (n * ((2 ^ 32 + 1) / 2 ^ 64)) := by
    rcases Nat.eq_zero_or_pos n with h | h
    · exact .inl h
    · exact .inr (real1_zero.symm.trans_lt (real1_lt h hlt))
  have hone : n = 2 ^ 32 - 1 ∨ r.fl (n * ((2 ^ 32 + 1) / 2 ^ 64)) < 1 := by
    rcases (Nat.le_sub_one_of_lt hlt).eq_or_lt with h | h
    · exact .inl h
    · exact .inr ((real1_lt h (by norm_num)).trans_eq real1_last)
  refine ⟨⟨?_, ?_⟩, ⟨fun h => ?_, fun h => ?_⟩, fun h => ?_, fun h => ?_⟩
  · rcases hzero with rfl | hpos
    · exact real1_zero.ge
    · exact hpos.le
  · rcases hone with rfl | hlt1
    · exact real1_last.le
    · exact hlt1.le
  · exact hzero.resolve_right h.not_gt
  · rw [h, real1_zero]
  · exact hone.resolve_right h.not_lt
  · rw [h, real1_last]

/-- However ties are rounded, the real numbers of a generator lie in the intervals of their functions;
only the first and the last word give the end points of the closed interval. -/
theorem reals_in_their_intervals (r : Rounding 53) (hg : machine.Reachable g) :
    ((genrandReal1 r g).1 ∈ Set.Icc 0 1 ∧
      ((genrandReal1 r g).1 = 0 ↔ (genrandInt32 g).1.toNat = 0) ∧
      ((genrandReal1 r g).1 = 1 ↔ (genrandInt32 g).1.toNat = 2 ^ 32 - 1)) ∧
    (genrandReal2 r g).1 ∈ Set.Ico 0 1 ∧ (genrandReal3 r g).1 ∈ Set.Ioo 0 1 ∧
    (genrandRes53 r g).1 ∈ Set.Ico 0 1 := by
  have hlt := genrandInt32_lt hg
  have hcast : ((genrandInt32 g).1.toNat : ℚ) + 1 ≤ 2 ^ 32 := by exact_mod_cast hlt
  have hzero : (0 : ℚ) ≤ (genrandInt32 g).1.toNat := Nat.cast_nonneg _
  refine ⟨genrandReal1_mem hg, ⟨?_, ?_⟩, ⟨?_, ?_⟩, ?_, ?_⟩
  · rw [genrandReal2_eq hg]
    positivity
  · rw [genrandReal2_eq hg, div_lt_one (by positivity)]
    linarith
  · rw [genrandReal3_eq hg]
    positivity
  · rw [genrandReal3_eq hg, div_lt_one (by positivity)]
    linarith
  · rw [genrandRes53_eq hg]
    positivity
  · rw [genrandRes53_eq hg, div_lt_one (by positivity)]
    have hnext := genrandInt32_lt (genrandInt32_reachable hg)
    norm_cast
    omega

theorem reals_in_their_intervals_drawn :
    ((genrandReal1 (.toEven 53 (by decide)) (genrandInt32 (initGenrand 42 State.unseeded)).2).1 ∈
        Set.Icc 0 1 ∧
      ((genrandReal1 (.toEven 53 (by decide)) (genrandInt32 (initGenrand 42 State.unseeded)).2).1 = 0 ↔
        (genrandInt32 (genrandInt32 (initGenrand 42 State.unseeded)).2).1.toNat = 0) ∧
      ((genrandReal1 (.toEven 53 (by decide)) (genrandInt32 (initGenrand 42 State.unseeded)).2).1 = 1 ↔
        (genrandInt32 (genrandInt32 (initGenrand 42 State.unseeded)).2).1.toNat = 2 ^ 32 - 1)) ∧
    (genrandReal2 (.toEven 53 (by decide)) (genrandInt32 (initGenrand 42 State.unseeded)).2).1 ∈
      Set.Ico 0 1 ∧
    (genrandReal3 (.toEven 53 (by decide)) (genrandInt32 (initGenrand 42 State.unseeded)).2).1 ∈
      Set.Ioo 0 1 ∧
    (genrandRes53 (.toEven 53 (by decide)) (genrandInt32 (initGenrand 42 State.unseeded)).2).1 ∈
      Set.Ico 0 1 :=
  reals_in_their_intervals _ ⟨State.unseeded, [.initGenrand 42, .genrandInt32], rfl, rfl⟩

theorem real1_injective (hn : n < 2 ^ 32) (hn' : n' < 2 ^ 32)
    (h : r.fl (n * ((2 ^ 32 + 1) / 2 ^ 64)) = r.fl (n' * ((2 ^ 32 + 1) / 2 ^ 64))) : n = n' := by
  rcases Nat.lt_trichotomy n n' with hlt | heq | hgt
  · exact absurd h (real1_lt hlt hn').ne
  · exact heq
  · exact absurd h (real1_lt hgt hn).ne'

/-- No function rounds two words to one real number, and the last one leaves out just the bits that
it shifts out. -/
theorem reals_equal_iff (r : Rounding 53) (hg : machine.Reachable g) (hg' : machine.Reachable g') :
    ((genrandReal1 r g).1 = (genrandReal1 r g').1 ↔ (genrandInt32 g).1 = (genrandInt32 g').1) ∧
    ((genrandReal2 r g).1 = (genrandReal2 r g').1 ↔ (genrandInt32 g).1 = (genrandInt32 g').1) ∧
    ((genrandReal3 r g).1 = (genrandReal3 r g').1 ↔ (genrandInt32 g).1 = (genrandInt32 g').1) ∧
    ((genrandRes53 r g).1 = (genrandRes53 r g').1 ↔
      (genrandInt32 g).1 >>> 5 = (genrandInt32 g').1 >>> 5 ∧
      (genrandInt32 (genrandInt32 g).2).1 >>> 6 = (genrandInt32 (genrandInt32 g').2).1 >>> 6) := by
  have hlt := genrandInt32_lt hg
  have hlt' := genrandInt32_lt hg'
  have hnext := genrandInt32_lt (genrandInt32_reachable hg)
  have hnext' := genrandInt32_lt (genrandInt32_reachable hg')
  rw [genrandReal1_eq hg, genrandReal1_eq hg', genrandReal2_eq hg, genrandReal2_eq hg',
    genrandReal3_eq hg, genrandReal3_eq hg', genrandRes53_eq hg, genrandRes53_eq hg',
    ← UInt64.toNat_inj, ← UInt64.toNat_inj, ← UInt64.toNat_inj, toNat_shiftRight_five, toNat_shiftRight_five,
    toNat_shiftRight_six, toNat_shiftRight_six]
  refine ⟨⟨real1_injective hlt hlt', fun h => by rw [h]⟩, ?_, ?_, ?_⟩
  · rw [div_left_inj' (by positivity), Nat.cast_inj]
  · rw [div_left_inj' (by positivity), add_left_inj, mul_right_inj' two_ne_zero, Nat.cast_inj]
  · rw [div_left_inj' (by positivity), Nat.cast_inj]
    omega

/-- Without a seed of its own a program gets the real numbers of the default one. -/
theorem reals_equal_iff_unseeded :
    (genrandReal1 (.toEven 53 (by decide)) State.unseeded).1 =
      (genrandReal1 (.toEven 53 (by decide)) (initGenrand 5489 State.unseeded)).1 := by
  have hequal := reals_equal_iff (.toEven 53 (by decide)) ⟨State.unseeded, [], rfl, rfl⟩
    ⟨State.unseeded, [.initGenrand 5489], rfl, rfl⟩
  exact hequal.1.mpr (congrArg Prod.fst genrandInt32_unseeded)

end OperatingSystems.MersenneTwister
