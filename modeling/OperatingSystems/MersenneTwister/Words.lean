import OperatingSystems.Library.Feedback
import OperatingSystems.Library.XorShift
import OperatingSystems.MersenneTwister.Generator

namespace OperatingSystems.MersenneTwister

open Library

/-- A word of 32 bits in an `unsigned long`. -/
def wide (a : BitVec 32) : UInt64 := UInt64.ofBitVec (a.setWidth 64)

/-- What an `unsigned long` holds in its 32 low bits. -/
def narrow (u : UInt64) : BitVec 32 := u.toBitVec.setWidth 32

/-- The upper bit of a word and the lower bits of its successor. -/
def splice (word succ : BitVec 32) : BitVec 32 :=
  (word &&& 0x80000000#32) ||| (succ &&& 0x7fffffff#32)

/-- The matrix of the recurrence: a shift, and `MATRIX_A` for the bit that the shift drops. -/
def turn (y : BitVec 32) : BitVec 32 :=
  (y >>> 1) ^^^ if y.getLsbD 0 then 0x9908b0df#32 else 0#32

/-- The recurrence behind `mt`, for words in the order in which they are generated. -/
def recurrence : Feedback (BitVec 32) where
  length := N
  tap := M
  next word succ far := far ^^^ turn (splice word succ)
  two_le_tap := by decide
  tap_lt := by decide

/-- The tempering of a word. -/
def tempering (y : BitVec 32) : BitVec 32 :=
  shiftRightXor 18 (shiftLeftXor 15 0xefc60000#32 (shiftLeftXor 7 0x9d2c5680#32 (shiftRightXor 11 y)))

section Wide

variable {a b : BitVec 32}

@[simp] theorem narrow_wide (a : BitVec 32) : narrow (wide a) = a := by
  simp [narrow, wide]

theorem wide_injective : Function.Injective wide :=
  Function.LeftInverse.injective narrow_wide

theorem wide_xor (a b : BitVec 32) : wide a ^^^ wide b = wide (a ^^^ b) := by
  simp [wide]

theorem wide_and (a b : BitVec 32) : wide a &&& wide b = wide (a &&& b) := by
  simp [wide]

theorem wide_or (a b : BitVec 32) : wide a ||| wide b = wide (a ||| b) := by
  simp [wide]

theorem wide_shiftRight (a : BitVec 32) {s : ℕ} (hs : s < 64) :
    wide a >>> UInt64.ofNat s = wide (a >>> s) := by
  rw [← UInt64.toBitVec_inj]
  apply BitVec.eq_of_getLsbD_eq
  intro i hi
  simp [wide, Nat.mod_eq_of_lt hs]

/-- What a shift to the left moves out of the 32 bits, the mask drops. -/
theorem wide_shiftLeft_and (a mask : BitVec 32) {s : ℕ} (hs : s < 64) :
    (wide a <<< UInt64.ofNat s) &&& wide mask = wide ((a <<< s) &&& mask) := by
  have hshift : (wide a <<< UInt64.ofNat s).toBitVec = a.setWidth 64 <<< s := by
    simp [wide, Nat.mod_eq_of_lt hs]
  rw [← UInt64.toBitVec_inj, UInt64.toBitVec_and, hshift]
  apply BitVec.eq_of_getLsbD_eq
  intro i hi
  rcases Nat.lt_or_ge i 32 with hlow | hhigh
  · have hshifted : i - s < 64 := by omega
    simp only [wide, BitVec.getLsbD_and, BitVec.getLsbD_shiftLeft, BitVec.getLsbD_setWidth, hi, hlow,
      hshifted, decide_true, Bool.true_and]
  · simp [wide, BitVec.getLsbD_of_ge mask i hhigh]

/-- The mask that keeps the words within 32 bits. -/
theorem and_mask (u : UInt64) : u &&& 0xffffffff = wide (narrow u) := by
  rw [← UInt64.toBitVec_inj]
  have hmask : UInt64.toBitVec 0xffffffff = (BitVec.allOnes 32).setWidth 64 := by decide
  apply BitVec.eq_of_getLsbD_eq
  intro i hi
  rw [UInt64.toBitVec_and, hmask, wide, narrow, BitVec.getLsbD_and, BitVec.getLsbD_setWidth,
    BitVec.getLsbD_allOnes, Bool.and_comm, Bool.and_assoc]
  simp

theorem narrow_add (u v : UInt64) : narrow (u + v) = narrow u + narrow v :=
  BitVec.setWidth_add _ _ (by decide)

theorem narrow_sub (u v : UInt64) : narrow (u - v) = narrow u - narrow v := by
  calc narrow (u - v) = (u.toBitVec + -v.toBitVec).setWidth 32 := by
        rw [← BitVec.sub_eq_add_neg, ← UInt64.toBitVec_sub, narrow]
    _ = narrow u + -narrow v := by
        rw [BitVec.setWidth_add _ _ (by decide), BitVec.setWidth_neg_of_le (by decide), narrow, narrow]
    _ = narrow u - narrow v := (BitVec.sub_eq_add_neg _ _).symm

theorem narrow_mul (u v : UInt64) : narrow (u * v) = narrow u * narrow v :=
  BitVec.setWidth_mul _ _ (by decide)

theorem narrow_xor (u v : UInt64) : narrow (u ^^^ v) = narrow u ^^^ narrow v := by
  simp [narrow]

/-- The table, at the lowest bit of a word. -/
theorem mag01_wide (y : BitVec 32) :
    mag01 (wide y &&& 1) = wide (if y.getLsbD 0 then 0x9908b0df#32 else 0#32) := by
  have hone : (1 : UInt64) = wide 1#32 := by decide
  have hbit : y &&& 1#32 = if y.getLsbD 0 then 1#32 else 0#32 := by
    rw [BitVec.and_one_eq_setWidth_ofBool_getLsbD]
    cases y.getLsbD 0
    · decide
    · decide
  rw [hone, wide_and, hbit]
  cases y.getLsbD 0
  · decide
  · decide

theorem twist_wide (word succ far : BitVec 32) :
    twist (wide word) (wide succ) (wide far) = wide (recurrence.next word succ far) := by
  have hupper : upperMask = wide 0x80000000#32 := by decide
  have hlower : lowerMask = wide 0x7fffffff#32 := by decide
  have hshift := wide_shiftRight (splice word succ) (show 1 < 64 by decide)
  have hy : (wide word &&& upperMask) ||| (wide succ &&& lowerMask) = wide (splice word succ) := by
    rw [hupper, hlower, wide_and, wide_and, wide_or, splice]
  calc twist (wide word) (wide succ) (wide far)
      = wide far ^^^ (wide (splice word succ) >>> UInt64.ofNat 1) ^^^
          mag01 (wide (splice word succ) &&& 1) := by rw [← hy]; rfl
    _ = wide (recurrence.next word succ far) := by
      rw [hshift, mag01_wide, wide_xor, wide_xor, BitVec.xor_assoc]
      rfl

theorem temper_wide (y : BitVec 32) : temper (wide y) = wide (tempering y) := by
  have hb : (0x9d2c5680 : UInt64) = wide 0x9d2c5680#32 := by decide
  have hc : (0xefc60000 : UInt64) = wide 0xefc60000#32 := by decide
  have hright : ∀ {s : ℕ} (a : BitVec 32), s < 64 →
      wide a ^^^ (wide a >>> UInt64.ofNat s) = wide (shiftRightXor s a) := by
    intro s a hs
    rw [wide_shiftRight a hs, wide_xor, shiftRightXor]
  have hleft : ∀ {s : ℕ} (mask a : BitVec 32), s < 64 →
      wide a ^^^ ((wide a <<< UInt64.ofNat s) &&& wide mask) = wide (shiftLeftXor s mask a) := by
    intro s mask a hs
    rw [wide_shiftLeft_and a mask hs, wide_xor, shiftLeftXor]
  have h11 := hright y (show 11 < 64 by decide)
  have h7 := hleft 0x9d2c5680#32 (shiftRightXor 11 y) (show 7 < 64 by decide)
  have h15 := hleft 0xefc60000#32 (shiftLeftXor 7 0x9d2c5680#32 (shiftRightXor 11 y))
    (show 15 < 64 by decide)
  rw [tempering, ← hright _ (show 18 < 64 by decide), ← h15, ← h7, ← h11, ← hb, ← hc]
  rfl

end Wide

instance finite_word : Finite (BitVec 32) :=
  Finite.of_injective BitVec.toFin fun _ _ h => BitVec.toFin_inj.mp h

theorem tempering_injective : Function.Injective tempering :=
  (shiftRightXor_injective (by decide)).comp ((shiftLeftXor_injective (by decide) _).comp
    ((shiftLeftXor_injective (by decide) _).comp (shiftRightXor_injective (by decide))))

theorem splice_getLsbD (word succ : BitVec 32) {i : ℕ} (hi : i < 32) :
    (splice word succ).getLsbD i = if i = 31 then word.msb else succ.getLsbD i := by
  have hupper : ∀ i : Fin 32, (0x80000000#32).getLsbD i = decide (i = 31) := by decide
  have hlower : ∀ i : Fin 32, (0x7fffffff#32).getLsbD i = !decide (i = 31) := by decide
  have hu := hupper ⟨i, hi⟩
  have hl := hlower ⟨i, hi⟩
  simp only [Fin.ext_iff] at hu hl
  rw [splice, BitVec.getLsbD_or, BitVec.getLsbD_and, BitVec.getLsbD_and, hu, hl]
  by_cases htop : i = 31
  · subst htop
    simp [BitVec.msb_eq_getLsbD_last]
  · simp [htop]

/-- The highest bit of the image is the lowest bit of the word. -/
theorem turn_msb (y : BitVec 32) : (turn y).msb = y.getLsbD 0 := by
  rw [turn, BitVec.msb_xor]
  cases y.getLsbD 0
  · simp
  · simp
    decide

theorem turn_injective : Function.Injective turn := by
  intro y z h
  have hlow : y.getLsbD 0 = z.getLsbD 0 := by
    rw [← turn_msb, ← turn_msb, h]
  have hshift : y >>> 1 = z >>> 1 := by
    rw [turn, turn, hlow] at h
    exact (BitVec.xor_left_inj _).mp h
  apply BitVec.eq_of_getLsbD_eq
  intro i hi
  cases i with
  | zero => exact hlow
  | succ i =>
    have hbit := congrArg (BitVec.getLsbD · i) hshift
    simpa [Nat.add_comm] using hbit

/-- The recurrence reads one bit of the oldest word, and can be run backwards. -/
theorem recurrence_reversible : recurrence.Reversible BitVec.msb where
  forgets := by
    intro a a' b c h
    have hsplice : splice a b = splice a' b := by
      apply BitVec.eq_of_getLsbD_eq
      intro i hi
      rw [splice_getLsbD a b hi, splice_getLsbD a' b hi, h]
    exact congrArg (fun y => c ^^^ turn y) hsplice
  recovers := by
    intro a b a' b' c h hmsb
    have hsplice : splice a b = splice a' b' := turn_injective ((BitVec.xor_right_inj _).mp h)
    have hbit : ∀ i, i < 32 →
        (if i = 31 then a.msb else b.getLsbD i) = if i = 31 then a'.msb else b'.getLsbD i := by
      intro i hi
      rw [← splice_getLsbD a b hi, ← splice_getLsbD a' b' hi, hsplice]
    constructor
    · exact hbit 31 (by decide)
    · apply BitVec.eq_of_getLsbD_eq
      intro i hi
      by_cases htop : i = 31
      · rw [htop]
        exact hmsb
      · simpa [htop] using hbit i hi

end OperatingSystems.MersenneTwister
