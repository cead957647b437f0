import Mathlib.Logic.Function.Iterate
import Mathlib.Data.Nat.Notation

namespace OperatingSystems.Library

variable {w : ℕ}

/-- A map on words that respects exclusive or. -/
def XorLinear (f : BitVec w → BitVec w) : Prop := ∀ a b, f (a ^^^ b) = f a ^^^ f b

/-- Only the difference of two words matters to such a map. -/
theorem XorLinear.eq_iff {f : BitVec w → BitVec w} (hf : XorLinear f) {a b : BitVec w} :
    f a = f b ↔ f (a ^^^ b) = 0#w := by
  rw [hf, BitVec.xor_eq_zero_iff]

theorem XorLinear.injective {f : BitVec w → BitVec w} (hf : XorLinear f)
    (hzero : ∀ d, f d = 0#w → d = 0#w) : Function.Injective f := by
  intro a b h
  exact BitVec.xor_eq_zero_iff.mp (hzero _ (hf.eq_iff.mp h))

/-- A word with a linear image of itself mixed in loses nothing, if the map dies out when repeated. -/
theorem XorLinear.mix_injective {f : BitVec w → BitVec w} (hf : XorLinear f) {n : ℕ}
    (hn : ∀ d, f^[n] d = 0#w) : Function.Injective fun a => a ^^^ f a := by
  have hmix : XorLinear fun a => a ^^^ f a := by
    intro a b
    simp only [hf a b]
    ac_rfl
  apply hmix.injective
  intro d hd
  have hfix : f d = d := (BitVec.xor_eq_zero_iff.mp hd).symm
  calc d = f^[n] d := (Function.iterate_fixed hfix n).symm
    _ = 0#w := hn d

def shiftRightXor (s : ℕ) (a : BitVec w) : BitVec w := a ^^^ (a >>> s)

def shiftLeftXor (s : ℕ) (mask a : BitVec w) : BitVec w := a ^^^ ((a <<< s) &&& mask)

theorem shiftRight_linear (s : ℕ) : XorLinear fun a : BitVec w => a >>> s :=
  fun a b => BitVec.ushiftRight_xor_distrib a b s

theorem shiftLeft_linear (s : ℕ) (mask : BitVec w) : XorLinear fun a => (a <<< s) &&& mask := by
  intro a b
  simp only [BitVec.shiftLeft_xor_distrib]
  ext i hi
  simp [Bool.and_xor_distrib_right]

/-- Each shift to the right moves the highest bit down. -/
theorem shiftRight_iterate {s : ℕ} (hs : 0 < s) (n : ℕ) (d : BitVec w) {i : ℕ}
    (h : ((fun a : BitVec w => a >>> s)^[n] d).getLsbD i = true) : i + n < w := by
  induction n generalizing i with
  | zero => exact BitVec.lt_of_getLsbD h
  | succ n ih =>
    rw [Function.iterate_succ_apply', BitVec.getLsbD_ushiftRight] at h
    have hlt := ih h
    omega

/-- Each shift to the left moves the lowest bit up. -/
theorem shiftLeft_iterate {s : ℕ} (hs : 0 < s) (mask : BitVec w) (n : ℕ) (d : BitVec w) {i : ℕ}
    (h : ((fun a : BitVec w => (a <<< s) &&& mask)^[n] d).getLsbD i = true) : n ≤ i := by
  induction n generalizing i with
  | zero => exact Nat.zero_le i
  | succ n ih =>
    rw [Function.iterate_succ_apply', BitVec.getLsbD_and, BitVec.getLsbD_shiftLeft] at h
    simp only [Bool.and_eq_true, Bool.not_eq_true', decide_eq_false_iff_not, decide_eq_true_eq] at h
    have hle := ih h.1.2
    omega

theorem shiftRightXor_injective {s : ℕ} (hs : 0 < s) :
    Function.Injective (shiftRightXor s : BitVec w → BitVec w) := by
  apply (shiftRight_linear s).mix_injective (n := w)
  intro d
  apply BitVec.eq_of_getLsbD_eq
  intro i hi
  rw [BitVec.getLsbD_zero, Bool.eq_false_iff]
  intro hbit
  have hlt := shiftRight_iterate hs w d hbit
  omega

theorem shiftLeftXor_injective {s : ℕ} (hs : 0 < s) (mask : BitVec w) :
    Function.Injective (shiftLeftXor s mask) := by
  apply (shiftLeft_linear s mask).mix_injective (n := w)
  intro d
  apply BitVec.eq_of_getLsbD_eq
  intro i hi
  rw [BitVec.getLsbD_zero, Bool.eq_false_iff]
  intro hbit
  have hle := shiftLeft_iterate hs mask w d hbit
  omega

end OperatingSystems.Library
