import OperatingSystems.Library.Digits
import OperatingSystems.Slob.Calls

namespace OperatingSystems.Slob

open Library

section Bytes

variable (g : Config)

/-- The byte at the address `a`, the low byte of a unit first. -/
def readByte (cell : ℕ → ℤ) (a : ℕ) : ℕ := (digit 256 (cell (a / g.slobUnit)) (a % g.slobUnit)).toNat

/-- The unit of the address `a` after a write of the byte `v` there. -/
def putByte (cell : ℕ → ℤ) (a v : ℕ) : ℤ :=
  g.toIdx (setDigit 256 (cell (a / g.slobUnit)) (a % g.slobUnit) (v % 256 : ℕ))

def Heap.storeByte (h : Heap) (a v : ℕ) : Heap := h.store (a / g.slobUnit) (putByte g h.mem.cell a v)

/-- The four bytes at the address `a`, as they are stored. -/
def readFour (cell : ℕ → ℤ) (a : ℕ) : ℕ :=
  readByte g cell a + readByte g cell (a + 1) * 2 ^ 8 + readByte g cell (a + 2) * 2 ^ 16 +
    readByte g cell (a + 3) * 2 ^ 24

/-- The read of an `int` at the address `a`. -/
def readInt (cell : ℕ → ℤ) (a : ℕ) : ℤ := (readFour g cell a : ℤ).bmod (2 ^ 32)

def Heap.writeInt (h : Heap) (a v : ℕ) : Heap :=
  (((h.storeByte g a v).storeByte g (a + 1) (v / 2 ^ 8)).storeByte g (a + 2) (v / 2 ^ 16)).storeByte g
    (a + 3) (v / 2 ^ 24)

end Bytes

section Lemmas

variable {g : Config} {cell cell' : ℕ → ℤ} {h : Heap} {a a' v : ℕ}

/-- A unit holds whole bytes. -/
theorem two_pow_idxBits (g : Config) : ((2 ^ g.idxBits : ℕ) : ℤ) = 256 ^ g.slobUnit := by
  rw [Config.slobUnit]
  unfold Config.idxBits
  split_ifs <;> rfl

theorem readByte_storeByte_self : readByte g (h.storeByte g a v).mem.cell a = v % 256 := by
  have hplace : a % g.slobUnit < g.slobUnit := Nat.mod_lt a g.slobUnit_pos
  have hdigit : digit 256 (putByte g h.mem.cell a v) (a % g.slobUnit) = (v % 256 : ℕ) := by
    rw [putByte, Config.toIdx, digit_bmod (by decide) (two_pow_idxBits g) hplace,
      digit_setDigit_self (by decide) (by omega) (by omega)]
  rw [readByte]
  simp only [Heap.storeByte, Heap.store, Function.update_self]
  rw [hdigit]
  rfl

theorem readByte_storeByte_of_ne (hne : a' ≠ a) :
    readByte g (h.storeByte g a v).mem.cell a' = readByte g h.mem.cell a' := by
  rw [readByte, readByte]
  by_cases hunit : a' / g.slobUnit = a / g.slobUnit
  · -- another byte of the same unit
    have hplace : a' % g.slobUnit ≠ a % g.slobUnit := by
      intro heq
      apply hne
      rw [← Nat.div_add_mod a' g.slobUnit, ← Nat.div_add_mod a g.slobUnit, hunit, heq]
    have hlt : a' % g.slobUnit < g.slobUnit := Nat.mod_lt a' g.slobUnit_pos
    simp only [Heap.storeByte, Heap.store, hunit, Function.update_self]
    rw [putByte, Config.toIdx, digit_bmod (by decide) (two_pow_idxBits g) hlt,
      digit_setDigit_of_ne (by decide) (by omega) (by omega) hplace]
  · simp only [Heap.storeByte, Heap.store, Function.update_of_ne hunit]

theorem readFour_congr (hsame : ∀ i < 4, readByte g cell' (a + i) = readByte g cell (a + i)) :
    readFour g cell' a = readFour g cell a := by
  have h₀ := hsame 0 (by decide)
  have h₁ := hsame 1 (by decide)
  have h₂ := hsame 2 (by decide)
  have h₃ := hsame 3 (by decide)
  rw [Nat.add_zero] at h₀
  rw [readFour, readFour, h₀, h₁, h₂, h₃]

theorem readInt_congr (hsame : ∀ i < 4, readByte g cell' (a + i) = readByte g cell (a + i)) :
    readInt g cell' a = readInt g cell a :=
  congrArg (fun n : ℕ => (n : ℤ).bmod (2 ^ 32)) (readFour_congr hsame)

theorem readFour_writeInt (hv : v < 2 ^ 32) : readFour g (h.writeInt g a v).mem.cell a = v := by
  have h₀ : readByte g (h.writeInt g a v).mem.cell a = v % 256 := by
    rw [Heap.writeInt, readByte_storeByte_of_ne (by omega), readByte_storeByte_of_ne (by omega),
      readByte_storeByte_of_ne (by omega), readByte_storeByte_self]
  have h₁ : readByte g (h.writeInt g a v).mem.cell (a + 1) = v / 2 ^ 8 % 256 := by
    rw [Heap.writeInt, readByte_storeByte_of_ne (by omega), readByte_storeByte_of_ne (by omega),
      readByte_storeByte_self]
  have h₂ : readByte g (h.writeInt g a v).mem.cell (a + 2) = v / 2 ^ 16 % 256 := by
    rw [Heap.writeInt, readByte_storeByte_of_ne (by omega), readByte_storeByte_self]
  have h₃ : readByte g (h.writeInt g a v).mem.cell (a + 3) = v / 2 ^ 24 % 256 := by
    rw [Heap.writeInt, readByte_storeByte_self]
  rw [readFour, h₀, h₁, h₂, h₃]
  omega

/-- What was written is read back. -/
theorem readInt_writeInt (hv : v < 2 ^ 31) : readInt g (h.writeInt g a v).mem.cell a = v := by
  have hfour : readFour g (h.writeInt g a v).mem.cell a = v := readFour_writeInt (by omega)
  have hint : ((v : ℕ) : ℤ).bmod (2 ^ 32) = v := Int.bmod_eq_of_le (by omega) (by omega)
  exact (congrArg (fun n : ℕ => (n : ℤ).bmod (2 ^ 32)) hfour).trans hint

end Lemmas

end OperatingSystems.Slob
