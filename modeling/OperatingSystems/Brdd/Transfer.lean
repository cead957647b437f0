import OperatingSystems.Library.ForLoop

namespace OperatingSystems.Brdd

open Library

/-- An array in memory, `unsigned long` having `w` bits. -/
structure Bytes (w : ℕ) where
  size : ℕ
  byte : ℕ → UInt8
  size_lt : size < 2 ^ w

/-- The cipher behind `tfm`, on blocks of `crypto_cipher_blocksize` bytes. -/
structure Cipher where
  blocksize : ℕ
  encryptOne : (Fin blocksize → UInt8) → Fin blocksize → UInt8
  decryptOne : (Fin blocksize → UInt8) → Fin blocksize → UInt8

namespace Bytes

variable {w n : ℕ}

def block (b : Bytes w) (n i : ℕ) : Fin n → UInt8 := fun k => b.byte (i + k)

def store (b : Bytes w) (i : ℕ) (x : Fin n → UInt8) : Bytes w :=
  { b with byte := fun j => if h : i ≤ j ∧ j < i + n then x ⟨j - i, by omega⟩ else b.byte j }

variable {b : Bytes w} {i j : ℕ} {x y : Fin n → UInt8}

theorem byte_store (k : Fin n) : (b.store i x).byte (i + k) = x k := by
  have hk := k.isLt
  simp [store]

theorem byte_store_of_not (h : j < i ∨ i + n ≤ j) : (b.store i x).byte j = b.byte j := by
  have hnot : ¬ (i ≤ j ∧ j < i + n) := by omega
  simp [store, hnot]

@[simp] theorem block_store : (b.store i x).block n i = x := by
  funext k
  exact byte_store k

theorem block_store_of_not (h : j + n ≤ i ∨ i + n ≤ j) : (b.store i x).block n j = b.block n j := by
  funext k
  have hk := k.isLt
  exact byte_store_of_not (by omega)

theorem store_store : (b.store i x).store i y = b.store i y := by
  simp only [store, Bytes.mk.injEq, true_and]
  funext j
  split_ifs <;> rfl

end Bytes

variable {w : ℕ}

/-- `crypto_cipher_encrypt_one(tfm, target + i, origin + j)` or the same with `decrypt`; leaving an
array is a fault. -/
def cipherOne {n : ℕ} (f : (Fin n → UInt8) → Fin n → UInt8) (target : Bytes w) (i : ℕ)
    (origin : Bytes w) (j : ℕ) : Option (Bytes w) :=
  if i + n ≤ target.size ∧ j + n ≤ origin.size then
    some (target.store i (f (origin.block n j)))
  else none

/-- `brdd_transfer` on `dev->data`, with the new contents of the data and of the buffer. -/
def brddTransfer (tfm : Cipher) (logicalBlockSize : ℕ) (data : Bytes w) (sector nsect : ℕ)
    (buffer : Bytes w) (write : Bool) : Option (Bytes w × Bytes w) :=
  let offset := sector * logicalBlockSize % 2 ^ w
  let nbytes := nsect * logicalBlockSize % 2 ^ w
  if write then
    (forLoop w nbytes tfm.blocksize (fun i target =>
      cipherOne tfm.encryptOne target (offset + i) buffer i) (nbytes + 1) 0 data).map
        fun target => (target, buffer)
  else
    (forLoop w nbytes tfm.blocksize (fun i target =>
      cipherOne tfm.decryptOne target 0 data (offset + i)) (nbytes + 1) 0 buffer).map
        fun target => (data, target)

section Transfers

variable {tfm : Cipher} {logicalBlockSize sector nsect n : ℕ} {data buffer : Bytes w}

/-- A write stores the encryption of the buffer, block by block, and nothing else. -/
theorem brddTransfer_write (hpos : 0 < tfm.blocksize)
    (hn : nsect * logicalBlockSize = n * tfm.blocksize)
    (hdata : sector * logicalBlockSize + nsect * logicalBlockSize ≤ data.size)
    (hbuffer : nsect * logicalBlockSize ≤ buffer.size) :
    ∃ data', brddTransfer tfm logicalBlockSize data sector nsect buffer true = some (data', buffer) ∧
      data'.size = data.size ∧
      (∀ m, m < n →
        data'.block tfm.blocksize (sector * logicalBlockSize + m * tfm.blocksize) =
          tfm.encryptOne (buffer.block tfm.blocksize (m * tfm.blocksize))) ∧
      ∀ j, j < sector * logicalBlockSize ∨
        sector * logicalBlockSize + nsect * logicalBlockSize ≤ j → data'.byte j = data.byte j := by
  have hsize := data.size_lt
  let offset := sector * logicalBlockSize
  let P : ℕ → Bytes w → Prop := fun m target => target.size = data.size ∧
    (∀ k, k < m → target.block tfm.blocksize (offset + k * tfm.blocksize) =
      tfm.encryptOne (buffer.block tfm.blocksize (k * tfm.blocksize))) ∧
    ∀ j, j < offset ∨ offset + m * tfm.blocksize ≤ j → target.byte j = data.byte j
  have hround : ∀ m target, m < n → P m target → ∃ target',
      cipherOne tfm.encryptOne target (offset + m * tfm.blocksize) buffer (m * tfm.blocksize) =
        some target' ∧ P (m + 1) target' := by
    rintro m target hm ⟨hsame, hblocks, hrest⟩
    have hlast : (m + 1) * tfm.blocksize ≤ n * tfm.blocksize := Nat.mul_le_mul_right _ hm
    rw [Nat.add_mul, Nat.one_mul] at hlast
    refine ⟨_, if_pos ⟨by omega, by omega⟩, hsame, fun k hk => ?_, fun j hj => ?_⟩
    · rcases Nat.lt_or_eq_of_le (Nat.le_of_lt_succ hk) with hlt | rfl
      · have hbefore : (k + 1) * tfm.blocksize ≤ m * tfm.blocksize := Nat.mul_le_mul_right _ hlt
        rw [Nat.add_mul, Nat.one_mul] at hbefore
        rw [Bytes.block_store_of_not (by omega)]
        exact hblocks k hlt
      · exact Bytes.block_store
    · rw [Nat.add_mul, Nat.one_mul] at hj
      rw [Bytes.byte_store_of_not (by omega)]
      exact hrest j (by omega)
  have hfuel : n < nsect * logicalBlockSize + 1 + 0 := by
    have hle : n * 1 ≤ n * tfm.blocksize := Nat.mul_le_mul_left n hpos
    omega
  obtain ⟨data', hloop, hsame, hblocks, hrest⟩ := forLoop_spec (w := w)
    (fun i target => cipherOne tfm.encryptOne target (offset + i) buffer i) hpos (by omega) hround
    (nsect * logicalBlockSize + 1) (Nat.zero_le n) hfuel ⟨rfl, nofun, fun _ _ => rfl⟩
  refine ⟨data', ?_, hsame, hblocks, fun j hj => hrest j (by omega)⟩
  rw [brddTransfer, Nat.mod_eq_of_lt (by omega : sector * logicalBlockSize < 2 ^ w),
    Nat.mod_eq_of_lt (by omega : nsect * logicalBlockSize < 2 ^ w), if_pos rfl]
  rw [Nat.zero_mul, ← hn] at hloop
  rw [hloop]
  rfl

/-- A read leaves the decryption of the last block of the range at the start of the buffer. -/
theorem brddTransfer_read (hpos : 0 < tfm.blocksize)
    (hn : nsect * logicalBlockSize = n * tfm.blocksize)
    (hdata : sector * logicalBlockSize + nsect * logicalBlockSize ≤ data.size)
    (hbuffer : nsect * logicalBlockSize ≤ buffer.size) :
    brddTransfer tfm logicalBlockSize data sector nsect buffer false = some (data,
      if n = 0 then buffer else buffer.store 0 (tfm.decryptOne (data.block tfm.blocksize
        (sector * logicalBlockSize + (n - 1) * tfm.blocksize)))) := by
  have hsize := data.size_lt
  let offset := sector * logicalBlockSize
  let after (m : ℕ) : Bytes w := if m = 0 then buffer else
    buffer.store 0 (tfm.decryptOne (data.block tfm.blocksize (offset + (m - 1) * tfm.blocksize)))
  have hround : ∀ m target, m < n → target = after m → ∃ target',
      cipherOne tfm.decryptOne target 0 data (offset + m * tfm.blocksize) =
        some target' ∧ target' = after (m + 1) := by
    rintro m _ hm rfl
    have hlast : (m + 1) * tfm.blocksize ≤ n * tfm.blocksize := Nat.mul_le_mul_right _ hm
    rw [Nat.add_mul, Nat.one_mul] at hlast
    have hroom : (after m).size = buffer.size := by
      simp only [after]
      split_ifs <;> rfl
    refine ⟨_, if_pos ⟨by omega, by omega⟩, ?_⟩
    simp only [after, Nat.add_eq_zero_iff, one_ne_zero, and_false, if_false, Nat.add_sub_cancel]
    split_ifs
    · rfl
    · exact Bytes.store_store
  have hfuel : n < nsect * logicalBlockSize + 1 + 0 := by
    have hle : n * 1 ≤ n * tfm.blocksize := Nat.mul_le_mul_left n hpos
    omega
  obtain ⟨_, hloop, rfl⟩ := forLoop_spec (w := w)
    (fun i target => cipherOne tfm.decryptOne target 0 data (offset + i)) hpos (by omega) hround
    (nsect * logicalBlockSize + 1) (Nat.zero_le n) hfuel rfl
  rw [brddTransfer, Nat.mod_eq_of_lt (by omega : sector * logicalBlockSize < 2 ^ w),
    Nat.mod_eq_of_lt (by omega : nsect * logicalBlockSize < 2 ^ w), if_neg Bool.false_ne_true]
  rw [Nat.zero_mul, ← hn] at hloop
  rw [show after 0 = buffer from rfl] at hloop
  rw [hloop]
  rfl

end Transfers

end OperatingSystems.Brdd
