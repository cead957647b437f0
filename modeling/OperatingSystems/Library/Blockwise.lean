import Mathlib.Algebra.Order.Ring.Nat
import Mathlib.Data.Nat.Notation
import Mathlib.Logic.Function.Basic

namespace OperatingSystems.Library

variable {α : Type*} {n len i j k m : ℕ} {f : (Fin n → α) → Fin n → α} {a b : ℕ → α}

/-- `f`, which maps blocks of length `n`, applied to each block of a text. -/
def blockwise (n : ℕ) (f : (Fin n → α) → Fin n → α) (a : ℕ → α) (j : ℕ) : α :=
  if h : 0 < n then f (fun k => a (j / n * n + k)) ⟨j % n, Nat.mod_lt j h⟩ else a j

/-- A text of length `len` and another one behind it. -/
def joined (len : ℕ) (a b : ℕ → α) (j : ℕ) : α := if j < len then a j else b (j - len)

theorem blockwise_eq (hn : 0 < n) (j : ℕ) :
    blockwise n f a j = f (fun k => a (j / n * n + k)) ⟨j % n, Nat.mod_lt j hn⟩ := dif_pos hn

/-- The block of a number does not reach beyond a multiple of the block length. -/
theorem block_lt (hdvd : n ∣ len) (hj : j < len) (hk : k < n) : j / n * n + k < len := by
  obtain ⟨c, rfl⟩ := hdvd
  have hblock : j / n + 1 ≤ c := Nat.div_lt_of_lt_mul hj
  have hle : (j / n + 1) * n ≤ c * n := Nat.mul_le_mul_right n hblock
  rw [Nat.add_mul, Nat.one_mul, Nat.mul_comm c n] at hle
  omega

/-- A text of whole blocks is mapped by itself. -/
theorem blockwise_joined (hn : 0 < n) (hdvd : n ∣ len) :
    blockwise n f (joined len a b) = joined len (blockwise n f a) (blockwise n f b) := by
  funext j
  rw [joined, blockwise_eq hn, blockwise_eq hn, blockwise_eq hn]
  split_ifs with hj
  · congr 1
    funext k
    rw [joined, if_pos (block_lt hdvd hj k.isLt)]
  · obtain ⟨c, rfl⟩ := hdvd
    obtain ⟨i, rfl⟩ := Nat.exists_eq_add_of_le (not_lt.mp hj)
    have hdiv : (n * c + i) / n = c + i / n := Nat.mul_add_div hn c i
    have hmod : (n * c + i) % n = i % n := Nat.mul_add_mod n c i
    simp only [Nat.add_sub_cancel_left, hdiv, hmod]
    congr 1
    funext k
    have hsplit : (c + i / n) * n + k = n * c + (i / n * n + k) := by
      rw [Nat.add_mul, Nat.mul_comm c n, Nat.add_assoc]
    rw [joined, hsplit, if_neg (by omega), Nat.add_sub_cancel_left]

/-- A text of which the part from `start` on, of length `len`, is replaced. -/
def spliced (start len : ℕ) (a b : ℕ → α) (j : ℕ) : α :=
  if start ≤ j ∧ j < start + len then b (j - start) else a j

/-- A part that starts and ends between two blocks is mapped by itself. -/
theorem blockwise_spliced {start : ℕ} (hn : 0 < n) (hstart : n ∣ start) (hlen : n ∣ len) :
    blockwise n f (spliced start len a b) =
      spliced start len (blockwise n f a) (blockwise n f b) := by
  funext j
  obtain ⟨c, rfl⟩ := hstart
  rw [spliced, blockwise_eq hn]
  split_ifs with hj
  · obtain ⟨i, rfl⟩ := Nat.exists_eq_add_of_le hj.1
    have hdiv : (n * c + i) / n = c + i / n := Nat.mul_add_div hn c i
    have hmod : (n * c + i) % n = i % n := Nat.mul_add_mod n c i
    rw [Nat.add_sub_cancel_left, blockwise_eq hn]
    simp only [hdiv, hmod]
    congr 1
    funext k
    have hin := block_lt hlen (Nat.add_lt_add_iff_left.mp hj.2) k.isLt
    have hsplit : (c + i / n) * n + k = n * c + (i / n * n + k) := by
      rw [Nat.add_mul, Nat.mul_comm c n, Nat.add_assoc]
    rw [spliced, hsplit, if_pos (by omega), Nat.add_sub_cancel_left]
  · rw [blockwise_eq hn]
    congr 1
    funext k
    rw [spliced, if_neg]
    intro hk
    apply hj
    constructor
    · by_contra hbefore
      have hout := block_lt (Nat.dvd_mul_right n c) (not_le.mp hbefore) k.isLt
      omega
    · by_contra hbehind
      obtain ⟨d, hd⟩ := Nat.dvd_add (Nat.dvd_mul_right n c) hlen
      have hle : d * n ≤ j / n * n := by
        apply Nat.mul_le_mul_right
        rw [Nat.le_div_iff_mul_le hn, Nat.mul_comm]
        omega
      rw [Nat.mul_comm d n] at hle
      omega

/-- What undoes `f` on blocks undoes it on texts. -/
theorem blockwise_leftInverse {g : (Fin n → α) → Fin n → α} (hn : 0 < n)
    (hinv : Function.LeftInverse g f) (a : ℕ → α) : blockwise n g (blockwise n f a) = a := by
  funext j
  have hblock : (fun k : Fin n => blockwise n f a (j / n * n + k)) =
      f fun k => a (j / n * n + k) := by
    funext k
    have hdiv : (j / n * n + k) / n = j / n := by
      rw [Nat.mul_comm, Nat.mul_add_div hn, Nat.div_eq_of_lt k.isLt, Nat.add_zero]
    have hmod : (j / n * n + k) % n = k := by
      rw [Nat.mul_comm, Nat.mul_add_mod, Nat.mod_eq_of_lt k.isLt]
    rw [blockwise_eq hn]
    simp only [hdiv, hmod]
  rw [blockwise_eq hn, hblock, hinv]
  exact congrArg a (Nat.div_add_mod' j n)

end OperatingSystems.Library
