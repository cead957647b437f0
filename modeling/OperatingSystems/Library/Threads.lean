import Mathlib.Algebra.BigOperators.Fin
import Mathlib.Tactic.Abel
import Mathlib.Algebra.Order.BigOperators.Group.Finset

namespace OperatingSystems.Library

/-- `sem_wait` on a semaphore of value `v`: it takes one, or blocks at zero. -/
def semWait (v : ℕ) : Option ℕ := if v = 0 then none else some (v - 1)

/-- `sem_post` never blocks. -/
def semPost (v : ℕ) : ℕ := v + 1

@[simp] theorem semWait_eq_some {v w : ℕ} : semWait v = some w ↔ v = w + 1 := by
  unfold semWait
  split_ifs <;> simp <;> omega

section Totals

variable {τ α M : Type*} [Fintype τ] [DecidableEq τ] [AddCommMonoid M]

/-- A weight of program points, summed over what every thread is doing. -/
def total (w : α → M) (f : τ → α) : M := ∑ t, w (f t)

/-- Moving one thread exchanges its old weight for its new one. -/
theorem total_update (w : α → M) (f : τ → α) (t : τ) (x : α) :
    total w (Function.update f t x) + w (f t) = total w f + w x := by
  have split (g : τ → α) : total w g = w (g t) + ∑ u ∈ Finset.univ.erase t, w (g u) :=
    (Finset.add_sum_erase Finset.univ (fun u => w (g u)) (Finset.mem_univ t)).symm
  have rest : ∑ u ∈ Finset.univ.erase t, w (Function.update f t x u) =
      ∑ u ∈ Finset.univ.erase t, w (f u) :=
    Finset.sum_congr rfl fun u hu => by
      rw [Function.update_of_ne (Finset.ne_of_mem_erase hu)]
  rw [split, split f, rest, Function.update_self]
  abel

end Totals

section Counts

variable {τ α : Type*} [Fintype τ]

/-- The number of threads whose program point satisfies `p`. -/
def count (p : α → Bool) (f : τ → α) : ℕ := (Finset.univ.filter fun t => p (f t) = true).card

theorem count_eq_total (p : α → Bool) (f : τ → α) : count p f = total (fun a => (p a).toNat) f := by
  rw [count, Finset.card_filter, total]
  exact Finset.sum_congr rfl fun t _ => by cases p (f t) <;> rfl

theorem count_update [DecidableEq τ] (p : α → Bool) (f : τ → α) (t : τ) (x : α) :
    count p (Function.update f t x) + (p (f t)).toNat = count p f + (p x).toNat := by
  simp only [count_eq_total]
  exact total_update _ f t x

theorem count_eq_zero {p : α → Bool} {f : τ → α} : count p f = 0 ↔ ∀ t, p (f t) = false := by
  simp [count, Finset.filter_eq_empty_iff]

theorem count_pos {p : α → Bool} {f : τ → α} : 0 < count p f ↔ ∃ t, p (f t) = true := by
  simp [count, Finset.card_pos, Finset.filter_nonempty_iff]

theorem count_le_one {p : α → Bool} {f : τ → α} :
    count p f ≤ 1 ↔ ∀ t u, p (f t) = true → p (f u) = true → t = u := by
  simp only [count, Finset.card_le_one, Finset.mem_filter, Finset.mem_univ, true_and]
  exact ⟨fun h t u ht hu => h t ht u hu, fun h t ht u hu => h t u ht hu⟩

theorem count_const (p : α → Bool) (a : α) (h : p a = false) : count p (fun _ : τ => a) = 0 :=
  count_eq_zero.mpr fun _ => h

end Counts

end OperatingSystems.Library
