import Mathlib.Data.Fintype.Pigeonhole
import Mathlib.Data.Finite.Prod

namespace OperatingSystems.Library

variable {α β : Type*}

/-- A feedback register: a word is made of the word `length` places before it, of that word's
successor, and of the word `tap` places after it. -/
structure Feedback (α : Type*) where
  length : ℕ
  tap : ℕ
  next : α → α → α → α
  two_le_tap : 2 ≤ tap
  tap_lt : tap < length

namespace Feedback

/-- The sequence that the register produces from the words it starts with. -/
def stream (r : Feedback α) (start : ℕ → α) (k : ℕ) : α :=
  if k < r.length then start k
  else
    r.next (r.stream start (k - r.length)) (r.stream start (k - r.length + 1))
      (r.stream start (k - r.length + r.tap))
termination_by k
decreasing_by
  all_goals
    have htap := r.two_le_tap
    have hlt := r.tap_lt
    omega

def Follows (r : Feedback α) (x : ℕ → α) : Prop :=
  ∀ k, x (k + r.length) = r.next (x k) (x (k + 1)) (x (k + r.tap))

/-- The word that leaves the register counts only by what `keep` keeps of it, and a new word tells
that part, and the rest of the next word to leave. -/
structure Reversible (r : Feedback α) (keep : α → β) : Prop where
  forgets : ∀ a a' b c, keep a = keep a' → r.next a b c = r.next a' b c
  recovers : ∀ a b a' b' c, r.next a b c = r.next a' b' c → keep b = keep b' →
    keep a = keep a' ∧ b = b'

/-- The register holds the same at place `k` of one sequence and at place `l` of the other. -/
structure Agree (r : Feedback α) (keep : α → β) (x : ℕ → α) (k : ℕ) (y : ℕ → α) (l : ℕ) : Prop where
  first : keep (x k) = keep (y l)
  rest : ∀ i, 0 < i → i < r.length → x (k + i) = y (l + i)

variable {r : Feedback α} {keep : α → β} {x y : ℕ → α} {start : ℕ → α} {k l : ℕ}

theorem stream_of_lt (h : k < r.length) : r.stream start k = start k := by
  rw [stream, if_pos h]

theorem stream_follows (r : Feedback α) (start : ℕ → α) : r.Follows (r.stream start) := by
  intro k
  rw [stream, if_neg (by omega), Nat.add_sub_cancel]

/-- Words that agree in a whole window make the register agree. -/
theorem Agree.of_window (h : ∀ i, i < r.length → x (k + i) = y (l + i)) : r.Agree keep x k y l :=
  ⟨congrArg keep (h 0 (lt_trans (lt_of_lt_of_le Nat.zero_lt_two r.two_le_tap) r.tap_lt)),
    fun i _ hi => h i hi⟩

theorem Agree.succ (hr : r.Reversible keep) (hx : r.Follows x) (hy : r.Follows y)
    (h : r.Agree keep x k y l) : r.Agree keep x (k + 1) y (l + 1) := by
  have htap := r.two_le_tap
  have hlt := r.tap_lt
  have hone : x (k + 1) = y (l + 1) := h.rest 1 Nat.zero_lt_one (by omega)
  constructor
  · exact congrArg keep hone
  · intro i hpos hi
    rw [Nat.add_right_comm k, Nat.add_right_comm l, Nat.add_assoc k, Nat.add_assoc l]
    rcases Nat.lt_or_eq_of_le (show i + 1 ≤ r.length from hi) with hin | hend
    · exact h.rest (i + 1) (by omega) hin
    · rw [hend, hx, hy, hone, h.rest r.tap (by omega) hlt]
      exact hr.forgets _ _ _ _ h.first

/-- A step of the register can be taken back. -/
theorem Agree.pred (hr : r.Reversible keep) (hx : r.Follows x) (hy : r.Follows y)
    (h : r.Agree keep x (k + 1) y (l + 1)) : r.Agree keep x k y l := by
  have htap := r.two_le_tap
  have hlt := r.tap_lt
  have hrest : ∀ i, 1 < i → i ≤ r.length → x (k + i) = y (l + i) := by
    intro i hone hi
    have hword := h.rest (i - 1) (by omega) (by omega)
    rwa [Nat.add_assoc, Nat.add_assoc, Nat.add_sub_cancel' (by omega)] at hword
  have hnew := hrest r.length (by omega) le_rfl
  rw [hx, hy, hrest r.tap (by omega) hlt.le] at hnew
  have hback := hr.recovers _ _ _ _ _ hnew h.first
  constructor
  · exact hback.1
  · intro i hpos hi
    rcases Nat.lt_or_eq_of_le (show 1 ≤ i from hpos) with hone | rfl
    · exact hrest i hone hi.le
    · exact hback.2

theorem Agree.add (hr : r.Reversible keep) (hx : r.Follows x) (hy : r.Follows y)
    (h : r.Agree keep x k y l) (j : ℕ) : r.Agree keep x (k + j) y (l + j) := by
  induction j with
  | zero => exact h
  | succ j ih => exact ih.succ hr hx hy

theorem Agree.sub (hr : r.Reversible keep) (hx : r.Follows x) (hy : r.Follows y) (j : ℕ)
    (h : r.Agree keep x (k + j) y (l + j)) : r.Agree keep x k y l := by
  induction j with
  | zero => exact h
  | succ j ih => exact ih (h.pred hr hx hy)

/-- Registers that agree once produce the same words from there on. -/
theorem Agree.eq (hr : r.Reversible keep) (hx : r.Follows x) (hy : r.Follows y)
    (h : r.Agree keep x k y l) {j : ℕ} (hj : 0 < j) : x (k + j) = y (l + j) := by
  have htap := r.two_le_tap
  have hlt := r.tap_lt
  have hword := (h.add hr hx hy (j - 1)).rest 1 Nat.zero_lt_one (by omega)
  rwa [Nat.add_assoc, Nat.add_assoc, Nat.sub_add_cancel hj] at hword

/-- A reversible register over finitely many words comes back to where it was. -/
theorem exists_period [Finite α] (hr : r.Reversible keep) (hx : r.Follows x) :
    ∃ p, 0 < p ∧ r.Agree keep x p x 0 := by
  obtain ⟨i, j, hne, hwindow⟩ :=
    Finite.exists_ne_map_eq_of_infinite fun k => fun i : Fin r.length => x (k + i)
  wlog hlt : i < j generalizing i j
  · exact this j i hne.symm hwindow.symm (by omega)
  have hsame : r.Agree keep x (j - i + i) x (0 + i) := by
    rw [Nat.sub_add_cancel hlt.le, Nat.zero_add]
    exact Agree.of_window fun n hn => (congrFun hwindow ⟨n, hn⟩).symm
  exact ⟨j - i, Nat.sub_pos_of_lt hlt, hsame.sub hr hx hx i⟩

end Feedback

end OperatingSystems.Library
