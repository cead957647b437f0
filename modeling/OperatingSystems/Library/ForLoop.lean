import Mathlib.Data.Nat.Notation
import Mathlib.Order.Lattice
import Mathlib.Algebra.Order.Ring.Nat

namespace OperatingSystems.Library

variable {σ : Type*}

/-- `for (; i < bound; i += stride) body`, with a counter of `w` bits; a body that faults ends the
program. -/
def forLoop (w bound stride : ℕ) (body : ℕ → σ → Option σ) : ℕ → ℕ → σ → Option σ
  | 0, _, _ => none
  | fuel + 1, i, s =>
    if i < bound then
      (body i s).bind fun s' => forLoop w bound stride body fuel ((i + stride) % 2 ^ w) s'
    else some s

/-- The counter after round `m`. -/
theorem counter_next {w n stride m : ℕ} (hw : n * stride < 2 ^ w) (hm : m < n) :
    (m * stride + stride) % 2 ^ w = (m + 1) * stride := by
  have hle : (m + 1) * stride ≤ n * stride := Nat.mul_le_mul_right stride hm
  rw [Nat.add_mul, Nat.one_mul] at hle ⊢
  exact Nat.mod_eq_of_lt (lt_of_le_of_lt hle hw)

/-- The rule for a loop of `n` rounds that does not overflow: what holds before round `m` and is
carried to round `m + 1` holds at the end, and the loop ends. -/
theorem forLoop_spec {w n stride : ℕ} (body : ℕ → σ → Option σ) {P : ℕ → σ → Prop}
    (hstride : 0 < stride) (hw : n * stride < 2 ^ w)
    (hbody : ∀ m s, m < n → P m s → ∃ s', body (m * stride) s = some s' ∧ P (m + 1) s')
    (fuel : ℕ) {m : ℕ} {s : σ} (hm : m ≤ n) (hfuel : n < fuel + m) (hs : P m s) :
    ∃ s', forLoop w (n * stride) stride body fuel (m * stride) s = some s' ∧ P n s' := by
  induction fuel generalizing m s with
  | zero => omega
  | succ fuel ih =>
    rw [forLoop]
    rcases Nat.lt_or_eq_of_le hm with hlt | rfl
    · obtain ⟨s', hs', hP⟩ := hbody m s hlt hs
      rw [if_pos (Nat.mul_lt_mul_of_pos_right hlt hstride), hs', Option.bind_some, counter_next hw hlt]
      exact ih hlt (by omega) hP
    · rw [if_neg (lt_irrefl _)]
      exact ⟨s, rfl, hs⟩

/-- The rule for faults: a loop whose rounds fault exactly where `Q` fails comes to its end
exactly when `Q` holds in every round. -/
theorem forLoop_isSome_iff {w n stride : ℕ} (body : ℕ → σ → Option σ) {P : σ → Prop}
    {Q : ℕ → Prop} (hstride : 0 < stride) (hw : n * stride < 2 ^ w)
    (hok : ∀ m s, m < n → P s → Q m → ∃ s', body (m * stride) s = some s' ∧ P s')
    (hfault : ∀ m s, m < n → P s → ¬ Q m → body (m * stride) s = none)
    (fuel : ℕ) {m : ℕ} {s : σ} (hm : m ≤ n) (hfuel : n < fuel + m) (hs : P s) :
    (forLoop w (n * stride) stride body fuel (m * stride) s).isSome = true ↔
      ∀ k, m ≤ k → k < n → Q k := by
  induction fuel generalizing m s with
  | zero => omega
  | succ fuel ih =>
    rw [forLoop]
    rcases Nat.lt_or_eq_of_le hm with hlt | rfl
    · rw [if_pos (Nat.mul_lt_mul_of_pos_right hlt hstride)]
      by_cases hround : Q m
      · obtain ⟨s', hs', hP⟩ := hok m s hlt hs hround
        rw [hs', Option.bind_some, counter_next hw hlt, ih hlt (by omega) hP]
        constructor
        · intro h k hmk hk
          rcases Nat.lt_or_eq_of_le hmk with hlt' | rfl
          · exact h k hlt' hk
          · exact hround
        · intro h k hmk hk
          exact h k (by omega) hk
      · rw [hfault m s hlt hs hround, Option.bind_none]
        exact iff_of_false Bool.false_ne_true fun h => hround (h m le_rfl hlt)
    · rw [if_neg (lt_irrefl _)]
      exact iff_of_true rfl fun k hmk hk => absurd hk (Nat.not_lt_of_le hmk)

/-- The rule for a loop of a fixed number of rounds. -/
theorem fold_rule {n : ℕ} {f : (i : ℕ) → i < n → σ → σ} {P : ℕ → σ → Prop}
    (hstep : ∀ i (hi : i < n) s, P i s → P (i + 1) (f i hi s)) {s : σ} (hs : P 0 s) :
    P n (Nat.fold n f s) := by
  induction n with
  | zero => exact hs
  | succ n ih =>
    rw [Nat.fold_succ]
    exact hstep n _ _ (ih fun i hi t => hstep i (Nat.lt_succ_of_lt hi) t)

/-- The rule for a loop that does the same in every round. -/
theorem iterate_rule {f : σ → σ} {P : ℕ → σ → Prop} (hstep : ∀ n s, P n s → P (n + 1) (f s)) {s : σ}
    (hs : P 0 s) (n : ℕ) : P n (f^[n] s) := by
  induction n with
  | zero => exact hs
  | succ n ih =>
    rw [Function.iterate_succ_apply']
    exact hstep n _ ih

end OperatingSystems.Library
