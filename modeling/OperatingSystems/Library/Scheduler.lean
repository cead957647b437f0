import Mathlib.Data.Fintype.Card
import OperatingSystems.Library.Fairness

namespace OperatingSystems.Library

namespace Execution

variable {σ ε τ : Type*} {M : Machine σ ε} {s₀ s₁ : σ} {actor : ε → τ}

/-- Of the steps that can be taken, one of a thread that has waited longest. -/
theorem exists_oldest {s : σ} (actor : ε → τ) (last : τ → ℕ)
    (h : ∃ e, (M.step s e).isSome = true) : ∃ e s', M.step s e = some s' ∧
      ∀ e', (M.step s e').isSome = true → last (actor e) ≤ last (actor e') := by
  classical
  have hsome : ∃ n e, (M.step s e).isSome = true ∧ last (actor e) = n := by
    obtain ⟨e, he⟩ := h
    exact ⟨_, e, he, rfl⟩
  obtain ⟨e, he, hlast⟩ := Nat.find_spec hsome
  obtain ⟨s', hs⟩ := Option.isSome_iff_exists.mp he
  refine ⟨e, s', hs, fun e' he' => ?_⟩
  rw [hlast]
  exact Nat.find_min' hsome ⟨e', he', rfl⟩

/-- Each step is one of a thread that has waited longest; `last` keeps when each thread last took a
step. -/
structure OldestFirst [DecidableEq τ] (E : Execution M) (actor : ε → τ) (last : ℕ → τ → ℕ) :
    Prop where
  zero : ∀ t, last 0 t = 0
  succ : ∀ n, last (n + 1) = Function.update (last n) (actor (E.event n)) (n + 1)
  oldest : ∀ n e, (M.step (E.state n) e).isSome = true →
    last n (actor (E.event n)) ≤ last n (actor e)

/-- Where a step can be taken in every reachable state, threads can take turns so for ever. -/
theorem exists_oldest_first [DecidableEq τ] (actor : ε → τ)
    (hlive : ∀ s, M.Reachable s → ∃ e, (M.step s e).isSome = true) (hs : M.Reachable s₀) :
    ∃ (E : Execution (M.startingAt s₀)) (last : ℕ → τ → ℕ), E.OldestFirst actor last := by
  let X := { x : σ × (τ → ℕ) // M.Reachable x.1 }
  have hnext : ∀ (n : ℕ) (x : X), ∃ (e : ε) (y : X), M.step x.1.1 e = some y.1.1 ∧
      y.1.2 = Function.update x.1.2 (actor e) (n + 1) ∧
      ∀ e', (M.step x.1.1 e').isSome = true → x.1.2 (actor e) ≤ x.1.2 (actor e') := by
    rintro n ⟨⟨s, last⟩, hx⟩
    obtain ⟨e, s', hstep, hold⟩ := exists_oldest actor last (hlive s hx)
    exact ⟨e, ⟨⟨s', Function.update last (actor e) (n + 1)⟩, hx.step hstep⟩, hstep, rfl, hold⟩
  choose event next hstep hlast hold using hnext
  let place : ℕ → X := fun n => n.rec ⟨⟨s₀, fun _ => 0⟩, hs⟩ next
  refine ⟨⟨fun n => (place n).1.1, fun n => event n (place n), rfl, fun n => hstep n (place n)⟩,
    fun n => (place n).1.2, fun _ => rfl, fun n => hlast n (place n), fun n => hold n (place n)⟩

namespace OldestFirst

variable [DecidableEq τ] {E : Execution M} {last : ℕ → τ → ℕ} (h : E.OldestFirst actor last)

include h

theorem last_le (n : ℕ) (t : τ) : last n t ≤ n := by
  induction n with
  | zero => exact (h.zero t).le
  | succ n ih =>
    rw [h.succ, Function.update_apply]
    split_ifs
    · exact Nat.le_refl _
    · exact ih.trans (Nat.le_succ n)

/-- Who steps from `n` on has waited less, from then on, than anybody had at `n`. -/
theorem erase_before [Fintype τ] {n m : ℕ} (hm : n ≤ m) (t : τ) :
    (Finset.univ.filter fun u => last (m + 1) u ≤ last n t) ⊆
      (Finset.univ.filter fun u => last m u ≤ last n t).erase (actor (E.event m)) := by
  intro u hu
  have hle := (Finset.mem_filter.mp hu).2
  have hne : u ≠ actor (E.event m) := by
    rintro rfl
    rw [h.succ, Function.update_self] at hle
    have hbound := h.last_le n t
    omega
  rw [h.succ, Function.update_of_ne hne] at hle
  exact Finset.mem_erase.mpr ⟨hne, Finset.mem_filter.mpr ⟨Finset.mem_univ u, hle⟩⟩

/-- Such a run is fair: each time that a thread could go on and does not, one fewer is before it. -/
theorem fair [Fintype τ] : E.Fair actor := by
  intro t hable n
  by_contra hidle
  push Not at hidle
  have hkept : ∀ m, n ≤ m → last m t = last n t := by
    intro m hm
    induction m, hm using Nat.le_induction with
    | base => rfl
    | succ m hm ih => rw [h.succ, Function.update_of_ne (Ne.symm (hidle m hm)), ih]
  let before (m : ℕ) : Finset τ := Finset.univ.filter fun u => last m u ≤ last n t
  have hfewer : ∀ m, n ≤ m → (∃ e, actor e = t ∧ (M.step (E.state m) e).isSome = true) →
      (before (m + 1)).card < (before m).card := by
    rintro m hm ⟨e, rfl, he⟩
    have hmem : actor (E.event m) ∈ before m := by
      refine Finset.mem_filter.mpr ⟨Finset.mem_univ _, ?_⟩
      rw [← hkept m hm]
      exact h.oldest m e he
    exact (Finset.card_le_card (h.erase_before hm _)).trans_lt (Finset.card_erase_lt_of_mem hmem)
  have hle : ∀ m, n ≤ m → (before (m + 1)).card ≤ (before m).card := by
    intro m hm
    apply Finset.card_le_card
    exact (h.erase_before hm t).trans (Finset.erase_subset _ _)
  obtain ⟨k, hk, hnever⟩ := finitely_often (f := fun m => (before m).card)
    (p := fun m => ∃ e, actor e = t ∧ (M.step (E.state m) e).isSome = true) hle hfewer
  obtain ⟨m, hm, hnow⟩ := hable k
  exact hnever m hm hnow

end OldestFirst

/-- A run that never ends, with a step before it. -/
def prepend {e : ε} (hs : M.step s₀ e = some s₁) (E : Execution (M.startingAt s₁)) :
    Execution (M.startingAt s₀) where
  state
    | 0 => s₀
    | n + 1 => E.state n
  event
    | 0 => e
    | n + 1 => E.event n
  start := rfl
  step
    | 0 => hs.trans (congrArg some E.start.symm)
    | n + 1 => E.step n

theorem prepend_fair {e : ε} (hs : M.step s₀ e = some s₁) {E : Execution (M.startingAt s₁)}
    (hfair : E.Fair actor) : (E.prepend hs).Fair actor := by
  intro t hable n
  have hlater : ∀ i, ∃ m, i ≤ m ∧ ∃ e, actor e = t ∧ (M.step (E.state m) e).isSome = true := by
    intro i
    obtain ⟨m, hm, hnow⟩ := hable (i + 1)
    obtain ⟨k, rfl⟩ := Nat.exists_eq_add_of_lt (show 0 < m by omega)
    exact ⟨0 + k, by omega, hnow⟩
  obtain ⟨m, hm, hact⟩ := hfair t hlater n
  exact ⟨m + 1, by omega, hact⟩

/-- A run before a fair one. -/
theorem exists_fair_after {fs : List ε} (hlead : M.run s₀ fs = some s₁)
    (hfair : ∃ E : Execution (M.startingAt s₁), E.Fair actor) :
    ∃ E : Execution (M.startingAt s₀), E.Fair actor ∧ ∃ n, E.state n = s₁ := by
  induction fs generalizing s₀ with
  | nil =>
    obtain rfl := Option.some.inj hlead
    obtain ⟨E, hfair⟩ := hfair
    exact ⟨E, hfair, 0, E.start⟩
  | cons e fs ih =>
    obtain ⟨u, hu, hrest⟩ := Machine.run_cons_eq_some.mp hlead
    obtain ⟨E, hfair, n, hn⟩ := ih hrest
    exact ⟨E.prepend hu, prepend_fair hu hfair, n + 1, hn⟩

variable [Fintype τ] [DecidableEq τ]

/-- Where a step can be taken in every reachable state, each of them is one of a fair run. -/
theorem exists_fair (actor : ε → τ) (hlive : ∀ s, M.Reachable s → ∃ e, (M.step s e).isSome = true)
    (hs : M.Reachable s₁) : ∃ E : Execution M, E.Fair actor ∧ ∃ n, E.state n = s₁ := by
  obtain ⟨E, last, holdest⟩ := exists_oldest_first actor hlive hs
  obtain ⟨s₀, es, hi, hr⟩ := hs
  obtain ⟨E, hfair, n, hn⟩ := exists_fair_after hr ⟨E, holdest.fair⟩
  have hstart : E.state 0 = s₀ := E.start
  exact ⟨⟨E.state, E.event, hstart.symm ▸ hi, E.step⟩, hfair, n, hn⟩

end Execution

end OperatingSystems.Library
