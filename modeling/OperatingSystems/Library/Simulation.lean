import Mathlib.Data.Nat.Notation
import OperatingSystems.Library.Machine

namespace OperatingSystems.Library

namespace Machine

variable {σ ε δ : Type*} (M : Machine σ ε)

/-- What an observer records of a run in which each step shows the list `shows` of it. -/
def trace (shows : σ → ε → List δ) : σ → List ε → List δ
  | _, [] => []
  | s, e :: es =>
    match M.step s e with
    | none => []
    | some t => shows s e ++ trace shows t es

variable {M} {shows : σ → ε → List δ}

theorem trace_cons {s t : σ} {e : ε} (h : M.step s e = some t) (es : List ε) :
    M.trace shows s (e :: es) = shows s e ++ M.trace shows t es := by
  simp [trace, h]

theorem trace_append {s t : σ} {es : List ε} (hr : M.run s es = some t) (fs : List ε) :
    M.trace shows s (es ++ fs) = M.trace shows s es ++ M.trace shows t fs := by
  induction es generalizing s with
  | nil =>
    obtain rfl := Option.some.inj hr
    rfl
  | cons e es ih =>
    obtain ⟨u, hu, hr⟩ := run_cons_eq_some.mp hr
    rw [List.cons_append, trace_cons hu, trace_cons hu, ih hr, List.append_assoc]

/-- Where every step shows as many `x`, with what a measure gives up, as it shows `y`, so does a run. -/
theorem trace_count [DecidableEq δ] {I : σ → Prop} {f : σ → ℕ} {x y : δ}
    (hinv : ∀ s e t, I s → M.step s e = some t → I t)
    (hstep : ∀ s e t, I s → M.step s e = some t →
      (shows s e).count x + f s = (shows s e).count y + f t)
    {s t : σ} {es : List ε} (hs : I s) (hr : M.run s es = some t) :
    (M.trace shows s es).count x + f s = (M.trace shows s es).count y + f t := by
  induction es generalizing s with
  | nil =>
    obtain rfl := Option.some.inj hr
    rfl
  | cons e es ih =>
    obtain ⟨u, hu, hr⟩ := run_cons_eq_some.mp hr
    have hhead := hstep s e u hs hu
    have htail := ih (hinv s e u hs hu) hr
    rw [trace_cons hu, List.count_append, List.count_append]
    omega

end Machine

variable {σ ε ς δ : Type*} {M : Machine σ ε} {A : Machine ς δ}

/-- Every step of `M` from a state related to one of `A` is answered by the steps of `A` that it
shows, none of them for a silent step. -/
structure Simulation (M : Machine σ ε) (A : Machine ς δ) (shows : σ → ε → List δ)
    (R : σ → ς → Prop) : Prop where
  init : ∀ s, M.init s → ∃ a, A.init a ∧ R s a
  step : ∀ s a e t, R s a → M.step s e = some t → ∃ b, A.run a (shows s e) = some b ∧ R t b

namespace Simulation

variable {shows : σ → ε → List δ} {R : σ → ς → Prop}

theorem run (h : Simulation M A shows R) {s t : σ} {a : ς} {es : List ε} (hR : R s a)
    (hr : M.run s es = some t) : ∃ b, A.run a (M.trace shows s es) = some b ∧ R t b := by
  induction es generalizing s a with
  | nil =>
    obtain rfl := Option.some.inj hr
    exact ⟨a, rfl, hR⟩
  | cons e es ih =>
    obtain ⟨u, hu, hr⟩ := Machine.run_cons_eq_some.mp hr
    obtain ⟨c, hc, hRc⟩ := h.step s a e u hR hu
    obtain ⟨b, hb, hRb⟩ := ih hRc hr
    refine ⟨b, ?_, hRb⟩
    rw [Machine.trace_cons hu, Machine.run_trans hc]
    exact hb

theorem reachable (h : Simulation M A shows R) {s : σ} (hs : M.Reachable s) :
    ∃ a, A.Reachable a ∧ R s a := by
  obtain ⟨s₀, es, hi, hr⟩ := hs
  obtain ⟨a₀, ha, hR⟩ := h.init s₀ hi
  obtain ⟨a, hrun, hRa⟩ := h.run hR hr
  exact ⟨a, ⟨a₀, _, ha, hrun⟩, hRa⟩

end Simulation

/-- The run rule for the runs whose steps meet a condition, where `A` may answer a step with more than
what an observer sees. -/
theorem Machine.Meets.simulates {C : σ → ε → Prop} {R : σ → ς → Prop} {α : Type*}
    {shows : σ → ε → List δ} {A : Machine ς α} (sees : List α → List δ) (hnil : sees [] = [])
    (happend : ∀ as bs, sees (as ++ bs) = sees as ++ sees bs)
    (hstep : ∀ s a e t, R s a → C s e → M.step s e = some t →
      ∃ as b, A.run a as = some b ∧ sees as = shows s e ∧ R t b)
    {s t : σ} {a : ς} {es : List ε} (hR : R s a) (h : M.Meets C s es) (hr : M.run s es = some t) :
    ∃ as b, A.run a as = some b ∧ sees as = M.trace shows s es ∧ R t b := by
  induction es generalizing s a with
  | nil =>
    obtain rfl := Option.some.inj hr
    exact ⟨[], a, rfl, hnil, hR⟩
  | cons e es ih =>
    obtain ⟨u, hu, hr⟩ := Machine.run_cons_eq_some.mp hr
    obtain ⟨as, c, hc, hsees, hRc⟩ := hstep s a e u hR h.1 hu
    obtain ⟨bs, b, hb, hrest, hRb⟩ := ih hRc (h.2 u hu) hr
    refine ⟨as ++ bs, b, (Machine.run_trans hc).trans hb, ?_, hRb⟩
    rw [happend, hsees, hrest, Machine.trace_cons hu]

end OperatingSystems.Library
