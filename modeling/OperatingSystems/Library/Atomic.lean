import Mathlib.Logic.Function.Basic
import OperatingSystems.Library.Machine

namespace OperatingSystems.Library

/-- How far a thread is with an operation. -/
inductive Progress (ω ρ : Type*) where
  | idle
  | called (op : ω)
  | done (result : ρ)
  deriving DecidableEq

/-- An operation is called, takes effect in one step, and is answered with its result. -/
inductive Act (τ ω ρ : Type*) where
  | call (t : τ) (op : ω)
  | effect (t : τ)
  | answer (t : τ) (result : ρ)
  deriving DecidableEq

/-- Calls and answers are what an observer sees. -/
def Act.visible {τ ω ρ : Type*} : Act τ ω ρ → Bool
  | effect _ => false
  | _ => true

/-- An object that any number of threads use. -/
structure Atomic (τ ς ω ρ : Type*) where
  state : ς
  progress : τ → Progress ω ρ

namespace Atomic

variable {τ ς ω ρ : Type*}

/-- Nobody has called yet. -/
def fresh (start : ς) : Atomic τ ς ω ρ := ⟨start, fun _ => .idle⟩

variable [DecidableEq τ]

def goto (a : Atomic τ ς ω ρ) (t : τ) (p : Progress ω ρ) : Atomic τ ς ω ρ :=
  { a with progress := Function.update a.progress t p }

/-- `spec` gives the state after an operation and its result. -/
def step [DecidableEq ρ] (spec : ω → ς → ς × ρ) (a : Atomic τ ς ω ρ) :
    Act τ ω ρ → Option (Atomic τ ς ω ρ)
  | .call t op =>
    match a.progress t with
    | .idle => some (a.goto t (.called op))
    | _ => none
  | .effect t =>
    match a.progress t with
    | .called op => some ⟨(spec op a.state).1, Function.update a.progress t (.done (spec op a.state).2)⟩
    | _ => none
  | .answer t result =>
    match a.progress t with
    | .done r => if r = result then some (a.goto t .idle) else none
    | _ => none

/-- The runs in which each operation takes effect at one moment between its call and its answer. -/
def machine [DecidableEq ρ] (spec : ω → ς → ς × ρ) (start : ς) :
    Machine (Atomic τ ς ω ρ) (Act τ ω ρ) where
  init a := a = fresh start
  step := step spec

variable [DecidableEq ρ] {spec : ω → ς → ς × ρ} {start : ς} {a : Atomic τ ς ω ρ} {t : τ} {op : ω} {r : ρ}

theorem run_call (h : a.progress t = .idle) :
    (machine spec start).run a [.call t op] = some (a.goto t (.called op)) :=
  Machine.run_single (by simp [machine, step, h])

theorem run_effect (h : a.progress t = .called op) : (machine spec start).run a [.effect t] =
    some ⟨(spec op a.state).1, Function.update a.progress t (.done (spec op a.state).2)⟩ :=
  Machine.run_single (by simp [machine, step, h])

theorem run_answer (h : a.progress t = .done r) :
    (machine spec start).run a [.answer t r] = some (a.goto t .idle) :=
  Machine.run_single (by simp [machine, step, h])

/-- An operation that takes effect where it is answered. -/
theorem run_effect_answer (h : a.progress t = .called op) (hr : (spec op a.state).2 = r) :
    (machine spec start).run a [.effect t, .answer t r] =
      some ⟨(spec op a.state).1, Function.update a.progress t .idle⟩ := by
  have hdone : Function.update a.progress t (.done (spec op a.state).2) t = .done r := by
    rw [Function.update_self, hr]
  refine (Machine.run_trans (run_effect h)).trans ((run_answer hdone).trans (congrArg some ?_))
  simp [goto]

end Atomic

end OperatingSystems.Library
