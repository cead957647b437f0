import OperatingSystems.Library.Fairness
import OperatingSystems.Philosophers.Deadlock
import OperatingSystems.Philosophers.Forks

namespace OperatingSystems.Philosophers

open Library

/-- How many statements a philosopher has before it, up to the next round. -/
def rest : Point → ℕ
  | .thinkLock => 0
  | .thinkUnlock => 17
  | .thinkSleep => 16
  | .getRightLock => 15
  | .getRightUnlock => 14
  | .getRight => 13
  | .getLeftLock => 12
  | .getLeftUnlock => 11
  | .getLeft => 10
  | .eatLock => 9
  | .eatUnlock => 8
  | .eatSleep => 7
  | .eatDoneLock => 6
  | .eatDoneUnlock => 5
  | .putLock => 4
  | .putUnlock => 3
  | .putRight => 2
  | .putLeft => 1

theorem rest_next {p : Point} (h : p ≠ .thinkLock) : rest p.next < rest p := by
  cases p
  case thinkLock => exact absurd rfl h
  all_goals decide

theorem next_iterate_rest (p : Point) : Point.next^[rest p] p = .thinkLock := by
  cases p <;> rfl

theorem leads_to_eating (p : Point) : Point.next^[11 + rest p] p = .eatSleep := by
  rw [Function.iterate_add_apply, next_iterate_rest]
  rfl

/-- Where a mutex goes, in the end, to everyone who asks for it again and again, no philosopher starves:
each of them eats again and again, with the two forks of its seat in its hands. -/
theorem philosophers_never_starve (N : ℕ) (hN : 2 ≤ N) (E : Execution (philosophers N).machine)
    (hfair : E.Fair id) (i : Fin N) (n : ℕ) :
    ∃ k, n ≤ k ∧ (E.state k).point i = .eatSleep ∧
      ∀ f, (E.state k).owner (.fork f) = some i ↔ f = i ∨ f = nextSeat i := by
  have hrest : ∀ p, p ≠ (philosophers N).start → rest ((philosophers N).next p) < rest p :=
    fun _ => rest_next
  have hacts := MutexProgram.fair_acts E (holds_discipline hN) lockRank N lockRank_le (locks_ascend hN)
    hrest hfair i
  obtain ⟨k, hk, hpoint⟩ := MutexProgram.comes_to E hacts (11 + rest ((E.state n).point i)) n
  have heat : (E.state k).point i = .eatSleep := hpoint.trans (leads_to_eating _)
  refine ⟨k, hk, heat, fun f => ?_⟩
  have howned := MutexProgram.owned_reachable (holds_discipline hN) (E.reachable k)
  have heating : Eating ((E.state k).point i) := by
    rw [heat]
    trivial
  rw [howned, mem_holds_of_eating heating]

/-- Two philosophers who take turns, a whole round each. -/
def takingTurns : List (Fin 2) := List.replicate 18 0 ++ List.replicate 18 1

theorem run_takingTurns : (philosophers 2).machine.run ⟨fun _ => none, fun _ => .thinkLock⟩ takingTurns =
    some ⟨fun _ => none, fun _ => .thinkLock⟩ := by
  have hrun : ∃ s, (philosophers 2).machine.run ⟨fun _ => none, fun _ => .thinkLock⟩ takingTurns =
      some s ∧ (∀ m, s.owner m = none) ∧ ∀ i, s.point i = .thinkLock := by
    refine ⟨_, rfl, ?_, ?_⟩
    · intro m
      cases m with
      | printLock => rfl
      | fork i =>
        revert i
        decide
    · decide
  obtain ⟨⟨owner, point⟩, hs, howner, hpoint⟩ := hrun
  obtain rfl : owner = fun _ => none := funext howner
  obtain rfl : point = fun _ => .thinkLock := funext hpoint
  exact hs

theorem philosophers_never_starve_two :
    ∃ (E : Execution (philosophers 2).machine) (k : ℕ), 1000 ≤ k ∧
      (E.state k).point 1 = .eatSleep ∧
      ∀ f, (E.state k).owner (.fork f) = some 1 ↔ f = 1 ∨ f = nextSeat 1 :=
  have hfair : (Execution.cycle (M := (philosophers 2).machine) rfl (by decide) run_takingTurns).Fair id :=
    Execution.cycle_fair rfl (by decide) run_takingTurns (by decide)
  ⟨_, philosophers_never_starve 2 (by decide) _ hfair 1 1000⟩

end OperatingSystems.Philosophers
