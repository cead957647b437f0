import OperatingSystems.Library.WaitGraph

namespace OperatingSystems.Philosophers

open Library

/-- The mutexes of a table with `N` seats: the print lock and one fork between two seats. -/
inductive Lock (N : ℕ) where
  | printLock
  | fork (i : Fin N)
  deriving DecidableEq

/-- The fork numbers that `get_forks` computes, the right one first. -/
def getForksNumbers {N : ℕ} (seatNum : Fin N) : Fin N × Fin N :=
  if h : seatNum.val + 1 = N then (⟨0, by omega⟩, seatNum)
  else (seatNum, ⟨seatNum.val + 1, by omega⟩)

/-- The fork numbers that `put_forks` computes, the right one first. -/
def putForksNumbers {N : ℕ} (seatNum : Fin N) : Fin N × Fin N :=
  if h : seatNum.val + 1 = N then (⟨0, by omega⟩, seatNum)
  else (seatNum, ⟨seatNum.val + 1, by omega⟩)

theorem putForksNumbers_eq {N : ℕ} (i : Fin N) : putForksNumbers i = getForksNumbers i := rfl

/-- The two forks of a seat are different and taken in ascending order, at the last seat too. -/
theorem getForksNumbers_lt {N : ℕ} (hN : 2 ≤ N) (i : Fin N) :
    (getForksNumbers i).1.val < (getForksNumbers i).2.val := by
  unfold getForksNumbers
  split_ifs with h
  · show 0 < i.val
    omega
  · exact Nat.lt_succ_self i.val

/-- The program points of `philosopher_action`, in the order of the code: `think`,
`get_forks`, `eat`, `put_forks`, and again. Each point stands before the operation it names. -/
inductive Point where
  | thinkLock | thinkUnlock | thinkSleep
  | getRightLock | getRightUnlock | getRight
  | getLeftLock | getLeftUnlock | getLeft
  | eatLock | eatUnlock | eatSleep | eatDoneLock | eatDoneUnlock
  | putLock | putUnlock | putRight | putLeft
  deriving DecidableEq

def Point.next : Point → Point
  | thinkLock => thinkUnlock
  | thinkUnlock => thinkSleep
  | thinkSleep => getRightLock
  | getRightLock => getRightUnlock
  | getRightUnlock => getRight
  | getRight => getLeftLock
  | getLeftLock => getLeftUnlock
  | getLeftUnlock => getLeft
  | getLeft => eatLock
  | eatLock => eatUnlock
  | eatUnlock => eatSleep
  | eatSleep => eatDoneLock
  | eatDoneLock => eatDoneUnlock
  | eatDoneUnlock => putLock
  | putLock => putUnlock
  | putUnlock => putRight
  | putRight => putLeft
  | putLeft => thinkLock

def op {N : ℕ} (i : Fin N) : Point → MutexOp (Lock N)
  | .thinkLock | .getRightLock | .getLeftLock | .eatLock | .eatDoneLock | .putLock =>
      .lock .printLock
  | .thinkUnlock | .getRightUnlock | .getLeftUnlock | .eatUnlock | .eatDoneUnlock | .putUnlock =>
      .unlock .printLock
  | .thinkSleep | .eatSleep => .other
  | .getRight => .lock (.fork (getForksNumbers i).1)
  | .getLeft => .lock (.fork (getForksNumbers i).2)
  | .putRight => .unlock (.fork (putForksNumbers i).1)
  | .putLeft => .unlock (.fork (putForksNumbers i).2)

/-- The threads that `main` starts: every philosopher runs `philosopher_action` for ever. -/
def philosophers (N : ℕ) : MutexProgram (Fin N) (Lock N) Point where
  start := .thinkLock
  op := op
  next := Point.next

abbrev TableState (N : ℕ) := MutexState (Fin N) (Lock N) Point

/-- The mutexes that a philosopher holds while standing at a point. -/
def holds {N : ℕ} (i : Fin N) : Point → Finset (Lock N)
  | .thinkLock | .thinkSleep | .getRightLock | .getRight => ∅
  | .thinkUnlock | .getRightUnlock => {.printLock}
  | .getLeftLock | .getLeft => {.fork (getForksNumbers i).1}
  | .getLeftUnlock => {.printLock, .fork (getForksNumbers i).1}
  | .eatLock | .eatSleep | .eatDoneLock | .putLock | .putRight =>
      {.fork (getForksNumbers i).1, .fork (getForksNumbers i).2}
  | .eatUnlock | .eatDoneUnlock | .putUnlock =>
      {.printLock, .fork (getForksNumbers i).1, .fork (getForksNumbers i).2}
  | .putLeft => {.fork (getForksNumbers i).2}

theorem forks_ne {N : ℕ} (hN : 2 ≤ N) (i : Fin N) :
    (getForksNumbers i).1 ≠ (getForksNumbers i).2 :=
  fun h => absurd (congrArg Fin.val h) (getForksNumbers_lt hN i).ne

/-- Each lock of the code is of a mutex its thread does not hold, each unlock of one it holds. -/
theorem holds_discipline {N : ℕ} (hN : 2 ≤ N) : (philosophers N).Discipline holds where
  start _ := rfl
  lock i p m h := by
    have hne := forks_ne hN i
    cases p <;> simp only [philosophers, op, MutexOp.lock.injEq, reduceCtorEq] at h <;> subst h <;>
      simp [holds, philosophers, Point.next, Ne.symm hne, Finset.pair_comm]
  unlock i p m h := by
    have hne := forks_ne hN i
    cases p <;> simp only [philosophers, op, MutexOp.unlock.injEq, reduceCtorEq] at h <;> subst h <;>
      refine ⟨by simp [holds, putForksNumbers_eq], Finset.ext fun n => ?_⟩ <;>
      simp only [holds, philosophers, Point.next, putForksNumbers_eq, Finset.mem_erase,
        Finset.mem_insert, Finset.mem_singleton, Finset.notMem_empty] <;>
      grind
  other i p h := by
    cases p <;> simp only [philosophers, op, reduceCtorEq] at h <;> rfl

end OperatingSystems.Philosophers
