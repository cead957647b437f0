import OperatingSystems.Philosophers.Table

namespace OperatingSystems.Philosophers

open Library

/-- The order in which the code locks: forks by number, the print lock above them all. -/
def lockRank {N : ℕ} : Lock N → ℕ
  | .printLock => N
  | .fork i => i.val

theorem lockRank_le {N : ℕ} (m : Lock N) : lockRank m ≤ N := by
  cases m with
  | printLock => exact le_rfl
  | fork i => exact i.isLt.le

theorem locks_ascend {N : ℕ} (hN : 2 ≤ N) (i : Fin N) (p : Point) (m : Lock N)
    (h : (philosophers N).op i p = .lock m) : ∀ n ∈ holds i p, lockRank n < lockRank m := by
  have hlt := getForksNumbers_lt hN i
  cases p <;> simp only [philosophers, op, MutexOp.lock.injEq, reduceCtorEq] at h <;> subst h <;>
    simp [holds, lockRank]
  exact hlt

/-- From every philosopher the chain of waiting ends at one that is able to step; nobody waits
for itself along any chain, and somebody is able to step. -/
theorem philosophers_never_deadlock (N : ℕ) (hN : 2 ≤ N) (s : TableState N)
    (h : (philosophers N).machine.Reachable s) :
    (∀ i, ∃ j, Relation.ReflTransGen ((philosophers N).Waits s) i j ∧ (philosophers N).Able s j) ∧
    (∀ i, (∃ j, (philosophers N).Waits s i j) ↔ ¬ (philosophers N).Able s i) ∧
    (∀ i j k, (philosophers N).Waits s i j → (philosophers N).Waits s i k → j = k) ∧
    (∀ i, ¬ Relation.TransGen ((philosophers N).Waits s) i i) ∧
    ∃ i, (philosophers N).Able s i := by
  have howned := MutexProgram.owned_reachable (holds_discipline hN) h
  have hrank : ∀ i j, (philosophers N).Waits s i j →
      MutexProgram.waitRank lockRank N (philosophers N) s i <
        MutexProgram.waitRank lockRank N (philosophers N) s j :=
    fun _ _ => MutexProgram.waitRank_lt lockRank N lockRank_le (locks_ascend hN) howned
  have hends := waits_chain_ends _ hrank _ (MutexProgram.waitRank_le lockRank N lockRank_le s)
    fun _ => MutexProgram.waits_of_not_able
  refine ⟨hends, ?_, ?_, no_waits_cycle _ hrank, ?_⟩
  · exact fun i => ⟨fun ⟨_, hw⟩ => MutexProgram.not_able_of_waits hw, MutexProgram.waits_of_not_able⟩
  · rintro i j k ⟨m, hop, hj⟩ ⟨n, hop', hk⟩
    obtain rfl : m = n := MutexOp.lock.inj (hop.symm.trans hop')
    exact Option.some.inj (hj.symm.trans hk)
  · obtain ⟨j, -, hj⟩ := hends ⟨0, by omega⟩
    exact ⟨j, hj⟩

/-- Five philosophers, the first of them printing: the second waits for one that can go on. -/
theorem second_philosopher_waits :
    ∃ s, (philosophers 5).machine.run ⟨fun _ => none, fun _ => .thinkLock⟩ [0] = some s ∧
      (philosophers 5).Waits s 1 0 ∧
      ∃ j, Relation.ReflTransGen ((philosophers 5).Waits s) 1 j ∧ (philosophers 5).Able s j :=
  ⟨_, rfl, ⟨.printLock, rfl, rfl⟩,
    (philosophers_never_deadlock 5 (by decide) _ ⟨_, [0], rfl, rfl⟩).1 1⟩

end OperatingSystems.Philosophers
