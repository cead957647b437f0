import OperatingSystems.Philosophers.Table

namespace OperatingSystems.Philosophers

open Library

/-- The seat after `i`, the last one being followed by the first. -/
def nextSeat {N : ℕ} (i : Fin N) : Fin N := ⟨(i.val + 1) % N, Nat.mod_lt _ i.pos⟩

/-- Between `get_forks` and `put_forks`. -/
def Eating : Point → Prop
  | .eatLock | .eatUnlock | .eatSleep | .eatDoneLock | .eatDoneUnlock => True
  | _ => False

/-- Between `put_forks` and `get_forks`. -/
def Thinking : Point → Prop
  | .thinkLock | .thinkUnlock | .thinkSleep => True
  | _ => False

theorem nextSeat_ne {N : ℕ} (hN : 2 ≤ N) (i : Fin N) : nextSeat i ≠ i := by
  intro h
  have hval : (i.val + 1) % N = i.val := congrArg Fin.val h
  have hlt := i.isLt
  by_cases hlast : i.val + 1 = N
  · rw [hlast, Nat.mod_self] at hval
    omega
  · rw [Nat.mod_eq_of_lt (by omega)] at hval
    omega

/-- What `get_forks` computes at a seat, the last one included, are the forks on its two sides. -/
theorem forks_adjacent {N : ℕ} (i f : Fin N) :
    f = (getForksNumbers i).1 ∨ f = (getForksNumbers i).2 ↔ f = i ∨ f = nextSeat i := by
  unfold getForksNumbers
  split_ifs with h
  · have hnext : nextSeat i = ⟨0, i.pos⟩ := Fin.ext (by simp [nextSeat, h])
    rw [hnext]
    exact or_comm
  · have hnext : nextSeat i = ⟨i.val + 1, by omega⟩ :=
      Fin.ext (Nat.mod_eq_of_lt (by omega))
    rw [hnext]

theorem mem_holds_of_eating {N : ℕ} {i : Fin N} {p : Point} (h : Eating p) (f : Fin N) :
    Lock.fork f ∈ holds i p ↔ f = i ∨ f = nextSeat i := by
  rw [← forks_adjacent]
  cases p <;> simp [Eating] at h <;> simp [holds]

theorem notMem_holds_of_thinking {N : ℕ} {i : Fin N} {p : Point} (h : Thinking p) (f : Fin N) :
    Lock.fork f ∉ holds i p := by
  cases p <;> simp [Thinking] at h <;> simp [holds]

/-- Whoever holds by its point what another one holds by its point is that other one. -/
theorem holds_exclusive {N : ℕ} {s : TableState N} (h : MutexProgram.Owned holds s) {m : Lock N}
    {i j : Fin N} (hi : m ∈ holds i (s.point i)) (hj : m ∈ holds j (s.point j)) : i = j :=
  Option.some.inj (((h m i).mpr hi).symm.trans ((h m j).mpr hj))

/-- Every fork is in at most one philosopher's hands, by the mutexes and by the points alike; who
eats holds the two different forks of its seat, no neighbour of it eats, every unlock is of a
mutex that its thread holds, and who thinks holds no fork. -/
theorem forks_exclusive (N : ℕ) (hN : 2 ≤ N) (s : TableState N)
    (h : (philosophers N).machine.Reachable s) :
    (∀ f i, s.owner (.fork f) = some i ↔ Lock.fork f ∈ holds i (s.point i)) ∧
    (∀ f i j, Lock.fork f ∈ holds i (s.point i) → Lock.fork f ∈ holds j (s.point j) → i = j) ∧
    (∀ i, Eating (s.point i) → nextSeat i ≠ i ∧
      ∀ f, s.owner (.fork f) = some i ↔ f = i ∨ f = nextSeat i) ∧
    (∀ i, Eating (s.point i) → ¬ Eating (s.point (nextSeat i))) ∧
    (∀ i m t, (philosophers N).op i (s.point i) = .unlock m → (philosophers N).step s i = some t →
      s.owner m = some i ∧ t.owner m = none) ∧
    ∀ i, Thinking (s.point i) → ∀ f, s.owner (.fork f) ≠ some i := by
  have howned := MutexProgram.owned_reachable (holds_discipline hN) h
  refine ⟨fun f i => howned _ i, fun f i j => holds_exclusive howned, ?_, ?_, ?_, ?_⟩
  · intro i hi
    refine ⟨nextSeat_ne hN i, fun f => ?_⟩
    rw [howned, mem_holds_of_eating hi]
  · intro i hi hnext
    have hself := (mem_holds_of_eating hi (nextSeat i)).mpr (.inr rfl)
    have hother := (mem_holds_of_eating hnext (nextSeat i)).mpr (.inl rfl)
    exact nextSeat_ne hN i (holds_exclusive howned hother hself)
  · intro i m t hop hs
    have hm := ((holds_discipline hN).unlock i _ m hop).1
    refine ⟨(howned m i).mpr hm, ?_⟩
    rw [MutexProgram.step, hop] at hs
    obtain rfl := Option.some.inj hs
    exact Function.update_self ..
  · intro i hi f hf
    exact notMem_holds_of_thinking hi f ((howned _ i).mp hf)

/-- Two philosophers: after nine steps the first one eats with both forks, the second does not. -/
theorem first_of_two_eats :
    ∃ s, (philosophers 2).machine.run ⟨fun _ => none, fun _ => .thinkLock⟩
        (List.replicate 9 0) = some s ∧
      Eating (s.point 0) ∧ ¬ Eating (s.point 1) ∧ ∀ f, s.owner (.fork f) = some 0 :=
  ⟨_, rfl, trivial,
    (forks_exclusive 2 le_rfl _ ⟨_, List.replicate 9 0, rfl, rfl⟩).2.2.2.1 0 trivial,
    fun f => (((forks_exclusive 2 le_rfl _ ⟨_, List.replicate 9 0, rfl, rfl⟩).2.2.1 0
      trivial).2 f).mpr (by revert f; decide)⟩

end OperatingSystems.Philosophers
