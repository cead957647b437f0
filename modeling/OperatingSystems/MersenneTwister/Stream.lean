import OperatingSystems.Library.ForLoop
import OperatingSystems.MersenneTwister.Words

namespace OperatingSystems.MersenneTwister

open Library

variable {x : ℕ → BitVec 32} {base : ℕ} {g : State}

/-- What the refilling loop leaves before round `kk`: new words below `kk`, old ones from there on. -/
def Renewed (x : ℕ → BitVec 32) (base kk : ℕ) (mt : Vector UInt64 N) : Prop :=
  ∀ i (hi : i < N), mt[i] = wide (x (base + if i < kk then N + i else i))

theorem Renewed.old {kk i : ℕ} {mt : Vector UInt64 N} (h : Renewed x base kk mt) (hi : i < N)
    (hle : kk ≤ i) : mt[i] = wide (x (base + i)) := by
  rw [h i hi, if_neg (Nat.not_lt.mpr hle)]

theorem Renewed.new {kk i : ℕ} {mt : Vector UInt64 N} (h : Renewed x base kk mt) (hi : i < N)
    (hlt : i < kk) : mt[i] = wide (x (base + (N + i))) := by
  rw [h i hi, if_pos hlt]

/-- A round makes one more word of the recurrence, wherever it finds the two other words. -/
theorem Renewed.renew {mt : Vector UInt64 N} (kk : Fin N) {succ far : Fin N}
    (hx : recurrence.Follows x) (h : Renewed x base kk mt)
    (hsucc : mt.get succ = wide (x (base + kk + 1))) (hfar : mt.get far = wide (x (base + kk + M))) :
    Renewed x base (kk + 1) (renew mt kk succ far) := by
  have hword : mt.get kk = wide (x (base + kk)) := h.old kk.isLt (Nat.le_refl kk)
  have hnext : twist (mt.get kk) (mt.get succ) (mt.get far) = wide (x (base + (N + kk))) := by
    have hlength := hx (base + kk)
    rw [hword, hsucc, hfar, twist_wide]
    rw [Nat.add_assoc, Nat.add_comm kk.val] at hlength
    exact congrArg wide hlength.symm
  intro i hi
  rw [MersenneTwister.renew, hnext]
  by_cases hkk : i = kk
  · subst hkk
    rw [if_pos (Nat.lt_succ_self _)]
    exact Vector.getElem_set_self kk.isLt
  · have hkeep : (if i < kk.val + 1 then N + i else i) = if i < kk.val then N + i else i := by
      split_ifs <;> omega
    rw [hkeep, ← h i hi]
    exact Vector.getElem_set_ne kk.isLt hi (Ne.symm hkk)

/-- In the first loop the word `M` places further on is still an old one. -/
theorem Renewed.renewLow {mt : Vector UInt64 N} (hx : recurrence.Follows x) (h : Renewed x base 0 mt) :
    Renewed x base (N - M) (renewLow mt) := by
  apply fold_rule (P := Renewed x base)
  · intro kk hkk mt hmt
    have hlt := lt_of_lt_sub hkk
    apply Renewed.renew ⟨kk, hlt.1⟩ hx hmt
    · exact hmt.old hlt.2.1 (Nat.le_succ kk)
    · rw [Nat.add_assoc]
      exact hmt.old hlt.2.2 (Nat.le_add_right kk M)
  · exact h

/-- In the second loop it is a new one, at `kk + (M - N)`. -/
theorem Renewed.renewHigh {mt : Vector UInt64 N} (hx : recurrence.Follows x)
    (h : Renewed x base (N - M) mt) : Renewed x base (N - 1) (renewHigh mt) := by
  apply fold_rule (P := fun k => Renewed x base (N - M + k))
  · intro k hk mt hmt
    have hlt := sub_add_lt hk
    have hplace : base + (N + k) = base + (N - M + k) + M := by
      unfold N M
      omega
    apply Renewed.renew ⟨N - M + k, hlt.1⟩ hx hmt
    · exact hmt.old hlt.2.1 (Nat.le_succ _)
    · rw [← hplace]
      exact hmt.new hlt.2.2 (by unfold N M; omega)
  · exact h

/-- Refilling in place makes the next `N` words of the recurrence, although the loops read words that
they have replaced. -/
theorem refill_renewed {mt : Vector UInt64 N} (hx : recurrence.Follows x) (h : Renewed x base 0 mt) :
    Renewed x base N (refill mt) := by
  have hloops := (h.renewLow hx).renewHigh hx
  apply Renewed.renew ⟨N - 1, by decide⟩ hx hloops
  · exact hloops.new (by decide) (by decide)
  · exact hloops.new (by decide) (by decide)

/-- The state holds words of `x` from `base` on, has given out at least one of them or is about to
refill, and can still produce something other than zeros. -/
structure Runs (x : ℕ → BitVec 32) (base : ℕ) (g : State) : Prop where
  follows : recurrence.Follows x
  word : ∀ i (hi : i < N), g.mt[i] = wide (x (base + i))
  one_le : 1 ≤ g.mti
  mti_le : g.mti ≤ N
  alive : ¬ recurrence.Agree BitVec.msb x base (fun _ => 0#32) base

theorem zero_follows : recurrence.Follows fun _ => 0#32 := by
  intro k
  show 0#32 = recurrence.next 0#32 0#32 0#32
  decide

/-- A register that is not dead does not die. -/
theorem alive_add (hx : recurrence.Follows x)
    (h : ¬ recurrence.Agree BitVec.msb x base (fun _ => 0#32) base) (j : ℕ) :
    ¬ recurrence.Agree BitVec.msb x (base + j) (fun _ => 0#32) (base + j) :=
  fun hdead => h (hdead.sub recurrence_reversible hx zero_follows j)

/-- A call returns the next word, tempered. -/
theorem Runs.genrandInt32 (h : Runs x base g) :
    (genrandInt32 g).1 = wide (tempering (x (base + g.mti))) ∧
      ∃ base', Runs x base' (genrandInt32 g).2 ∧
        base' + (MersenneTwister.genrandInt32 g).2.mti = base + g.mti + 1 := by
  rcases Nat.lt_or_eq_of_le h.mti_le with hlt | hfull
  · have hready : g.ready = g := if_neg (Nat.not_le.mpr hlt)
    have hcall : MersenneTwister.genrandInt32 g = (temper g.mt[g.mti], ⟨g.mt, g.mti + 1⟩) := by
      simp only [MersenneTwister.genrandInt32, hready]
    rw [hcall, h.word g.mti hlt, temper_wide]
    refine ⟨rfl, base, ?_, rfl⟩
    exact
      { follows := h.follows
        word := h.word
        one_le := Nat.le_add_left 1 _
        mti_le := hlt
        alive := h.alive }
  · have hready : g.ready = ⟨refill g.mt, 0⟩ := by
      have hseeded : g.mti ≠ N + 1 := by omega
      rw [State.ready, if_pos (Nat.le_of_eq hfull.symm), if_neg hseeded]
    have hcall : MersenneTwister.genrandInt32 g = (temper (refill g.mt)[0], ⟨refill g.mt, 1⟩) := by
      simp only [MersenneTwister.genrandInt32, hready]
    have hold : Renewed x base 0 g.mt := h.word
    have hnew := refill_renewed h.follows hold
    have hword : ∀ i (hi : i < N), (refill g.mt)[i] = wide (x (base + N + i)) := by
      intro i hi
      rw [Nat.add_assoc]
      exact hnew.new hi hi
    rw [hcall, hword 0 (by decide), temper_wide, hfull]
    refine ⟨rfl, base + N, ?_, rfl⟩
    exact
      { follows := h.follows
        word := hword
        one_le := Nat.le_refl 1
        mti_le := show 1 ≤ N by decide
        alive := alive_add h.follows h.alive N }

theorem Runs.output (h : Runs x base g) (k : ℕ) :
    output g k = wide (tempering (x (base + g.mti + k))) := by
  induction k generalizing base g with
  | zero => exact h.genrandInt32.1
  | succ k ih =>
    obtain ⟨base', hruns, hplace⟩ := h.genrandInt32.2
    rw [MersenneTwister.output, ih hruns, hplace, Nat.add_right_comm, Nat.add_assoc _ k]

end OperatingSystems.MersenneTwister
