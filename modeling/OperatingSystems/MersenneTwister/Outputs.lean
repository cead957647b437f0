import OperatingSystems.MersenneTwister.Seeding

namespace OperatingSystems.MersenneTwister

open Library

variable {x y : ℕ → BitVec 32} {base : ℕ} {g g' : State}

theorem Runs.stream_words (h : Runs x base g) {k : ℕ} (hk : 0 < k) :
    recurrence.stream (words g.mt) k = x (base + k) := by
  have hwindow : ∀ i, i < recurrence.length → recurrence.stream (words g.mt) (0 + i) = x (base + i) := by
    intro i hi
    rw [Nat.zero_add, Feedback.stream_of_lt hi, words_of_lt hi, h.word i hi, narrow_wide]
  have hagree : recurrence.Agree BitVec.msb (recurrence.stream (words g.mt)) 0 x base :=
    Feedback.Agree.of_window hwindow
  have heq := hagree.eq recurrence_reversible (Feedback.stream_follows _ _) h.follows hk
  rwa [Nat.zero_add] at heq

/-- The same output at two places is the same word. -/
theorem word_of_output {k l p q : ℕ} (hx : output g k = wide (tempering (x p)))
    (hy : output g' l = wide (tempering (y q))) (h : output g k = output g' l) : x p = y q :=
  tempering_injective (wide_injective (hx.symm.trans (h.trans hy)))

/-- Without a seed of its own a program gets the words of the default one. -/
theorem output_default (k : ℕ) :
    output State.unseeded k = wide (tempering (recurrence.stream (seedWords 5489#32) (N + k))) := by
  have hseed : narrow 5489 = 5489#32 := by decide
  have hruns := initGenrand_runs 5489 State.unseeded
  rw [hseed] at hruns
  rw [output_unseeded, hruns.output, Nat.zero_add]
  rfl

/-- The generator refills its words in batches and in place, and gives out, from whatever state the
calls of a program have left, the words of the recurrence one after the other. -/
theorem genrandInt32_refines (hg : machine.Reachable g) :
    (g = State.unseeded ∧
      ∀ k, output g k = wide (tempering (recurrence.stream (seedWords 5489#32) (N + k)))) ∨
    (g.mti ≤ N ∧ ∀ k, output g k = wide (tempering (recurrence.stream (words g.mt) (g.mti + k)))) := by
  rcases reachable_runs hg with rfl | ⟨x, base, h⟩
  · left
    exact ⟨rfl, output_default⟩
  · right
    have hone := h.one_le
    refine ⟨h.mti_le, fun k => ?_⟩
    rw [h.output, h.stream_words (by omega), Nat.add_assoc]

theorem genrandInt32_refines_drawn :
    (genrandInt32 (initGenrand 42 State.unseeded)).2.mti ≤ N ∧
      ∀ k, output (genrandInt32 (initGenrand 42 State.unseeded)).2 k =
        wide (tempering (recurrence.stream (words (genrandInt32 (initGenrand 42 State.unseeded)).2.mt)
          ((genrandInt32 (initGenrand 42 State.unseeded)).2.mti + k))) := by
  obtain ⟨base, hruns, -⟩ := (initGenrand_runs 42 State.unseeded).genrandInt32.2
  have hmti := hruns.mti_le
  have hrefines := genrandInt32_refines (g := (genrandInt32 (initGenrand 42 State.unseeded)).2)
    ⟨State.unseeded, [.initGenrand 42, .genrandInt32], rfl, rfl⟩
  refine hrefines.resolve_left fun h => ?_
  rw [h.1] at hmti
  exact absurd hmti (Nat.not_succ_le_self N)

theorem output_lt (hg : machine.Reachable g) (k : ℕ) : (output g k).toNat < 2 ^ 32 := by
  obtain ⟨x, p, -, -, -, hout⟩ := reachable_output hg
  rw [hout, wide, UInt64.toNat_ofBitVec, BitVec.toNat_setWidth]
  exact lt_of_le_of_lt (Nat.mod_le _ _) (BitVec.isLt _)

/-- `genrand_int31` is never negative. -/
theorem genrandInt31_toInt (hg : machine.Reachable g) :
    (genrandInt31 g).1.toInt = (output g 0).toNat / 2 := by
  have hlt := output_lt hg 0
  have hhalf : ((genrandInt32 g).1 >>> 1).toNat = (output g 0).toNat / 2 := by
    rw [UInt64.toNat_shiftRight, output, Nat.shiftRight_eq_div_pow]
    rfl
  have hint : (genrandInt31 g).1.toInt = (((genrandInt32 g).1 >>> 1).toNat : ℤ).bmod (2 ^ 64) :=
    ((genrandInt32 g).1 >>> 1).toBitVec.toInt_eq_toNat_bmod
  rw [hint, hhalf, Int.bmod_eq_of_le (by omega) (by omega)]
  exact Int.natCast_div _ _

/-- Who has seen `N` outputs in a row knows all that follow. -/
theorem outputs_determined (hg : machine.Reachable g) (hg' : machine.Reachable g')
    (h : ∀ k, k < N → output g k = output g' k) (k : ℕ) : output g k = output g' k := by
  obtain ⟨x, p, -, hx, -, hout⟩ := reachable_output hg
  obtain ⟨y, q, -, hy, -, hout'⟩ := reachable_output hg'
  have hwindow : ∀ i, i < recurrence.length → x (p + i) = y (q + i) :=
    fun i hi => word_of_output (hout i) (hout' i) (h i hi)
  have hagree : recurrence.Agree BitVec.msb x p y q := Feedback.Agree.of_window hwindow
  rcases Nat.eq_zero_or_pos k with rfl | hpos
  · exact h 0 (by decide)
  · rw [hout, hout', hagree.eq recurrence_reversible hx hy hpos]

theorem outputs_determined_default :
    output State.unseeded 1000 = output (initGenrand 5489 State.unseeded) 1000 :=
  outputs_determined ⟨State.unseeded, [], rfl, rfl⟩ ⟨State.unseeded, [.initGenrand 5489], rfl, rfl⟩
    (fun k _ => output_unseeded k) 1000

/-- No `N` outputs in a row are all zero, whatever the program has seeded the generator with. -/
theorem output_ne_zero (hg : machine.Reachable g) (j : ℕ) : ∃ k, k < N ∧ output g (j + k) ≠ 0 := by
  obtain ⟨x, p, -, -, halive, hout⟩ := reachable_output hg
  have hzero : (0 : UInt64) = wide (tempering 0#32) := by decide
  by_contra hall
  push Not at hall
  apply halive j
  apply Feedback.Agree.of_window
  intro i hi
  have hword := hall i hi
  rw [hout, hzero, ← Nat.add_assoc] at hword
  exact tempering_injective (wide_injective hword)

theorem output_ne_zero_seed_zero :
    ∃ k, k < N ∧ output (genrandInt32 (initGenrand 0 State.unseeded)).2 (1000 + k) ≠ 0 :=
  output_ne_zero ⟨State.unseeded, [.initGenrand 0, .genrandInt32], rfl, rfl⟩ 1000

/-- The outputs come back to where they were: each of them recurs, the first one included. -/
theorem output_periodic (hg : machine.Reachable g) : ∃ p, 0 < p ∧ ∀ k, output g (k + p) = output g k := by
  obtain ⟨x, q, hq, hx, -, hout⟩ := reachable_output hg
  obtain ⟨p, hp, hagree⟩ := Feedback.exists_period recurrence_reversible hx
  refine ⟨p, hp, fun k => ?_⟩
  have hword := hagree.eq recurrence_reversible hx hx (show 0 < q + k by omega)
  rw [hout, hout, show q + (k + p) = p + (q + k) by omega, hword, Nat.zero_add]

theorem output_periodic_keyed :
    ∃ p, 0 < p ∧ ∀ k,
      output (genrandInt32 (initByArray #v[0x123, 0x234] (by decide) State.unseeded)).2 (k + p) =
        output (genrandInt32 (initByArray #v[0x123, 0x234] (by decide) State.unseeded)).2 k :=
  output_periodic ⟨State.unseeded, [.initByArray 2 #v[0x123, 0x234] (by decide), .genrandInt32], rfl, rfl⟩

end OperatingSystems.MersenneTwister
