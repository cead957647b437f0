import OperatingSystems.MersenneTwister.Stream

namespace OperatingSystems.MersenneTwister

open Library

variable {g : State}

/-- The words of `init_genrand`, in 32 bits. -/
def seedWords (s : BitVec 32) : ℕ → BitVec 32
  | 0 => s
  | i + 1 => 1812433253#32 * shiftRightXor 30 (seedWords s i) + BitVec.ofNat 32 (i + 1)

/-- The words of `mt`, in 32 bits. -/
def words (mt : Vector UInt64 N) (i : ℕ) : BitVec 32 := if h : i < N then narrow mt[i] else 0#32

/-- No word of `mt` exceeds 32 bits. -/
def Narrow (mt : Vector UInt64 N) : Prop := ∀ i (hi : i < N), mt[i] = wide (narrow mt[i])

theorem Narrow.set {mt : Vector UInt64 N} (h : Narrow mt) {i : ℕ} (hi : i < N) (a : BitVec 32) :
    Narrow (mt.set i (wide a)) := by
  intro k hk
  by_cases heq : i = k
  · subst heq
    rw [Vector.getElem_set_self, narrow_wide]
  · rw [Vector.getElem_set_ne _ _ heq]
    exact h k hk

theorem Narrow.copy {mt : Vector UInt64 N} (h : Narrow mt) {i k : ℕ} (hi : i < N) (hk : k < N) :
    Narrow (mt.set i mt[k]) := by
  rw [h k hk]
  exact h.set hi _

theorem seedWord_wide (a : BitVec 32) (i : ℕ) :
    seedWord (wide a) i = wide (1812433253#32 * shiftRightXor 30 a + BitVec.ofNat 32 i) := by
  have hshift := wide_shiftRight a (show 30 < 64 by decide)
  have hof : narrow (UInt64.ofNat i) = BitVec.ofNat 32 i := by
    simp [narrow, UInt64.ofNat]
  have hmul : narrow 1812433253 = 1812433253#32 := by decide
  have hmix : wide a ^^^ (wide a >>> 30) = wide (shiftRightXor 30 a) := by
    rw [shiftRightXor, ← wide_xor, ← hshift]
    rfl
  rw [seedWord, and_mask, narrow_add, narrow_mul, hof, hmul, hmix, narrow_wide]

theorem initGenrand_word (s : UInt64) (g : State) {i : ℕ} (hi : i < N) :
    (initGenrand s g).mt[i] = wide (seedWords (narrow s) i) := by
  have hloop : ∀ j (hj : j < N), j ≤ N - 1 → (initGenrand s g).mt[j] = wide (seedWords (narrow s) j) := by
    apply fold_rule (P := fun k (mt : Vector UInt64 N) =>
      ∀ j (hj : j < N), j ≤ k → mt[j] = wide (seedWords (narrow s) j))
    · intro k hk mt hmt j hj hle
      have hprev : mt[k] = wide (seedWords (narrow s) k) := hmt k (by omega) (Nat.le_refl k)
      rw [hprev, seedWord_wide]
      by_cases heq : k + 1 = j
      · subst heq
        exact Vector.getElem_set_self _
      · rw [Vector.getElem_set_ne _ _ heq]
        exact hmt j hj (by omega)
    · intro j hj hle
      obtain rfl := Nat.le_zero.mp hle
      rw [and_mask]
      exact Vector.getElem_set_self _
  exact hloop i hi (by unfold N at *; omega)

/-- The recurrence from a state's words on. -/
theorem runs_of_words {w : ℕ → BitVec 32} (hword : ∀ i (hi : i < N), g.mt[i] = wide (w i))
    (hone : 1 ≤ g.mti) (hle : g.mti ≤ N) {i : ℕ} (hi : i < N)
    (halive : (w 0).msb = true ∨ (0 < i ∧ w i ≠ 0#32)) : Runs (recurrence.stream w) 0 g where
  follows := Feedback.stream_follows recurrence w
  word := by
    intro k hk
    rw [Nat.zero_add, Feedback.stream_of_lt (r := recurrence) hk]
    exact hword k hk
  one_le := hone
  mti_le := hle
  alive := by
    intro hdead
    have hfirst := hdead.first
    rw [Feedback.stream_of_lt (r := recurrence) (show 0 < N by decide)] at hfirst
    rcases halive with hmsb | ⟨hpos, hne⟩
    · exact absurd (hmsb.symm.trans hfirst) (by decide)
    · have hrest := hdead.rest i hpos hi
      rw [Nat.zero_add, Feedback.stream_of_lt (r := recurrence) hi] at hrest
      exact hne hrest

/-- Two words in a row cannot be zero: the second one would be its own index. -/
theorem seedWords_alive (s : BitVec 32) : ∃ i, i < N ∧ 0 < i ∧ seedWords s i ≠ 0#32 := by
  by_cases hone : seedWords s 1 = 0#32
  · refine ⟨2, by decide, by decide, ?_⟩
    rw [seedWords, hone]
    decide
  · exact ⟨1, by decide, by decide, hone⟩

theorem initGenrand_runs (s : UInt64) (g : State) :
    Runs (recurrence.stream (seedWords (narrow s))) 0 (initGenrand s g) := by
  obtain ⟨i, hi, halive⟩ := seedWords_alive (narrow s)
  have hword : ∀ i (hi : i < N), (initGenrand s g).mt[i] = wide (seedWords (narrow s) i) :=
    fun _ hi => initGenrand_word s g hi
  exact runs_of_words hword (show 1 ≤ N by decide) (Nat.le_refl N) hi (Or.inr halive)

theorem initGenrand_narrow (s : UInt64) (g : State) : Narrow (initGenrand s g).mt := by
  intro i hi
  rw [initGenrand_word s g hi, narrow_wide]

section InitByArray

variable {keyLength : ℕ} {c : Cursor keyLength}

theorem Cursor.store_narrow (h : Narrow c.mt) (a : BitVec 32) {j : ℕ} (hj : j < keyLength) :
    Narrow (c.store (wide a) j hj).mt := by
  have hset := h.set c.i_lt a
  unfold Cursor.store
  split_ifs
  · exact hset.copy (by decide) (by decide)
  · exact hset

theorem Cursor.mixKey_narrow (key : Vector UInt64 keyLength) (h : Narrow c.mt) :
    Narrow (c.mixKey key).mt := by
  rw [Cursor.mixKey, and_mask]
  exact Cursor.store_narrow h _ _

theorem Cursor.mix_narrow (h : Narrow c.mt) : Narrow c.mix.mt := by
  rw [Cursor.mix, and_mask]
  exact Cursor.store_narrow h _ _

theorem Cursor.iterate_mixKey_narrow (key : Vector UInt64 keyLength) (h : Narrow c.mt) (n : ℕ) :
    Narrow ((Cursor.mixKey key)^[n] c).mt :=
  iterate_rule (P := fun _ (c : Cursor keyLength) => Narrow c.mt)
    (fun _ _ h => Cursor.mixKey_narrow key h) h n

theorem Cursor.iterate_mix_narrow (h : Narrow c.mt) (n : ℕ) : Narrow (Cursor.mix^[n] c).mt :=
  iterate_rule (P := fun _ (c : Cursor keyLength) => Narrow c.mt) (fun _ _ h => Cursor.mix_narrow h) h n

theorem initByArray_narrow (key : Vector UInt64 keyLength) (hkey : 0 < keyLength) (g : State) :
    Narrow (initByArray key hkey g).mt := by
  have htop : (0x80000000 : UInt64) = wide 0x80000000#32 := by decide
  have hstart : Narrow (Cursor.start hkey g).mt := initGenrand_narrow 19650218 g
  have hkeyed : Narrow (keyed key hkey g).mt := by
    rw [keyed]
    exact Cursor.iterate_mixKey_narrow key hstart _
  have hmixed := Cursor.iterate_mix_narrow hkeyed (N - 1)
  rw [initByArray, htop]
  exact hmixed.set (by decide) _

theorem words_of_lt {mt : Vector UInt64 N} {i : ℕ} (hi : i < N) : words mt i = narrow mt[i] := dif_pos hi

/-- The first word keeps the generator alive, whatever the key. -/
theorem initByArray_runs (key : Vector UInt64 keyLength) (hkey : 0 < keyLength) (g : State) :
    Runs (recurrence.stream (words (initByArray key hkey g).mt)) 0 (initByArray key hkey g) := by
  have hword : ∀ i (hi : i < N),
      (initByArray key hkey g).mt[i] = wide (words (initByArray key hkey g).mt i) := by
    intro i hi
    rw [words_of_lt hi]
    exact initByArray_narrow key hkey g i hi
  have htop : words (initByArray key hkey g).mt 0 = 0x80000000#32 := by
    rw [words_of_lt (by decide)]
    have hstored : (initByArray key hkey g).mt[0] = 0x80000000 := Vector.getElem_set_self _
    rw [hstored]
    decide
  have halive : (words (initByArray key hkey g).mt 0).msb = true := by
    rw [htop]
    decide
  exact runs_of_words hword (show 1 ≤ N by decide) (Nat.le_refl N) (show 0 < N by decide)
    (Or.inl halive)

end InitByArray

/-- The first call finds `mt` not initialized, and seeds it. -/
theorem genrandInt32_unseeded :
    genrandInt32 State.unseeded = genrandInt32 (initGenrand 5489 State.unseeded) := by
  have hseed : State.unseeded.ready = ⟨refill (initGenrand 5489 State.unseeded).mt, 0⟩ := by
    have hmti : State.unseeded.mti = N + 1 := rfl
    rw [State.ready, if_pos (hmti ▸ Nat.le_succ N), if_pos hmti]
  have hready : (initGenrand 5489 State.unseeded).ready =
      ⟨refill (initGenrand 5489 State.unseeded).mt, 0⟩ := by
    have hne : (initGenrand 5489 State.unseeded).mti ≠ N + 1 := Nat.ne_of_lt (Nat.lt_succ_self N)
    rw [State.ready, if_pos (show (initGenrand 5489 State.unseeded).mti ≥ N from Nat.le_refl N),
      if_neg hne]
  simp only [genrandInt32, hseed, hready]

theorem output_unseeded (k : ℕ) :
    output State.unseeded k = output (initGenrand 5489 State.unseeded) k := by
  cases k with
  | zero => rw [output, output, genrandInt32_unseeded]
  | succ k => rw [output, output, genrandInt32_unseeded]

/-- Whatever calls a program has made, the state is that of the start or holds words of the
recurrence. -/
theorem reachable_runs (h : machine.Reachable g) : g = State.unseeded ∨ ∃ x base, Runs x base g := by
  have hinit : ∀ s, machine.init s → s = State.unseeded ∨ ∃ x base, Runs x base s :=
    fun s hs => Or.inl hs
  apply h.invariant hinit
  intro s c t hs hstep
  obtain rfl : call s c = t := Option.some.inj hstep
  right
  cases c with
  | initGenrand seed => exact ⟨_, 0, initGenrand_runs seed s⟩
  | initByArray keyLength key hkey => exact ⟨_, 0, initByArray_runs key hkey s⟩
  | genrandInt32 =>
    rcases hs with rfl | ⟨x, base, hruns⟩
    · obtain ⟨base, hruns, -⟩ := (initGenrand_runs 5489 State.unseeded).genrandInt32.2
      rw [← genrandInt32_unseeded] at hruns
      exact ⟨_, base, hruns⟩
    · obtain ⟨base', hruns', -⟩ := hruns.genrandInt32.2
      exact ⟨x, base', hruns'⟩

/-- What a reachable state is going to return, as words of one recurrence. -/
theorem reachable_output (h : machine.Reachable g) : ∃ x p, 0 < p ∧ recurrence.Follows x ∧
    (∀ j, ¬ recurrence.Agree BitVec.msb x (p + j) (fun _ => 0#32) (p + j)) ∧
      ∀ k, output g k = wide (tempering (x (p + k))) := by
  have hruns : ∀ {x base s}, Runs x base s → ∃ x p, 0 < p ∧ recurrence.Follows x ∧
      (∀ j, ¬ recurrence.Agree BitVec.msb x (p + j) (fun _ => 0#32) (p + j)) ∧
        ∀ k, output s k = wide (tempering (x (p + k))) := by
    intro x base s hs
    have hone := hs.one_le
    refine ⟨x, base + s.mti, by omega, hs.follows, fun j => ?_, fun k => hs.output k⟩
    rw [Nat.add_assoc]
    exact alive_add hs.follows hs.alive _
  rcases reachable_runs h with rfl | ⟨x, base, hs⟩
  · obtain ⟨x, p, hp, hfollows, halive, houtput⟩ := hruns (initGenrand_runs 5489 State.unseeded)
    exact ⟨x, p, hp, hfollows, halive, fun k => (output_unseeded k).trans (houtput k)⟩
  · exact hruns hs

end OperatingSystems.MersenneTwister
