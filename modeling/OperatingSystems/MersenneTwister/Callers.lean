import Mathlib.Data.List.Range
import OperatingSystems.Library.Simulation
import OperatingSystems.MersenneTwister.Outputs

namespace OperatingSystems.MersenneTwister

open Library

/-- The points of `genrand_int32` and of `init_genrand` in it, each before the statement it names.
`mt[mti++]` takes three: it loads `mti`, stores the next index, and reads the word. -/
inductive Point where
  | outside
  | testFull
  | testUnseeded
  | seedFirst
  | seedStart
  | seedTest
  | seedStore
  | seedNext
  | refill (kk : ℕ)
  | reset
  | load
  | store (index : ℕ)
  | read (index : ℕ)

/-- The globals, and where each thread stands that calls `genrand_int32` now and then. -/
structure Callers (τ : Type*) where
  globals : State
  point : τ → Point

/-- The index names a word of `mt`. -/
def InTable (i : ℤ) : Prop := 0 ≤ i ∧ i < N

instance (i : ℤ) : Decidable (InTable i) := inferInstanceAs (Decidable (_ ∧ _))

/-- The word of `mt` that an index names, if there is one. -/
def place (i : ℤ) : Option (Fin N) :=
  if h : InTable i then some ⟨i.toNat, (Int.toNat_lt h.1).mpr h.2⟩ else none

/-- The three words that a round of refilling uses: those of the first loop, of the second one, and of
the round after them. -/
def refillIndices (kk : ℕ) : ℤ × ℤ × ℤ :=
  if kk < N - M then (kk, kk + 1, kk + M)
  else if kk < N - 1 then (kk, kk + 1, kk + (M - N))
  else (N - 1, 0, M - 1)

/-- The indices of `mt` that the statement at a point uses. -/
def Point.indices (mti : ℕ) : Point → List ℤ
  | .seedFirst => [0]
  | .seedStore => [mti - 1, mti]
  | .refill kk => [(refillIndices kk).1, (refillIndices kk).2.1, (refillIndices kk).2.2]
  | .read index => [index]
  | _ => []

/-- A round of refilling, if its indices are those of words. -/
def refillRound (g : State) (kk : ℕ) : Option State :=
  (place (refillIndices kk).1).bind fun word => (place (refillIndices kk).2.1).bind fun succ =>
    (place (refillIndices kk).2.2).map fun far => ⟨renew g.mt word succ far, g.mti⟩

/-- The statement at a point: the globals and the point after it, none after an index outside of
`mt`. -/
def advance (g : State) : Point → Option (State × Point)
  | .outside => some (g, .testFull)
  | .testFull => some (g, if g.mti ≥ N then .testUnseeded else .load)
  | .testUnseeded => some (g, if g.mti = N + 1 then .seedFirst else .refill 0)
  | .seedFirst => some (⟨g.mt.set 0 (5489 &&& 0xffffffff) zero_lt_N, g.mti⟩, .seedStart)
  | .seedStart => some (⟨g.mt, 1⟩, .seedTest)
  | .seedTest => some (g, if g.mti < N then .seedStore else .refill 0)
  | .seedStore =>
    (place (g.mti - 1)).bind fun prev => (place g.mti).map fun i =>
      (⟨g.mt.set i.val (seedWord (g.mt.get prev) g.mti) i.isLt, g.mti⟩, .seedNext)
  | .seedNext => some (⟨g.mt, g.mti + 1⟩, .seedTest)
  | .refill kk =>
    (refillRound g kk).map fun g => (g, if kk < N - 1 then .refill (kk + 1) else .reset)
  | .reset => some (⟨g.mt, 0⟩, .load)
  | .load => some (g, .store g.mti)
  | .store index => some (⟨g.mt, index + 1⟩, .read index)
  | .read index => (place index).map fun _ => (g, .outside)

/-- What a statement returns from `genrand_int32`. -/
def returned (g : State) : Point → List UInt64
  | .read index => if h : index < N then [temper g.mt[index]] else []
  | _ => []

section Step

variable {τ : Type*} [DecidableEq τ]

def Callers.move (s : Callers τ) (t : τ) (g : State) (p : Point) : Callers τ :=
  ⟨g, Function.update s.point t p⟩

/-- Threads that call the generator, nothing keeping them apart. -/
def callers (τ : Type*) [DecidableEq τ] : Machine (Callers τ) τ where
  init s := s = ⟨State.unseeded, fun _ => .outside⟩
  step s t := (advance s.globals (s.point t)).map fun r => s.move t r.1 r.2

end Step

variable {τ : Type*}

/-- No statement that comes next uses an index outside of `mt`. -/
def Callers.Inside (s : Callers τ) : Prop :=
  ∀ t, ∀ i ∈ (s.point t).indices s.globals.mti, InTable i

/-- At most one thread is in `genrand_int32`. -/
def Callers.Serial (s : Callers τ) : Prop :=
  ∀ t u, s.point t ≠ .outside → s.point u ≠ .outside → t = u

/-- The words that the default seed stands for. -/
def defaultWords : ℕ → BitVec 32 := recurrence.stream (seedWords 5489#32)

/-- The first `k` words are those of the default seed. -/
def Seeded (k : ℕ) (mt : Vector UInt64 N) : Prop :=
  ∀ i (hi : i < N), i < k → mt[i] = wide (seedWords 5489#32 i)

/-- `mt` holds words of the sequence from `base` on, the one at `index` being the next to give out
after `n` others. -/
def Ahead (n index : ℕ) (mt : Vector UInt64 N) : Prop :=
  ∃ base, Renewed defaultWords base 0 mt ∧ base + index = N + n

/-- What a thread that is alone in `genrand_int32` can rely on, when `n` words have been returned. -/
def Point.Holds (n : ℕ) (g : State) : Point → Prop
  | .outside | .testFull => (g.mti = N + 1 ∧ n = 0) ∨ (g.mti ≤ N ∧ Ahead n g.mti g.mt)
  | .testUnseeded => (g.mti = N + 1 ∧ n = 0) ∨ (g.mti = N ∧ Ahead n g.mti g.mt)
  | .seedFirst => n = 0
  | .seedStart => n = 0 ∧ Seeded 1 g.mt
  | .seedTest => n = 0 ∧ 1 ≤ g.mti ∧ g.mti ≤ N ∧ Seeded g.mti g.mt
  | .seedStore => n = 0 ∧ 1 ≤ g.mti ∧ g.mti < N ∧ Seeded g.mti g.mt
  | .seedNext => n = 0 ∧ 1 ≤ g.mti ∧ g.mti < N ∧ Seeded (g.mti + 1) g.mt
  | .refill kk => kk < N ∧ Renewed defaultWords n kk g.mt
  | .reset => Renewed defaultWords n N g.mt
  | .load => g.mti < N ∧ Ahead n g.mti g.mt
  | .store index => index < N ∧ Ahead n index g.mt
  | .read index => g.mti = index + 1 ∧ index < N ∧ Ahead n index g.mt

theorem place_eq_some {i : ℤ} {a : Fin N} : place i = some a ↔ (a.val : ℤ) = i := by
  rw [place]
  split_ifs with h
  · rw [Option.some.injEq, Fin.ext_iff, ← Int.ofNat_inj, Int.toNat_of_nonneg h.1, eq_comm]
  · refine iff_of_false (by simp) ?_
    rintro rfl
    exact h ⟨Int.natCast_nonneg _, Int.ofNat_lt.mpr a.isLt⟩

theorem place_isSome {i : ℤ} : (place i).isSome = true ↔ InTable i := by
  rw [place]
  split_ifs with h <;> simp [h]

theorem inTable_natCast {i : ℕ} : InTable i ↔ i < N := by
  rw [InTable]
  omega

theorem inTable_pred {i : ℕ} (hone : 1 ≤ i) (hle : i ≤ N) : InTable (i - 1) := by
  rw [InTable]
  omega

/-- The tests of the loops keep `kk + 1`, `kk + M` and `kk + (M - N)` inside. -/
theorem refillIndices_inTable (kk : ℕ) : InTable (refillIndices kk).1 ∧
    InTable (refillIndices kk).2.1 ∧ InTable (refillIndices kk).2.2 := by
  simp only [refillIndices, InTable]
  split_ifs <;> simp only [N, M] at * <;> omega

theorem refillRound_isSome_iff {g : State} {kk : ℕ} : (refillRound g kk).isSome = true ↔
    InTable (refillIndices kk).1 ∧ InTable (refillIndices kk).2.1 ∧ InTable (refillIndices kk).2.2 := by
  rw [refillRound, ← place_isSome, ← place_isSome, ← place_isSome]
  cases place (refillIndices kk).1 <;> cases place (refillIndices kk).2.1 <;> simp

/-- A statement is carried out exactly when its indices are inside. -/
theorem advance_isSome_iff (g : State) (p : Point) :
    (advance g p).isSome = true ↔ ∀ i ∈ p.indices g.mti, InTable i := by
  cases p with
  | seedFirst => exact iff_of_true rfl (by simp [Point.indices, InTable])
  | seedStore =>
    simp only [advance, Point.indices, List.forall_mem_cons, ← place_isSome]
    cases place (g.mti - 1) <;> simp
  | refill kk => simp [advance, Point.indices, refillRound_isSome_iff]
  | read index => simp [advance, Point.indices, place_isSome]
  | _ => simp [advance, Point.indices]

theorem Point.Holds.inside {n : ℕ} {g : State} {p : Point} (h : p.Holds n g) :
    ∀ i ∈ p.indices g.mti, InTable i := by
  cases p with
  | seedFirst => simp [indices, InTable]
  | seedStore =>
    obtain ⟨-, hone, hlt, -⟩ := h
    simp [indices, inTable_pred hone hlt.le, inTable_natCast.mpr hlt]
  | refill kk => simp [indices, refillIndices_inTable kk]
  | read index => simp [indices, inTable_natCast.mpr h.2.1]
  | _ => simp [indices]

theorem defaultWords_follows : recurrence.Follows defaultWords := Feedback.stream_follows _ _

/-- The words that refilling leaves are the next ones to give out. -/
theorem ahead_of_renewed {n : ℕ} {mt : Vector UInt64 N} (h : Renewed defaultWords n N mt) :
    Ahead n 0 mt := by
  refine ⟨n + N, ?_, Nat.add_comm n N⟩
  intro i hi
  rw [h.new hi hi, if_neg (Nat.not_lt_zero i), Nat.add_assoc]

theorem renewed_of_seeded {mt : Vector UInt64 N} (h : Seeded N mt) : Renewed defaultWords 0 0 mt := by
  intro i hi
  rw [h i hi hi, if_neg (Nat.not_lt_zero i), Nat.zero_add, defaultWords,
    Feedback.stream_of_lt (r := recurrence) hi]

theorem get_old {n kk m : ℕ} {mt : Vector UInt64 N} (h : Renewed defaultWords n kk mt) {a : Fin N}
    (ha : a.val = m) (hle : kk ≤ m) : mt.get a = wide (defaultWords (n + m)) := by
  subst ha
  exact h.old a.isLt hle

theorem get_new {n kk m : ℕ} {mt : Vector UInt64 N} (h : Renewed defaultWords n kk mt) {a : Fin N}
    (ha : N + a.val = m) (hlt : a.val < kk) : mt.get a = wide (defaultWords (n + m)) := by
  subst ha
  exact h.new a.isLt hlt

/-- A round of refilling makes one more word; the two others that it uses are those after `kk` if the
loop has come to `kk`, or new ones at the start of `mt`. -/
theorem renewed_round {n kk : ℕ} {g g' : State} (hkk : kk < N) (h : Renewed defaultWords n kk g.mt)
    (hs : refillRound g kk = some g') : Renewed defaultWords n (kk + 1) g'.mt := by
  simp only [refillRound, Option.bind_eq_some_iff, Option.map_eq_some_iff, place_eq_some] at hs
  obtain ⟨word, hword, succ, hsucc, far, hfar, rfl⟩ := hs
  have hM : M < N := by decide
  rw [refillIndices] at hword hsucc hfar
  split_ifs at hword hsucc hfar with hlow hhigh <;> dsimp only at hword hsucc hfar
  · obtain rfl : word.val = kk := by omega
    apply Renewed.renew word defaultWords_follows h
    · rw [Nat.add_assoc]
      exact get_old h (by omega) (by omega)
    · rw [Nat.add_assoc]
      exact get_old h (by omega) (by omega)
  · obtain rfl : word.val = kk := by omega
    apply Renewed.renew word defaultWords_follows h
    · rw [Nat.add_assoc]
      exact get_old h (by omega) (by omega)
    · rw [Nat.add_assoc]
      exact get_new h (by omega) (by omega)
  · obtain rfl : word.val = kk := by omega
    apply Renewed.renew word defaultWords_follows h
    · rw [Nat.add_assoc]
      exact get_new h (by omega) (by omega)
    · rw [Nat.add_assoc]
      exact get_new h (by omega) (by omega)

theorem silent {n : ℕ} {g g' : State} {p p' : Point} (hnone : returned g p = []) (h : p'.Holds n g') :
    ∃ k, returned g p = (List.range' n k).map (output State.unseeded) ∧ p'.Holds (n + k) g' :=
  ⟨0, hnone, h⟩

/-- A statement of a thread that is alone keeps what it relies on, and what it returns is the next
output of the generator. -/
theorem Point.Holds.advance {n : ℕ} {g g' : State} {p p' : Point} (h : p.Holds n g)
    (hs : advance g p = some (g', p')) :
    ∃ k, returned g p = (List.range' n k).map (output State.unseeded) ∧ p'.Holds (n + k) g' := by
  cases p with
  | outside =>
    obtain ⟨rfl, rfl⟩ := Prod.mk.inj (Option.some.inj hs)
    exact silent rfl h
  | testFull =>
    obtain ⟨rfl, rfl⟩ := Prod.mk.inj (Option.some.inj hs)
    apply silent rfl
    by_cases hfull : g.mti ≥ N
    · rw [if_pos hfull]
      rcases h with hunseeded | ⟨hle, hahead⟩
      · exact Or.inl hunseeded
      · exact Or.inr ⟨Nat.le_antisymm hle hfull, hahead⟩
    · rw [if_neg hfull]
      rcases h with ⟨hmti, -⟩ | ⟨-, hahead⟩
      · exact absurd (hmti ▸ Nat.le_succ N) hfull
      · exact ⟨Nat.lt_of_not_le hfull, hahead⟩
  | testUnseeded =>
    obtain ⟨rfl, rfl⟩ := Prod.mk.inj (Option.some.inj hs)
    apply silent rfl
    rcases h with ⟨hmti, hn⟩ | ⟨hmti, base, hwords, hplace⟩
    · rw [if_pos hmti]
      exact hn
    · rw [if_neg (by omega)]
      obtain rfl : base = n := by omega
      exact ⟨zero_lt_N, hwords⟩
  | seedFirst =>
    obtain ⟨rfl, rfl⟩ := Prod.mk.inj (Option.some.inj hs)
    apply silent rfl
    refine ⟨h, fun i hi hlt => ?_⟩
    obtain rfl := Nat.lt_one_iff.mp hlt
    have hseed : narrow 5489 = 5489#32 := by decide
    rw [and_mask, hseed]
    exact Vector.getElem_set_self hi
  | seedStart =>
    obtain ⟨rfl, rfl⟩ := Prod.mk.inj (Option.some.inj hs)
    exact silent rfl ⟨h.1, Nat.le_refl 1, show 1 ≤ N by decide, h.2⟩
  | seedTest =>
    obtain ⟨rfl, rfl⟩ := Prod.mk.inj (Option.some.inj hs)
    obtain ⟨hn, hone, hle, hseeded⟩ := h
    apply silent rfl
    by_cases hlt : g.mti < N
    · rw [if_pos hlt]
      exact ⟨hn, hone, hlt, hseeded⟩
    · rw [if_neg hlt]
      obtain rfl := hn
      have hfull : g.mti = N := by omega
      exact ⟨zero_lt_N, renewed_of_seeded (hfull ▸ hseeded)⟩
  | seedStore =>
    obtain ⟨hn, hone, hlt, hseeded⟩ := h
    simp only [MersenneTwister.advance, Option.bind_eq_some_iff, Option.map_eq_some_iff, place_eq_some,
      Int.ofNat_inj] at hs
    obtain ⟨prev, hprev, i, hi, heq⟩ := hs
    obtain ⟨rfl, rfl⟩ := Prod.mk.inj heq
    apply silent rfl
    have hword : seedWord (g.mt.get prev) g.mti = wide (seedWords 5489#32 i) := by
      have hseed : g.mt.get prev = wide (seedWords 5489#32 prev) :=
        hseeded prev prev.isLt (by omega)
      have hnext : g.mti = prev + 1 := by omega
      rw [hseed, seedWord_wide, hi, hnext, seedWords]
    refine ⟨hn, hone, hlt, fun j hj (hle : j < g.mti + 1) => ?_⟩
    by_cases heq : i.val = j
    · subst heq
      exact (Vector.getElem_set_self i.isLt).trans hword
    · exact (Vector.getElem_set_ne i.isLt hj heq).trans (hseeded j hj (by omega))
  | seedNext =>
    obtain ⟨rfl, rfl⟩ := Prod.mk.inj (Option.some.inj hs)
    obtain ⟨hn, hone, hlt, hseeded⟩ := h
    exact silent rfl ⟨hn, Nat.le_add_left 1 _, hlt, hseeded⟩
  | refill kk =>
    obtain ⟨hkk, hwords⟩ := h
    rw [MersenneTwister.advance, Option.map_eq_some_iff] at hs
    obtain ⟨g', hround, heq⟩ := hs
    obtain ⟨rfl, rfl⟩ := Prod.mk.inj heq
    have hnext := renewed_round hkk hwords hround
    apply silent rfl
    split_ifs with hmore
    · exact ⟨by omega, hnext⟩
    · have hfull : kk + 1 = N := by omega
      rw [hfull] at hnext
      exact hnext
  | reset =>
    obtain ⟨rfl, rfl⟩ := Prod.mk.inj (Option.some.inj hs)
    exact silent rfl ⟨show 0 < N by decide, ahead_of_renewed h⟩
  | load =>
    obtain ⟨rfl, rfl⟩ := Prod.mk.inj (Option.some.inj hs)
    exact silent rfl h
  | store index =>
    obtain ⟨rfl, rfl⟩ := Prod.mk.inj (Option.some.inj hs)
    exact silent rfl ⟨rfl, h.1, h.2⟩
  | read index =>
    obtain ⟨hmti, hlt, base, hwords, hplace⟩ := h
    rw [MersenneTwister.advance, Option.map_eq_some_iff] at hs
    obtain ⟨i, -, heq⟩ := hs
    obtain ⟨rfl, rfl⟩ := Prod.mk.inj heq
    have hword : temper g.mt[index] = output State.unseeded n := by
      rw [hwords.old hlt (Nat.zero_le index), hplace, temper_wide, output_default, defaultWords]
    refine ⟨1, ?_, ?_⟩
    · rw [returned, dif_pos hlt, hword]
      rfl
    · exact Or.inr ⟨by omega, base, hwords, by omega⟩

end OperatingSystems.MersenneTwister
