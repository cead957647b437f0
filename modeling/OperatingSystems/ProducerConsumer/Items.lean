import OperatingSystems.MersenneTwister.Outputs
import OperatingSystems.ProducerConsumer.BoundedBuffer
import OperatingSystems.ProducerConsumer.Rdrand

namespace OperatingSystems.ProducerConsumer

open Library

/-- `rdrand` on a machine without the instruction: the call of `genrand_int32` in it. -/
def rdrandTwister (min max : Int32) (g : MersenneTwister.State) : Int32 × MersenneTwister.State :=
  (((MersenneTwister.genrandInt32 g).1 % (max - min + 1).toInt64.toUInt64 +
    min.toInt64.toUInt64).toInt64.toInt32, (MersenneTwister.genrandInt32 g).2)

/-- The generator's word is one of 32 bits, as `Draw` has it. -/
theorem rdrandTwister_eq_rdrand {g : MersenneTwister.State}
    (hg : MersenneTwister.machine.Reachable g) (min max : Int32) :
    (rdrandTwister min max g).1 =
      rdrand min max ⟨false, (MersenneTwister.genrandInt32 g).1.toUInt32⟩ := by
  obtain ⟨x, p, -, -, -, hout⟩ := MersenneTwister.reachable_output hg
  have hword : (MersenneTwister.genrandInt32 g).1 = MersenneTwister.wide _ := hout 0
  have hfits : (MersenneTwister.genrandInt32 g).1.toUInt32.toUInt64 =
      (MersenneTwister.genrandInt32 g).1 := by
    rw [hword, ← UInt64.toBitVec_inj]
    simp [MersenneTwister.wide]
  rw [rdrandTwister, rdrand_twister, hfits]
  rfl

/-- With or without the instruction, a word comes out between bounds whose width is an `int`. -/
theorem rdrand_bounds {min max : Int32} (hle : min ≤ max) (hwidth : width min max < 2 ^ 31)
    (draw : Draw) : min ≤ rdrand min max draw ∧ rdrand min max draw ≤ max := by
  have hpos := one_le_width hle
  have hbounds : width min max = max.toInt - min.toInt + 1 := rfl
  have hpath : rdrand min max draw = rdrand min max ⟨true, draw.word⟩ := by
    obtain ⟨hasRdrand, word⟩ := draw
    cases hasRdrand with
    | true => rfl
    | false => exact (rdrand_agree_of_lt hle hwidth).symm
  have hresult := rdrand_instruction_eq draw.word hle (by omega)
  have hnonneg := Int.emod_nonneg (draw.word.toNat : ℤ) (show width min max ≠ 0 by omega)
  have hless := Int.emod_lt_of_pos (draw.word.toNat : ℤ) (show 0 < width min max by omega)
  rw [hpath, Int32.le_iff_toInt_le, Int32.le_iff_toInt_le, hresult]
  omega

/-- What the producer may put into an item. -/
structure Data.InRange (data : Data) : Prop where
  value_ge : 0 ≤ data.value
  value_le : data.value ≤ 100
  waitTime_ge : 2 ≤ data.waitTime
  waitTime_le : data.waitTime ≤ 9

theorem generated_inRange (draws : Draw × Draw) :
    (⟨rdrand 0 100 draws.1, rdrand 2 9 draws.2⟩ : Data).InRange := by
  have hvalue := rdrand_bounds (show (0 : Int32) ≤ 100 by decide) (by decide) draws.1
  have hwait := rdrand_bounds (show (2 : Int32) ≤ 9 by decide) (by decide) draws.2
  exact ⟨hvalue.1, hvalue.2, hwait.1, hwait.2⟩

/-- The item that a thread carries. -/
def Point.data : Point → Option Data
  | .producer (.store data) | .producer (.count data) => some data
  | .consumer (.count data) | .consumer (.sleep data) => some data
  | _ => none

variable {τ : Type*}

/-- The items in the buffer and those that threads carry are in range. -/
structure ItemsInRange (s : State τ) : Prop where
  buffer : ∀ i : Fin maxBufferSize, (i.val : ℤ) < s.numItems → (s.buffer i).InRange
  carried : ∀ t data, (s.point t).data = some data → data.InRange

variable [DecidableEq τ] {s s' : State τ} {t : τ}

/-- A step that moves one thread. -/
theorem ItemsInRange.next (h : ItemsInRange s) {buffer : Fin maxBufferSize → Data} {numItems : ℤ}
    {mutex : Option τ} {p : Point}
    (hbuffer : ∀ i : Fin maxBufferSize, (i.val : ℤ) < numItems → (buffer i).InRange)
    (hp : ∀ data, p.data = some data → data.InRange) :
    ItemsInRange ⟨buffer, numItems, mutex, Function.update s.point t p⟩ where
  buffer := hbuffer
  carried := by
    intro u data hdata
    change (Function.update s.point t p u).data = some data at hdata
    by_cases hu : u = t
    · subst hu
      rw [Function.update_self] at hdata
      exact hp data hdata
    · rw [Function.update_of_ne hu] at hdata
      exact h.carried u data hdata

/-- A step that leaves the buffer as it is, with a thread that carries nothing new. -/
theorem ItemsInRange.move (h : ItemsInRange s) {mutex : Option τ} {p : Point}
    (hp : p.data = none ∨ p.data = (s.point t).data) :
    ItemsInRange ⟨s.buffer, s.numItems, mutex, Function.update s.point t p⟩ := by
  apply h.next h.buffer
  intro data hdata
  rcases hp with hnone | hsame
  · cases hnone.symm.trans hdata
  · exact h.carried t data (hsame.symm.trans hdata)

theorem ItemsInRange.producer (h : ItemsInRange s) {a : Stack Data} (hrep : Represents s a)
    {p : ProducerPoint} (hp : s.point t = .producer p) {draws : Draw × Draw}
    (hs : producer s t draws p = some s') : ItemsInRange s' := by
  cases p with
  | lock =>
    simp only [ProducerConsumer.producer] at hs
    split_ifs at hs
    obtain rfl := Option.some.inj hs
    exact h.move (Or.inl rfl)
  | test =>
    obtain rfl := Option.some.inj hs
    apply h.move
    split_ifs <;> exact Or.inl rfl
  | unlockFull =>
    obtain rfl := Option.some.inj hs
    exact h.move (Or.inl rfl)
  | generate =>
    obtain rfl := Option.some.inj hs
    apply h.next h.buffer
    intro data hdata
    obtain rfl := Option.some.inj hdata
    exact generated_inRange draws
  | store data =>
    obtain ⟨i, hi, rfl⟩ := Option.map_eq_some_iff.mp hs
    have hdata := h.carried t data (by rw [hp]; rfl)
    apply h.next
    · intro k hk
      by_cases heq : k = i
      · subst heq
        rw [Function.update_self]
        exact hdata
      · rw [Function.update_of_ne heq]
        exact h.buffer k hk
    · intro data' hdata'
      obtain rfl := Option.some.inj hdata'
      exact hdata
  | count data =>
    obtain rfl := Option.some.inj hs
    have hdata := h.carried t data (by rw [hp]; rfl)
    -- the thread that is inside has stored its item in the cell that now counts
    obtain ⟨i, hi, hstored⟩ : Point.Knows s.buffer s.numItems (.producer (.count data)) :=
      hp ▸ hrep.knows t
    have hplace := slot_eq_some.mp hi
    apply h.next
    · intro k hk
      rcases lt_or_ge (k.val : ℤ) s.numItems with hlt | hge
      · exact h.buffer k hlt
      · obtain rfl : k = i := Fin.ext (by omega)
        rw [← hstored] at hdata
        exact hdata
    · intro data' hnone
      cases hnone
  | unlock =>
    obtain rfl := Option.some.inj hs
    exact h.move (Or.inl rfl)

theorem ItemsInRange.consumer (h : ItemsInRange s) {c : ConsumerPoint}
    (hc : s.point t = .consumer c) (hs : consumer s t c = some s') : ItemsInRange s' := by
  cases c with
  | lock =>
    simp only [ProducerConsumer.consumer] at hs
    split_ifs at hs
    obtain rfl := Option.some.inj hs
    exact h.move (Or.inl rfl)
  | test =>
    obtain rfl := Option.some.inj hs
    apply h.move
    split_ifs <;> exact Or.inl rfl
  | unlockEmpty =>
    obtain rfl := Option.some.inj hs
    exact h.move (Or.inl rfl)
  | load =>
    obtain ⟨i, hi, rfl⟩ := Option.map_eq_some_iff.mp hs
    have hplace := slot_eq_some.mp hi
    apply h.next h.buffer
    intro data hdata
    obtain rfl := Option.some.inj hdata
    exact h.buffer i (by omega)
  | count data =>
    obtain rfl := Option.some.inj hs
    have hdata := h.carried t data (by rw [hc]; rfl)
    apply h.next
    · exact fun k hk => h.buffer k (by omega)
    · intro data' hdata'
      obtain rfl := Option.some.inj hdata'
      exact hdata
  | sleep data =>
    obtain rfl := Option.some.inj hs
    exact h.move (Or.inl rfl)
  | unlock =>
    obtain rfl := Option.some.inj hs
    exact h.move (Or.inl rfl)

omit [DecidableEq τ] in
theorem itemsInRange_initial (role : τ → Role) :
    ItemsInRange ⟨fun _ => ⟨0, 0⟩, 0, none, fun t => (role t).start⟩ where
  buffer := fun i hi => absurd hi (Int.not_lt.mpr (Int.natCast_nonneg i.val))
  carried := by
    intro t data hdata
    cases ht : role t <;> simp [ht, Role.start, Point.data] at hdata

/-- However the threads are interleaved and whatever the machine draws, the items in the buffer and on
their way have a value from 0 to 100 and a waiting time from 2 to 9. -/
theorem items_in_range (role : τ → Role) {s : State τ} (hs : (machine role).Reachable s) :
    ItemsInRange s := by
  obtain ⟨s₀, es, rfl, hr⟩ := hs
  have hinv : (∃ a, Represents s a) ∧ ItemsInRange s := by
    refine Machine.run_invariant (M := machine role)
      (I := fun s => (∃ a, Represents s a) ∧ ItemsInRange s) ?_
      ⟨⟨_, represents_initial role⟩, itemsInRange_initial role⟩ hr
    rintro s e s' ⟨⟨a, hrep⟩, hitems⟩ hstep
    obtain ⟨b, -, hrep'⟩ := (buffer_simulates role).step s a e s' hrep hstep
    refine ⟨⟨b, hrep'⟩, ?_⟩
    simp only [machine, step] at hstep
    split at hstep
    next p hp => exact hitems.producer hrep hp hstep
    next c hc => exact hitems.consumer hc hstep
  exact hinv.2

/-- The buffer after a round of the producer, and the consumer about to take the item. -/
theorem items_in_range_round : ∃ s, (machine oneEach).Reachable s ∧ s.numItems = 1 ∧ ItemsInRange s :=
  ⟨_, ⟨_, oneRound, rfl, rfl⟩, rfl, items_in_range oneEach ⟨_, oneRound, rfl, rfl⟩⟩

end OperatingSystems.ProducerConsumer
