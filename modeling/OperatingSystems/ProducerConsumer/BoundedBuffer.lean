import OperatingSystems.ProducerConsumer.Refinement

namespace OperatingSystems.ProducerConsumer

open Library

variable {τ : Type*} {s : State τ} {a : Stack Data} {t : τ}

theorem Represents.numItems_bounds (h : Represents s a) :
    0 ≤ s.numItems ∧ s.numItems ≤ maxBufferSize := by
  rw [h.count]
  exact ⟨Int.natCast_nonneg _, Int.ofNat_le.mpr h.fits⟩

theorem Represents.index_bounds (h : Represents s a) {i : ℤ}
    (hi : (s.point t).index s.numItems = some i) : 0 ≤ i ∧ i < maxBufferSize := by
  have hbounds := h.numItems_bounds
  have hknows := h.knows t
  unfold Point.index at hi
  split at hi
  next data hp =>
    obtain rfl := Option.some.inj hi
    rw [hp] at hknows
    exact ⟨hbounds.1, hknows⟩
  next hp =>
    obtain rfl := Option.some.inj hi
    rw [hp] at hknows
    have hpos : 0 < s.numItems := hknows
    omega
  next => cases hi

variable [DecidableEq τ]

/-- The only statement that a thread can be stuck at is a lock that somebody holds. -/
theorem Represents.blocked_iff (h : Represents s a) (draws : Draw × Draw) :
    step s ⟨t, draws⟩ = none ↔ (s.point t).Locks ∧ s.mutex ≠ none := by
  have hslot : ∀ i, (s.point t).index s.numItems = some i → slot i ≠ none := by
    intro i hi hnone
    obtain ⟨k, hk⟩ := slot_isSome.mpr (h.index_bounds hi)
    exact Option.some_ne_none k (hk.symm.trans hnone)
  unfold step
  cases hp : s.point t with
  | producer p =>
    rw [hp] at hslot
    cases p <;> simp [producer, Point.Locks]
    exact hslot _ rfl
  | consumer c =>
    rw [hp] at hslot
    cases c <;> simp [consumer, Point.Locks]
    exact hslot _ rfl

/-- If one thread is blocked then the one inside is not, so they are never all blocked. -/
theorem Represents.exists_able (h : Represents s a) (t : τ) :
    ∃ u, ∀ draws, (step s ⟨u, draws⟩).isSome = true := by
  by_cases hfree : s.mutex = none
  · refine ⟨t, fun draws => Option.isSome_iff_ne_none.mpr fun hnone => ?_⟩
    exact ((h.blocked_iff draws).mp hnone).2 hfree
  · obtain ⟨u, hu⟩ := Option.ne_none_iff_exists'.mp hfree
    refine ⟨u, fun draws => Option.isSome_iff_ne_none.mpr fun hnone => ?_⟩
    exact (h.owned u).mp hu ((h.blocked_iff draws).mp hnone).1

/-- In every run of any producers and consumers the count and every index stay in range, the run
shows a run of a bounded stack whose contents are the buffer's, each consumed item is the latest
one that is still there, locks and unlocks alternate, and somebody can always go on. -/
theorem bounded_buffer (role : τ → Role) (s₀ s : State τ) (es : List (Turn τ))
    (hi : (machine role).init s₀) (hr : (machine role).run s₀ es = some s) :
    (0 ≤ s.numItems ∧ s.numItems ≤ maxBufferSize) ∧
    (∀ t i, (s.point t).index s.numItems = some i → 0 ≤ i ∧ i < maxBufferSize) ∧
    (∃ a, (Stack.machine maxBufferSize).run Stack.empty
        ((machine role).trace stackOps s₀ es) = some a ∧
      s.numItems = a.items.length ∧
      a.items.map Prod.snd = topFirst s.buffer a.items.length ∧
      (a.consumed ++ a.items).Perm a.produced ∧
      (a.produced.map Prod.fst).Nodup ∧
      (a.consumed.map Prod.fst).Nodup ∧
      (∀ t data, s.point t = .consumer (.count data) →
        ∃ k rest, a.items = (k, data) :: rest ∧ (k, data) ∉ a.consumed ∧
          ∀ x ∈ a.produced, x ∉ a.consumed → x.1 ≤ k) ∧
      ∀ e s', step s e = some s' →
        ∃ b, (Stack.machine maxBufferSize).run a (stackOps s e) = some b ∧
          s'.numItems = b.items.length ∧
          b.items.map Prod.snd = topFirst s'.buffer b.items.length) ∧
    (∀ t, (s.point t).Locks → s.mutex ≠ some t) ∧
    (∀ t, (s.point t).Unlocks → s.mutex = some t) ∧
    (∀ t draws, step s ⟨t, draws⟩ = none ↔ (s.point t).Locks ∧ s.mutex ≠ none) ∧
    ∀ _ : τ, ∃ u, ∀ draws, (step s ⟨u, draws⟩).isSome = true := by
  obtain rfl : s₀ = _ := hi
  obtain ⟨a, ha, h⟩ := (buffer_simulates role).run (represents_initial role) hr
  have hsound : a.Sound maxBufferSize := Stack.sound_reachable ⟨_, _, rfl, ha⟩
  have hconsumed : (a.consumed.map Prod.fst).Nodup := by
    have hperm := hsound.conserved.map Prod.fst
    rw [List.map_append] at hperm
    exact (hperm.nodup_iff.mpr hsound.distinct).of_append_left
  refine ⟨h.numItems_bounds, fun t i => h.index_bounds, ⟨a, ha, h.count, h.contents,
    hsound.conserved, hsound.distinct, hconsumed, ?_, ?_⟩, ?_, ?_, fun t => h.blocked_iff,
    h.exists_able⟩
  · intro t data hp
    have hin : s.mutex = some t := (h.owned t).mpr (hp ▸ id)
    obtain ⟨b, hb, -⟩ := h.pop hin hp
    obtain ⟨k, rest, hitems, -⟩ := Stack.pop_eq_some hb
    exact ⟨k, rest, hitems, hsound.top_latest hitems⟩
  · intro e s' hs
    obtain ⟨b, hb, h'⟩ := (buffer_simulates role).step s a e s' h hs
    exact ⟨b, hb, h'.count, h'.contents⟩
  · intro t hlocks hown
    exact (h.owned t).mp hown hlocks
  · intro t hunlocks
    exact (h.owned t).mpr (Point.inside_of_unlocks hunlocks)

/-- One thread of either role. -/
def oneEach (t : Bool) : Role := if t then .producer else .consumer

/-- A round of the producer, and the consumer up to the statement that takes the item. -/
def oneRound : List (Turn Bool) :=
  List.replicate 6 ⟨true, ⟨true, 7⟩, ⟨false, 3⟩⟩ ++ List.replicate 3 ⟨false, ⟨true, 0⟩, ⟨true, 0⟩⟩

/-- After a round of the producer and three turns of the consumer, the consumer is about to take
the produced item off the stack. -/
theorem produced_item_loaded :
    ∃ s, (machine oneEach).run ⟨fun _ => ⟨0, 0⟩, 0, none, fun t => (oneEach t).start⟩ oneRound =
        some s ∧
      s.numItems = 1 ∧ s.point false = .consumer (.count ⟨7, 5⟩) ∧
      ∃ (a : Stack Data) (k : ℕ), a.items = [(k, ⟨7, 5⟩)] ∧
        (k, ⟨7, 5⟩) ∉ a.consumed := by
  refine ⟨_, rfl, rfl, rfl, ?_⟩
  obtain ⟨-, -, ⟨a, -, hcount, -, -, -, -, htop, -⟩, -⟩ := bounded_buffer oneEach _ _ oneRound rfl rfl
  obtain ⟨k, rest, hitems, hfresh, -⟩ := htop false ⟨7, 5⟩ rfl
  have hlen : (1 : ℤ) = (rest.length + 1 : ℕ) := by rwa [hitems, List.length_cons] at hcount
  have hrest : rest = [] := List.length_eq_zero_iff.mp (by omega)
  exact ⟨a, k, hrest ▸ hitems, hfresh⟩

end OperatingSystems.ProducerConsumer
