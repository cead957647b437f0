import OperatingSystems.Library.Simulation
import OperatingSystems.ProducerConsumer.Buffer

namespace OperatingSystems.ProducerConsumer

open Library

variable {τ : Type*}

/-- Between a lock and the unlock that follows it. -/
def Point.Inside (p : Point) : Prop := ¬ p.Locks

/-- What the thread at a point relies on while it is inside. -/
def Point.Knows (buffer : Fin maxBufferSize → Data) (numItems : ℤ) : Point → Prop
  | .producer .generate | .producer (.store _) => numItems < maxBufferSize
  | .producer (.count data) => ∃ i, slot numItems = some i ∧ buffer i = data
  | .consumer .load => 0 < numItems
  | .consumer (.count data) => ∃ i, slot (numItems - 1) = some i ∧ buffer i = data
  | _ => True

/-- The globals represent the stack, the mutex is held by the thread that is inside, and that
thread knows what its point says. -/
structure Represents (s : State τ) (a : Stack Data) : Prop where
  fits : a.items.length ≤ maxBufferSize
  count : s.numItems = a.items.length
  contents : a.items.map Prod.snd = topFirst s.buffer a.items.length
  owned : ∀ t, s.mutex = some t ↔ (s.point t).Inside
  knows : ∀ t, (s.point t).Knows s.buffer s.numItems

theorem Point.knows_of_locks {p : Point} (h : p.Locks) (buffer : Fin maxBufferSize → Data)
    (numItems : ℤ) : p.Knows buffer numItems := by
  cases p with
  | producer p => cases p <;> trivial
  | consumer c => cases c <;> trivial

theorem Point.inside_of_unlocks {p : Point} (h : p.Unlocks) : p.Inside := by
  cases p with
  | producer p => cases p <;> first | exact h.elim | exact id
  | consumer c => cases c <;> first | exact h.elim | exact id

variable [DecidableEq τ] {s : State τ} {a : Stack Data} {t : τ}

omit [DecidableEq τ] in
/-- Nobody else is inside while a thread is, or when the mutex is free. -/
theorem Represents.alone (h : Represents s a) (hfree : s.mutex = none ∨ s.mutex = some t) (u : τ)
    (hu : u ≠ t) : (s.point u).Locks := by
  by_contra hin
  have hown := (h.owned u).mpr hin
  rcases hfree with hnone | hself
  · exact Option.some_ne_none u (hown.symm.trans hnone)
  · exact hu (Option.some.inj (hown.symm.trans hself))

/-- A step of a thread that is alone inside: the others stay outside. -/
theorem Represents.next (h : Represents s a) (hfree : s.mutex = none ∨ s.mutex = some t)
    {buffer : Fin maxBufferSize → Data} {numItems : ℤ} {mutex : Option τ} {p : Point}
    {b : Stack Data} (hfits : b.items.length ≤ maxBufferSize) (hcount : numItems = b.items.length)
    (hcontents : b.items.map Prod.snd = topFirst buffer b.items.length)
    (hother : ∀ u, u ≠ t → mutex ≠ some u) (hself : mutex = some t ↔ p.Inside)
    (hknows : p.Knows buffer numItems) :
    Represents ⟨buffer, numItems, mutex, Function.update s.point t p⟩ b := by
  refine ⟨hfits, hcount, hcontents, fun u => ?_, fun u => ?_⟩
  · by_cases hu : u = t
    · subst hu
      simpa using hself
    · have hout := h.alone hfree u hu
      simp [hu, hother u hu, Point.Inside, hout]
  · by_cases hu : u = t
    · subst hu
      simpa using hknows
    · have hout := h.alone hfree u hu
      simpa [hu] using Point.knows_of_locks hout buffer numItems

/-- A step that only moves a thread from one point inside to another. -/
theorem Represents.move (h : Represents s a) (hin : s.mutex = some t) {p : Point}
    (hp : p.Inside) (hknows : p.Knows s.buffer s.numItems) :
    Represents (s.goto t p) a := by
  apply h.next (.inr hin) h.fits h.count h.contents
  · intro u hu hmutex
    exact hu (Option.some.inj (hmutex.symm.trans hin))
  · exact iff_of_true hin hp
  · exact hknows

theorem Represents.enter (h : Represents s a) (hfree : s.mutex = none) {p : Point}
    (hp : p.Inside) (hknows : p.Knows s.buffer s.numItems) :
    Represents { s.goto t p with mutex := some t } a := by
  apply h.next (.inl hfree) h.fits h.count h.contents
  · intro u hu hmutex
    exact hu (Option.some.inj hmutex).symm
  · exact iff_of_true rfl hp
  · exact hknows

theorem Represents.leave (h : Represents s a) (hin : s.mutex = some t) {p : Point}
    (hp : p.Locks) : Represents { s.goto t p with mutex := none } a := by
  apply h.next (.inr hin) h.fits h.count h.contents
  · intro u _ hmutex
    exact Option.some_ne_none u hmutex.symm
  · exact iff_of_false (Option.some_ne_none t).symm fun hinside => hinside hp
  · exact Point.knows_of_locks hp _ _

/-- `buffer[num_items] = data`: the stack does not change yet. -/
theorem Represents.store (h : Represents s a) (hin : s.mutex = some t) {i : Fin maxBufferSize}
    (hi : slot s.numItems = some i) (data : Data) :
    Represents { s.goto t (.producer (.count data)) with
      buffer := Function.update s.buffer i data } a := by
  have hlen : a.items.length = i.val := by
    have hval := slot_eq_some.mp hi
    have hcount := h.count
    omega
  apply h.next (.inr hin) h.fits h.count
  · rw [h.contents, topFirst_update s.buffer i data hlen.le]
  · intro u hu hmutex
    exact hu (Option.some.inj (hmutex.symm.trans hin))
  · exact iff_of_true hin id
  · exact ⟨i, hi, Function.update_self ..⟩

/-- `num_items = num_items + 1`: the stored item goes on the stack. -/
theorem Represents.push (h : Represents s a) (hin : s.mutex = some t) {data : Data}
    (hp : s.point t = .producer (.count data)) :
    ∃ b, Stack.step maxBufferSize a (.push data) = some b ∧
      Represents { s.goto t (.producer .unlock) with numItems := s.numItems + 1 } b := by
  obtain ⟨i, hi, rfl⟩ : Point.Knows s.buffer s.numItems (.producer (.count data)) :=
    hp ▸ h.knows t
  have hlen : a.items.length = i.val := by
    have hval := slot_eq_some.mp hi
    have hcount := h.count
    omega
  have hroom : a.items.length < maxBufferSize := hlen ▸ i.isLt
  refine ⟨_, if_pos hroom, ?_⟩
  apply h.next (.inr hin)
  · exact hroom
  · simp [h.count]
  · rw [List.length_cons, List.map_cons, h.contents, hlen]
    exact (topFirst_succ s.buffer i).symm
  · intro u hu hmutex
    exact hu (Option.some.inj (hmutex.symm.trans hin))
  · exact iff_of_true hin id
  · trivial

/-- `num_items = num_items - 1`: the item that was loaded leaves the stack. -/
theorem Represents.pop (h : Represents s a) (hin : s.mutex = some t) {data : Data}
    (hp : s.point t = .consumer (.count data)) :
    ∃ b, Stack.step maxBufferSize a (.pop data) = some b ∧
      Represents { s.goto t (.consumer (.sleep data)) with numItems := s.numItems - 1 } b := by
  obtain ⟨i, hi, rfl⟩ : Point.Knows s.buffer s.numItems (.consumer (.count data)) :=
    hp ▸ h.knows t
  have hlen : a.items.length = i.val + 1 := by
    have hval := slot_eq_some.mp hi
    have hcount := h.count
    omega
  obtain ⟨x, rest, hitems⟩ := List.exists_cons_of_length_eq_add_one hlen
  have hrest : rest.length = i.val := by simpa [hitems] using hlen
  have hcontents := h.contents
  rw [hlen, topFirst_succ, hitems, List.map_cons, List.cons_eq_cons] at hcontents
  obtain ⟨hx, htail⟩ := hcontents
  refine ⟨⟨rest, a.produced, x :: a.consumed⟩, by simp [Stack.step, hitems, hx], ?_⟩
  apply h.next (.inr hin)
  · exact hrest.le.trans i.isLt.le
  · have hcount := h.count
    show s.numItems - 1 = (rest.length : ℤ)
    omega
  · rw [htail, hrest]
    rfl
  · intro u hu hmutex
    exact hu (Option.some.inj (hmutex.symm.trans hin))
  · exact iff_of_true hin id
  · trivial

omit [DecidableEq τ] in
theorem represents_initial (role : τ → Role) :
    Represents ⟨fun _ => ⟨0, 0⟩, 0, none, fun t => (role t).start⟩ (Stack.empty : Stack Data) := by
  refine ⟨Nat.zero_le _, rfl, rfl, fun t => ?_, fun t => ?_⟩
  · cases ht : role t <;> simp [ht, Role.start, Point.Inside, Point.Locks]
  · cases ht : role t <;> simp [ht, Role.start, Point.Knows]

theorem producer_simulates {p : ProducerPoint} (hp : s.point t = .producer p)
    (h : Represents s a) {draws : Draw × Draw} {s' : State τ}
    (hs : producer s t draws p = some s') :
    ∃ b, (Stack.machine maxBufferSize).run a (Point.producer p).stackOps = some b ∧
      Represents s' b := by
  have hin : (Point.producer p).Inside → s.mutex = some t := by
    intro hinside
    exact (h.owned t).mpr (hp ▸ hinside)
  have hknows := hp ▸ h.knows t
  cases p with
  | lock =>
    simp only [producer] at hs
    split_ifs at hs with hfree
    obtain rfl := Option.some.inj hs
    exact ⟨a, rfl, h.enter hfree id trivial⟩
  | test =>
    obtain rfl := Option.some.inj hs
    refine ⟨a, rfl, h.move (hin id) ?_ ?_⟩
    · split_ifs <;> exact id
    · split_ifs with hfull
      · trivial
      · exact lt_of_not_ge hfull
  | unlockFull =>
    obtain rfl := Option.some.inj hs
    exact ⟨a, rfl, h.leave (hin id) trivial⟩
  | generate =>
    obtain rfl := Option.some.inj hs
    exact ⟨a, rfl, h.move (hin id) id hknows⟩
  | store data =>
    obtain ⟨i, hi, rfl⟩ := Option.map_eq_some_iff.mp hs
    exact ⟨a, rfl, h.store (hin id) hi data⟩
  | count data =>
    obtain rfl := Option.some.inj hs
    obtain ⟨b, hb, hR⟩ := h.push (hin id) hp
    exact ⟨b, Machine.run_cons hb [], hR⟩
  | unlock =>
    obtain rfl := Option.some.inj hs
    exact ⟨a, rfl, h.leave (hin id) trivial⟩

theorem consumer_simulates {c : ConsumerPoint} (hc : s.point t = .consumer c)
    (h : Represents s a) {s' : State τ} (hs : consumer s t c = some s') :
    ∃ b, (Stack.machine maxBufferSize).run a (Point.consumer c).stackOps = some b ∧
      Represents s' b := by
  have hin : (Point.consumer c).Inside → s.mutex = some t := by
    intro hinside
    exact (h.owned t).mpr (hc ▸ hinside)
  cases c with
  | lock =>
    simp only [consumer] at hs
    split_ifs at hs with hfree
    obtain rfl := Option.some.inj hs
    exact ⟨a, rfl, h.enter hfree id trivial⟩
  | test =>
    obtain rfl := Option.some.inj hs
    refine ⟨a, rfl, h.move (hin id) ?_ ?_⟩
    · split_ifs <;> exact id
    · split_ifs with hempty
      · trivial
      · have hcount := h.count
        show 0 < s.numItems
        omega
  | unlockEmpty =>
    obtain rfl := Option.some.inj hs
    exact ⟨a, rfl, h.leave (hin id) trivial⟩
  | load =>
    obtain ⟨i, hi, rfl⟩ := Option.map_eq_some_iff.mp hs
    exact ⟨a, rfl, h.move (hin id) id ⟨i, hi, rfl⟩⟩
  | count data =>
    obtain rfl := Option.some.inj hs
    obtain ⟨b, hb, hR⟩ := h.pop (hin id) hc
    exact ⟨b, Machine.run_cons hb [], hR⟩
  | sleep data =>
    obtain rfl := Option.some.inj hs
    exact ⟨a, rfl, h.move (hin id) id trivial⟩
  | unlock =>
    obtain rfl := Option.some.inj hs
    exact ⟨a, rfl, h.leave (hin id) trivial⟩

/-- The buffer under its mutex refines a bounded stack: `num_items` moves where the stack does. -/
theorem buffer_simulates (role : τ → Role) :
    Simulation (machine role) (Stack.machine maxBufferSize) stackOps Represents where
  init s hi := by
    obtain rfl : s = _ := hi
    exact ⟨Stack.empty, rfl, represents_initial role⟩
  step s a e s' h hs := by
    simp only [machine, step] at hs
    unfold stackOps
    split at hs
    next p hp => exact hp ▸ producer_simulates hp h hs
    next c hc => exact hc ▸ consumer_simulates hc h hs

end OperatingSystems.ProducerConsumer
