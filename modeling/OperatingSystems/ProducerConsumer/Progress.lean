import OperatingSystems.Library.Scheduler
import OperatingSystems.ProducerConsumer.BoundedBuffer

namespace OperatingSystems.ProducerConsumer

open Library

def Point.role : Point → Role
  | producer _ => .producer
  | consumer _ => .consumer

/-- How many statements there are at most before the mutex is free again. -/
def Point.toUnlock : Point → ℕ
  | producer .lock | consumer .lock => 0
  | producer .unlockFull | producer .unlock | consumer .unlockEmpty | consumer .unlock => 1
  | producer (.count _) | consumer (.sleep _) => 2
  | producer (.store _) | consumer (.count _) => 3
  | producer .generate | consumer .load => 4
  | producer .test | consumer .test => 5

/-- How many statements there are before the change of `num_items`, when the test goes well. -/
def Point.toCount : Point → ℕ
  | producer (.count _) | consumer (.count _) => 0
  | producer (.store _) | consumer .load => 1
  | producer .generate | consumer .test => 2
  | producer .test | consumer .lock => 3
  | producer .lock | consumer .unlockEmpty | consumer .unlock => 4
  | producer .unlockFull | producer .unlock | consumer (.sleep _) => 5

/-- The test of a role goes well. -/
def Role.Finds (numItems : ℤ) : Role → Prop
  | producer => numItems < maxBufferSize
  | consumer => numItems ≠ 0

variable {τ : Type*} [DecidableEq τ] {s s' : State τ} {e : Turn τ} {t u : τ} {role : τ → Role}

/-- The statement of a thread that goes from `q` to `p` takes the mutex, or frees it, or comes nearer
to that. -/
inductive Turns (s s' : State τ) (t : τ) (q p : Point) : Prop where
  | locks (free : s.mutex = none) (takes : s'.mutex = some t)
  | unlocks (frees : s'.mutex = none)
  | goes (same : s'.mutex = s.mutex) (nearer : p.toUnlock < q.toUnlock)

/-- What the statement does to `num_items`: a change of it is an operation on the stack. -/
inductive Counts (s s' : State τ) (q p : Point) : Prop where
  | push (data : Data) (ops : q.stackOps = [.push data]) (more : s'.numItems = s.numItems + 1)
  | pop (data : Data) (ops : q.stackOps = [.pop data]) (fewer : s'.numItems = s.numItems - 1)
  | stays (ops : q.stackOps = []) (same : s'.numItems = s.numItems)
      (nearer : q.role.Finds s.numItems → p.toCount < q.toCount)

theorem producer_turns {draws : Draw × Draw} {p : ProducerPoint}
    (hs : producer s t draws p = some s') : ∃ p', s'.point = Function.update s.point t (.producer p') ∧
      Turns s s' t (.producer p) (.producer p') ∧ Counts s s' (.producer p) (.producer p') := by
  cases p with
  | lock =>
    simp only [producer] at hs
    split_ifs at hs with hfree
    obtain rfl := Option.some.inj hs
    exact ⟨_, rfl, .locks hfree rfl, .stays rfl rfl fun _ => by decide⟩
  | test =>
    obtain rfl := Option.some.inj hs
    refine ⟨_, rfl, .goes rfl ?_, .stays rfl rfl fun hfinds => ?_⟩
    · split_ifs <;> decide
    · rw [if_neg (Int.not_le.mpr hfinds)]
      decide
  | unlockFull | unlock =>
    obtain rfl := Option.some.inj hs
    exact ⟨_, rfl, .unlocks rfl, .stays rfl rfl fun _ => by decide⟩
  | generate =>
    obtain rfl := Option.some.inj hs
    exact ⟨_, rfl, .goes rfl (Nat.lt_succ_self 3), .stays rfl rfl fun _ => Nat.lt_succ_self 1⟩
  | store data =>
    obtain ⟨i, -, rfl⟩ := Option.map_eq_some_iff.mp hs
    exact ⟨_, rfl, .goes rfl (Nat.lt_succ_self 2), .stays rfl rfl fun _ => Nat.lt_succ_self 0⟩
  | count data =>
    obtain rfl := Option.some.inj hs
    exact ⟨_, rfl, .goes rfl (Nat.lt_succ_self 1), .push data rfl rfl⟩

theorem consumer_turns {c : ConsumerPoint} (hs : consumer s t c = some s') :
    ∃ c', s'.point = Function.update s.point t (.consumer c') ∧
      Turns s s' t (.consumer c) (.consumer c') ∧ Counts s s' (.consumer c) (.consumer c') := by
  cases c with
  | lock =>
    simp only [consumer] at hs
    split_ifs at hs with hfree
    obtain rfl := Option.some.inj hs
    exact ⟨_, rfl, .locks hfree rfl, .stays rfl rfl fun _ => by decide⟩
  | test =>
    obtain rfl := Option.some.inj hs
    refine ⟨_, rfl, .goes rfl ?_, .stays rfl rfl fun hfinds => ?_⟩
    · split_ifs <;> decide
    · rw [if_neg hfinds]
      decide
  | unlockEmpty | unlock =>
    obtain rfl := Option.some.inj hs
    exact ⟨_, rfl, .unlocks rfl, .stays rfl rfl fun _ => by decide⟩
  | load =>
    obtain ⟨i, -, rfl⟩ := Option.map_eq_some_iff.mp hs
    exact ⟨_, rfl, .goes rfl (Nat.lt_succ_self 3), .stays rfl rfl fun _ => Nat.lt_succ_self 0⟩
  | count data =>
    obtain rfl := Option.some.inj hs
    exact ⟨_, rfl, .goes rfl (Nat.lt_succ_self 2), .pop data rfl rfl⟩
  | sleep data =>
    obtain rfl := Option.some.inj hs
    exact ⟨_, rfl, .goes rfl (Nat.lt_succ_self 1), .stays rfl rfl fun _ => Nat.lt_succ_self 4⟩

theorem step_turns (hs : step s e = some s') : ∃ p,
    s'.point = Function.update s.point e.thread p ∧ p.role = (s.point e.thread).role ∧
      Turns s s' e.thread (s.point e.thread) p ∧ Counts s s' (s.point e.thread) p := by
  unfold step at hs
  split at hs
  next p hp =>
    obtain ⟨p', hpoint, hturns, hcounts⟩ := producer_turns hs
    rw [hp]
    exact ⟨_, hpoint, rfl, hturns, hcounts⟩
  next c hc =>
    obtain ⟨c', hpoint, hturns, hcounts⟩ := consumer_turns hs
    rw [hc]
    exact ⟨_, hpoint, rfl, hturns, hcounts⟩

theorem role_reachable (hs : (machine role).Reachable s) (t : τ) : (s.point t).role = role t := by
  refine hs.invariant (I := fun s => ∀ t, (s.point t).role = role t) ?_ ?_ t
  · rintro s rfl t
    cases ht : role t <;> simp [ht, Role.start, Point.role]
  · intro s e s' hroles hstep t
    obtain ⟨p, hpoint, hp, -, -⟩ := step_turns hstep
    rw [hpoint]
    by_cases ht : t = e.thread
    · rw [ht, Function.update_self, hp, hroles]
    · rw [Function.update_of_ne ht, hroles]

theorem represents_reachable (hs : (machine role).Reachable s) : ∃ a, Represents s a := by
  obtain ⟨s₀, es, rfl, hr⟩ := hs
  obtain ⟨a, -, h⟩ := (buffer_simulates role).run (represents_initial role) hr
  exact ⟨a, h⟩

/-- `mutex` is a lock with a few statements at most between taking it and freeing it. -/
theorem oneLock (role : τ → Role) : Execution.OneLock (machine role) Turn.thread
    (fun s t => s.mutex = some t) (fun s t => (s.point t).toUnlock) where
  blocked s t hs hnone := by
    obtain ⟨a, h⟩ := represents_reachable hs
    have draws : Draw × Draw := ⟨⟨true, 0⟩, ⟨true, 0⟩⟩
    obtain ⟨hlocks, htaken⟩ := (h.blocked_iff draws).mp (hnone ⟨t, draws⟩ rfl)
    obtain ⟨u, hu⟩ := Option.ne_none_iff_exists'.mp htaken
    exact ⟨u, hu, fun hown => (h.owned t).mp hown hlocks⟩
  kept s e s' u _ hstep hown := by
    obtain ⟨p, -, -, hturns, -⟩ := step_turns hstep
    cases hturns with
    | locks hfree => exact absurd (hown.symm.trans hfree) (Option.some_ne_none u)
    | unlocks hfrees => exact .inr fun w hw => Option.some_ne_none w (hw.symm.trans hfrees)
    | goes hsame => exact .inl (hsame.trans hown)
  idle s e s' u _ hstep hne := by
    obtain ⟨p, hpoint, -, -, -⟩ := step_turns hstep
    rw [hpoint, Function.update_of_ne (Ne.symm hne)]
  spent s e s' u _ hstep hact hown hown' := by
    obtain ⟨p, hpoint, -, hturns, -⟩ := step_turns hstep
    subst hact
    rw [hpoint, Function.update_self]
    cases hturns with
    | locks hfree => exact absurd (hown.symm.trans hfree) (Option.some_ne_none _)
    | unlocks hfrees => exact absurd (hown'.symm.trans hfrees) (Option.some_ne_none _)
    | goes hsame hnearer => exact hnearer

section Executions

variable (E : Execution (machine role)) {p c : τ}

/-- The buffer does not stand still: the producer would find room, or the consumer an item. -/
theorem some_operation (hfair : E.Fair Turn.thread) (hp : role p = .producer)
    (hc : role c = .consumer) (n : ℕ) : ∃ k, n ≤ k ∧ stackOps (E.state k) (E.event k) ≠ [] := by
  by_contra hnone
  push Not at hnone
  have hcount : ∀ k, n ≤ k → (E.state k).numItems = (E.state n).numItems := by
    intro k hk
    induction k, hk using Nat.le_induction with
    | base => rfl
    | succ k hk ih =>
      obtain ⟨q, -, -, -, hcounts⟩ := step_turns (E.step k)
      cases hcounts with
      | push data hops => exact absurd (hops.symm.trans (hnone k hk)) (List.cons_ne_nil _ _)
      | pop data hops => exact absurd (hops.symm.trans (hnone k hk)) (List.cons_ne_nil _ _)
      | stays _ hsame => exact hsame.trans ih
  obtain ⟨t, hfinds⟩ : ∃ t, (role t).Finds (E.state n).numItems := by
    by_cases hroom : (E.state n).numItems < maxBufferSize
    · exact ⟨p, hp ▸ hroom⟩
    · refine ⟨c, hc ▸ fun hzero => hroom ?_⟩
      rw [hzero]
      decide
  have hnearer : ∀ k, n ≤ k → (E.event k).thread = t →
      ((E.state (k + 1)).point t).toCount < ((E.state k).point t).toCount := by
    rintro k hk rfl
    obtain ⟨q, hpoint, -, -, hcounts⟩ := step_turns (E.step k)
    rw [hpoint, Function.update_self]
    cases hcounts with
    | push data hops => exact absurd (hops.symm.trans (hnone k hk)) (List.cons_ne_nil _ _)
    | pop data hops => exact absurd (hops.symm.trans (hnone k hk)) (List.cons_ne_nil _ _)
    | stays _ _ hnearer =>
      apply hnearer
      rw [role_reachable (E.reachable k), hcount k hk]
      exact hfinds
  have hle : ∀ k, n ≤ k →
      ((E.state (k + 1)).point t).toCount ≤ ((E.state k).point t).toCount := by
    intro k hk
    by_cases ht : (E.event k).thread = t
    · exact (hnearer k hk ht).le
    · obtain ⟨q, hpoint, -⟩ := step_turns (E.step k)
      rw [hpoint, Function.update_of_ne (Ne.symm ht)]
  obtain ⟨k, hk, hafter⟩ := Execution.finitely_often (p := fun k => (E.event k).thread = t)
    (f := fun k => ((E.state k).point t).toCount) hle hnearer
  obtain ⟨m, hm, hact⟩ := Execution.OneLock.acts E (oneLock role) hfair t k
  exact hafter m hm hact

/-- No measure falls with every operation from some moment on. -/
theorem not_always_falling (hfair : E.Fair Turn.thread) (hp : role p = .producer)
    (hc : role c = .consumer) {n : ℕ} {f : ℤ → ℕ}
    (hfalls : ∀ k, n ≤ k → stackOps (E.state k) (E.event k) ≠ [] →
      f (E.state (k + 1)).numItems < f (E.state k).numItems) : False := by
  have hle : ∀ k, n ≤ k → f (E.state (k + 1)).numItems ≤ f (E.state k).numItems := by
    intro k hk
    by_cases hops : stackOps (E.state k) (E.event k) = []
    · obtain ⟨q, -, -, -, hcounts⟩ := step_turns (E.step k)
      cases hcounts with
      | push data hpush => exact absurd (hpush.symm.trans hops) (List.cons_ne_nil _ _)
      | pop data hpop => exact absurd (hpop.symm.trans hops) (List.cons_ne_nil _ _)
      | stays _ hsame => rw [hsame]
    · exact (hfalls k hk hops).le
  obtain ⟨k, hk, hafter⟩ := Execution.finitely_often
    (p := fun k => stackOps (E.state k) (E.event k) ≠ []) (f := fun k => f (E.state k).numItems)
    hle hfalls
  obtain ⟨m, hm, hops⟩ := some_operation E hfair hp hc k
  exact hafter m hm hops

/-- Where the mutex goes, in the end, to everyone who asks for it again and again, a producer and a
consumer keep the buffer going for ever: items are added and removed again and again. -/
theorem produces_and_consumes_for_ever (hfair : E.Fair Turn.thread) (hp : role p = .producer)
    (hc : role c = .consumer) (n : ℕ) :
    (∃ k, n ≤ k ∧ ∃ data, stackOps (E.state k) (E.event k) = [.push data]) ∧
    ∃ k, n ≤ k ∧ ∃ data, stackOps (E.state k) (E.event k) = [.pop data] := by
  have hbounds : ∀ k, 0 ≤ (E.state k).numItems ∧ (E.state k).numItems ≤ maxBufferSize := by
    intro k
    obtain ⟨a, h⟩ := represents_reachable (E.reachable k)
    exact h.numItems_bounds
  constructor <;> by_contra hnever <;> push Not at hnever
  · refine not_always_falling E hfair hp hc (n := n) (f := Int.toNat) fun k hk hops => ?_
    have hafter := hbounds (k + 1)
    obtain ⟨q, -, -, -, hcounts⟩ := step_turns (E.step k)
    cases hcounts with
    | push data hpush => exact absurd hpush (hnever k hk data)
    | pop data _ hfewer => omega
    | stays hnone => exact absurd hnone hops
  · refine not_always_falling E hfair hp hc (n := n) (f := fun i => (maxBufferSize - i).toNat)
      fun k hk hops => ?_
    have hafter := hbounds (k + 1)
    obtain ⟨q, -, -, -, hcounts⟩ := step_turns (E.step k)
    cases hcounts with
    | push data _ hmore => omega
    | pop data hpop => exact absurd hpop (hnever k hk data)
    | stays hnone => exact absurd hnone hops

end Executions

theorem produces_and_consumes_in_turn : ∃ E : Execution (machine oneEach),
    E.Fair Turn.thread ∧ ∃ k, 1000 ≤ k ∧ ∃ data, stackOps (E.state k) (E.event k) = [.pop data] := by
  have hlive : ∀ s, (machine oneEach).Reachable s →
      ∃ e, ((machine oneEach).step s e).isSome = true := by
    intro s hs
    obtain ⟨a, h⟩ := represents_reachable hs
    obtain ⟨u, hu⟩ := h.exists_able true
    exact ⟨⟨u, ⟨⟨true, 0⟩, ⟨true, 0⟩⟩⟩, hu _⟩
  obtain ⟨E, hfair, -⟩ := Execution.exists_fair Turn.thread hlive ⟨_, [], rfl, rfl⟩
  exact ⟨E, hfair, (produces_and_consumes_for_ever E hfair (p := true) (c := false) rfl rfl 1000).2⟩

end OperatingSystems.ProducerConsumer
