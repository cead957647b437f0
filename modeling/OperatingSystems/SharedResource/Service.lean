import OperatingSystems.Library.Scheduler
import OperatingSystems.SharedResource.Parking

namespace OperatingSystems.SharedResource

open Library

/-- How many statements there are at most before a thread leaves the resource, unless it parks. -/
def Point.toLeave : Point → ℕ
  | leaveWait => 0
  | enterPostBlocker | enterPostMutex => 1
  | testWaiting => 2
  | setMustWait | clearMustWait => 3
  | testFull => 4
  | enter => 5
  | testMustWait | resume => 6
  | waitMutex | parkWait => 7
  | parkPost | leavePostBlocker | leavePostMutex => 8
  | leaveTestWaiting => 9
  | emptyClear => 10
  | testEmpty => 11
  | leave => 12

variable {τ : Type*} [Fintype τ] [DecidableEq τ]

/-- With at most two threads nobody parks. -/
structure Served (s : State τ) : Prop where
  quiet : Quiet s
  unparked : ∀ t, s.point t ≠ .parkWait

theorem served_step (hcard : Fintype.card τ ≤ 2) {s s' : State τ} {t : τ} (h : Served s)
    (hs : step s t = some s') : Served s' := by
  refine ⟨quiet_step hcard h.quiet hs, fun u hu => ?_⟩
  obtain ⟨p, hpoint, -, hp⟩ := step_moves h.quiet.inv hs
  rw [hpoint] at hu
  by_cases hut : u = t
  · subst hut
    rw [Function.update_self] at hu
    rw [hu] at hp
    exact (h.quiet.points u).2 (of_decide_eq_true hp.symm)
  · rw [Function.update_of_ne hut] at hu
    exact h.unparked u hu

theorem served_reachable (hcard : Fintype.card τ ≤ 2) {s : State τ} (h : (machine τ).Reachable s) :
    Served s := by
  apply h.invariant
  · rintro s rfl
    refine ⟨⟨inv_initial, rfl, fun t => ?_⟩, fun t => ?_⟩
    · constructor <;> simp [initial]
    · simp [initial]
  · exact fun _ _ _ hs hstep => served_step hcard hs hstep

/-- Each statement takes a thread nearer to leaving, but the one with which it leaves. -/
theorem step_nearer {s s' : State τ} {t : τ} (h : Served s) (hs : step s t = some s') :
    ∃ p, s'.point = Function.update s.point t p ∧
      (s.point t ≠ .leaveWait → p.toLeave < (s.point t).toLeave) := by
  have hpoints := h.quiet.points t
  have hunparked := h.unparked t
  cases hp : s.point t <;>
    simp only [step, hp, Option.some.injEq, Option.map_eq_some_iff, semWait_eq_some] at hs
  case setMustWait => exact (hpoints.1 hp).elim
  case parkPost => exact (hpoints.2 hp).elim
  case parkWait => exact (hunparked hp).elim
  case waitMutex | leaveWait =>
    obtain ⟨v, hv, rfl⟩ := hs
    exact ⟨_, rfl, by decide⟩
  case testMustWait =>
    have hzero := h.quiet.mustWait
    rw [if_neg (by omega)] at hs
    subst hs
    exact ⟨_, rfl, by decide⟩
  case testFull | testWaiting | testEmpty | leaveTestWaiting =>
    subst hs
    refine ⟨_, rfl, ?_⟩
    split_ifs <;> decide
  all_goals
    subst hs
    exact ⟨_, rfl, by decide⟩

omit [Fintype τ] in
/-- Who cannot go on, and is not parked, waits for `mutex`. -/
theorem waits_for_mutex {s : State τ} {t : τ} (hpark : s.point t ≠ .parkWait)
    (hnone : step s t = none) : (s.point t).inSection = false ∧ s.mutex = 0 := by
  cases hp : s.point t
  case waitMutex | leaveWait =>
    simp only [step, hp, Option.map_eq_none_iff] at hnone
    refine ⟨rfl, ?_⟩
    cases hm : s.mutex with
    | zero => rfl
    | succ v =>
      rw [hm] at hnone
      cases hnone
  case parkWait => exact absurd hp hpark
  all_goals simp [step, hp] at hnone

/-- With at most two threads `mutex` is the one lock that there is. -/
theorem oneLock (hcard : Fintype.card τ ≤ 2) : Execution.OneLock (machine τ) id
    (fun s t => (s.point t).inSection = true) (fun s t => (s.point t).toLeave) where
  blocked s t hs hnone := by
    have hserved := served_reachable hcard hs
    obtain ⟨hout, hzero⟩ := waits_for_mutex (hserved.unparked t) (hnone t rfl)
    have hmutex := hserved.quiet.inv.mutex
    obtain ⟨u, hu⟩ := count_pos.mp (show 0 < count Point.inSection s.point by omega)
    exact ⟨u, hu, by rw [hout]; decide⟩
  kept s e s' u hs hstep hu := by
    have hinv := inv_reachable hs
    obtain rfl := step_in_section hinv hstep hu
    obtain ⟨p, hpoint, -⟩ := step_moves hinv hstep
    by_cases hp : p.inSection = true
    · left
      rw [hpoint, Function.update_self]
      exact hp
    · refine .inr fun w hw => ?_
      rw [hpoint] at hw
      by_cases hwu : w = u
      · rw [hwu, Function.update_self] at hw
        exact hp hw
      · rw [Function.update_of_ne hwu] at hw
        exact hwu (step_in_section hinv hstep hw)
  idle s e s' u hs hstep hne := by
    obtain ⟨p, hpoint, -⟩ := step_moves (inv_reachable hs) hstep
    have hother : u ≠ e := Ne.symm hne
    show (s'.point u).toLeave = (s.point u).toLeave
    rw [hpoint, Function.update_of_ne hother]
  spent s e s' u hs hstep hact hown _ := by
    obtain ⟨p, hpoint, hnearer⟩ := step_nearer (served_reachable hcard hs) hstep
    obtain rfl : e = u := hact
    rw [hpoint, Function.update_self]
    apply hnearer
    intro hleave
    rw [hleave] at hown
    cases hown

section Executions

variable (E : Execution (machine τ))

/-- A thread that goes on for ever leaves the resource again and again. -/
theorem leaves_again (hcard : Fintype.card τ ≤ 2) (hfair : E.Fair id) (t : τ) (n : ℕ) :
    ∃ k, n ≤ k ∧ E.event k = t ∧ (E.state k).point t = .leaveWait := by
  by_contra hnever
  push Not at hnever
  have hnearer : ∀ k, n ≤ k → E.event k = t →
      ((E.state (k + 1)).point t).toLeave < ((E.state k).point t).toLeave := by
    rintro k hk rfl
    obtain ⟨p, hpoint, hnearer⟩ := step_nearer (served_reachable hcard (E.reachable k)) (E.step k)
    rw [hpoint, Function.update_self]
    exact hnearer (hnever k hk rfl)
  have hle : ∀ k, n ≤ k →
      ((E.state (k + 1)).point t).toLeave ≤ ((E.state k).point t).toLeave := by
    intro k hk
    by_cases ht : E.event k = t
    · exact (hnearer k hk ht).le
    · obtain ⟨p, hpoint, -⟩ := step_moves (inv_reachable (E.reachable k)) (E.step k)
      rw [hpoint, Function.update_of_ne (Ne.symm ht)]
  obtain ⟨k, hk, hafter⟩ := Execution.finitely_often (p := fun k => E.event k = t)
    (f := fun k => ((E.state k).point t).toLeave) hle hnearer
  obtain ⟨m, hm, hact⟩ := Execution.OneLock.acts E (oneLock hcard) hfair t k
  exact hafter m hm hact

theorem parked_after {t : τ} {n : ℕ} (ht : (E.state n).point t = .parkWait) {k : ℕ} (hk : n ≤ k) :
    (E.state k).point t = .parkWait := by
  induction k, hk using Nat.le_induction with
  | base => exact ht
  | succ k hk ih => exact parked_stays (inv_reachable (E.reachable k)) ih (E.step k)

end Executions

/-- Where `mutex` goes, in the end, to everyone who asks for it again and again, all threads use the
resource again and again just when there are at most two of them: from three on they can all but one
be parked, and a fair run goes on from there without them. -/
theorem all_served_iff (τ : Type*) [Fintype τ] [DecidableEq τ] :
    (∀ E : Execution (machine τ), E.Fair id → ∀ t n, ∃ k, n ≤ k ∧ E.event k = t ∧
      (E.state k).point t = .leaveWait) ↔ Fintype.card τ ≤ 2 := by
  refine ⟨fun hserved => ?_, fun hcard E hfair => leaves_again E hcard hfair⟩
  by_contra hcard
  obtain ⟨s, hs, hcount⟩ := exists_all_but_one_parked (τ := τ) (by omega)
  obtain ⟨t, ht⟩ := count_pos.mp (show 0 < count Point.parked s.point by omega)
  have hpark : s.point t = .parkWait := by
    cases hp : s.point t
    case parkWait => rfl
    all_goals
      rw [hp] at ht
      cases ht
  have hlive : ∀ s, (machine τ).Reachable s → ∃ e, ((machine τ).step s e).isSome = true := by
    intro s hs
    have hsome : Nonempty τ := ⟨t⟩
    obtain ⟨u, -, hable⟩ := exists_able (awake_reachable hs)
    exact ⟨u, hable⟩
  obtain ⟨E, hfair, n, rfl⟩ := Execution.exists_fair id hlive hs
  obtain ⟨k, hk, -, hleave⟩ := hserved E hfair t n
  cases (parked_after E hpark hk).symm.trans hleave

end OperatingSystems.SharedResource
