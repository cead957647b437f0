import OperatingSystems.SharedResource.Batches

namespace OperatingSystems.SharedResource

open Library

variable {τ : Type*} [Fintype τ]

/-- When the resource may be entered nobody is parked, and `waiting` counts the parked threads. -/
def NobodyLeft (s : State τ) : Prop :=
  (s.mutex = 1 → s.mustWait = 0 → count Point.parked s.point = 0) ∧
  s.waiting = count Point.parked s.point

instance : DecidablePred (NobodyLeft (τ := τ)) := fun s => by
  unfold NobodyLeft
  infer_instance

variable [DecidableEq τ]

/-- A step moves one thread, never one that is parked, and parks it only at the
`sem_post(&mutex)` of the `must_wait` branch. -/
theorem step_moves {s s' : State τ} {t : τ} (h : Inv s) (hs : step s t = some s') :
    ∃ p, s'.point = Function.update s.point t p ∧ (s.point t).parked = false ∧
      p.parked = decide (s.point t = .parkPost) := by
  have hblocker := h.blocker
  cases hp : s.point t <;>
    simp only [step, hp, Option.some.injEq, Option.map_eq_some_iff, semWait_eq_some] at hs
  case parkWait =>
    obtain ⟨v, hv, rfl⟩ := hs
    omega
  case waitMutex | leaveWait =>
    obtain ⟨v, hv, rfl⟩ := hs
    exact ⟨_, rfl, rfl, rfl⟩
  case testMustWait | testFull | testWaiting | testEmpty | leaveTestWaiting =>
    subst hs
    refine ⟨_, rfl, rfl, ?_⟩
    split_ifs <;> rfl
  all_goals
    subst hs
    exact ⟨_, rfl, rfl, rfl⟩

theorem parked_step {s s' : State τ} {t : τ} (h : Inv s) (hs : step s t = some s') :
    count Point.parked s'.point =
      count Point.parked s.point + if s.point t = .parkPost then 1 else 0 := by
  obtain ⟨p, hpoint, hout, hp⟩ := step_moves h hs
  have hcount := count_update Point.parked s.point t p
  rw [hout, hp] at hcount
  rw [hpoint]
  split_ifs with hpost <;> simpa [hpost] using hcount

/-- A run meets the condition when no thread posts `mutex` in the `must_wait` branch. -/
def NotParking (s : State τ) (t : τ) : Prop := s.point t ≠ .parkPost

/-- A run leaves nobody behind exactly when it never takes the `must_wait` branch. -/
theorem nobodyLeft_iff_notParking {s : State τ} {es : List τ}
    (hr : (machine τ).run initial es = some s) :
    (machine τ).Always NobodyLeft initial es ↔ (machine τ).Meets NotParking initial es := by
  constructor
  · intro h
    refine Machine.Always.meets (I := Inv) (fun _ _ _ => inv_step) ?_ inv_initial h hr
    -- a parked thread is never counted in `waiting`
    intro s t s' hi _ hleft hs hpost
    have hcount := parked_step hi hs
    have hwaiting := (inv_step hi hs).waiting
    have hleft' := hleft.2
    rw [if_pos hpost] at hcount
    omega
  · intro h
    refine Machine.Always.mono ?_ (Machine.Meets.always
      (I := fun s => Inv s ∧ count Point.parked s.point = 0) ?_ ⟨inv_initial, ?_⟩ h)
    · exact fun s hs => ⟨fun _ _ => hs.2, by rw [hs.1.waiting, hs.2]; rfl⟩
    · intro s t s' hi hnot hs
      refine ⟨inv_step hi.1 hs, ?_⟩
      rw [parked_step hi.1 hs, hi.2, if_neg hnot]
    · exact count_const _ _ rfl

/-- With at most two threads `must_wait` is never set. -/
structure Quiet (s : State τ) : Prop where
  inv : Inv s
  mustWait : s.mustWait = 0
  points : ∀ t, s.point t ≠ .setMustWait ∧ s.point t ≠ .parkPost

theorem quiet_step (hcard : Fintype.card τ ≤ 2) {s s' : State τ} {t : τ} (h : Quiet s)
    (hs : step s t = some s') : Quiet s' := by
  have hle : s.active ≤ 2 := by
    have hcount : count Point.inside s.point ≤ Fintype.card τ := Finset.card_le_univ _
    have := h.inv.active
    omega
  have hwait := h.mustWait
  have move : ∀ p, s'.point = Function.update s.point t p → s'.mustWait = 0 →
      p ≠ .setMustWait ∧ p ≠ .parkPost → Quiet s' := by
    refine fun p hpoint hzero hp => ⟨inv_step h.inv hs, hzero, fun u => ?_⟩
    by_cases hu : u = t
    · subst u
      simpa [hpoint] using hp
    · rw [hpoint, Function.update_of_ne hu]
      exact h.points u
  have hpoint := h.points t
  cases hp : s.point t <;>
    simp only [step, hp, Option.some.injEq, Option.map_eq_some_iff, semWait_eq_some] at hs
  case setMustWait => exact (hpoint.1 hp).elim
  case parkPost => exact (hpoint.2 hp).elim
  case waitMutex | parkWait | leaveWait =>
    obtain ⟨v, hv, rfl⟩ := hs
    exact move _ rfl hwait (by decide)
  case clearMustWait | emptyClear =>
    subst hs
    exact move _ rfl rfl (by decide)
  case testMustWait =>
    rw [if_neg (by omega)] at hs
    subst hs
    exact move _ rfl hwait (by decide)
  case testFull =>
    rw [if_neg (by omega)] at hs
    subst hs
    exact move _ rfl hwait (by decide)
  case testWaiting | testEmpty | leaveTestWaiting =>
    subst hs
    apply move _ rfl hwait
    split_ifs <;> decide
  all_goals
    subst hs
    exact move _ rfl hwait (by decide)

section Schedules

omit [Fintype τ]

variable {s : State τ} {t : τ}

/-- A thread that finds the door open walks in and opens the mutex again. -/
theorem run_enter (hm : s.mutex = 1) (hw : s.waiting = 0) (hopen : s.mustWait = 0)
    (ht : s.point t = .waitMutex) : (machine τ).run s (List.replicate 7 t) =
      some { s with active := s.active + 1, mustWait := if s.active + 1 = 3 then 1 else 0,
                    point := Function.update s.point t .leaveWait } := by
  by_cases hfull : s.active + 1 = 3 <;>
    simp [List.replicate, Machine.run, machine, step, State.goto, semWait, semPost, hm, hw, hopen,
      ht, hfull]

/-- A thread leaves while others stay inside. -/
theorem run_leave (hm : s.mutex = 1) (hw : s.waiting = 0) (hmore : s.active ≠ 1)
    (ht : s.point t = .leaveWait) : (machine τ).run s (List.replicate 5 t) =
      some { s with active := s.active - 1, point := Function.update s.point t .waitMutex } := by
  have hne : s.active - 1 ≠ 0 := by omega
  simp [List.replicate, Machine.run, machine, step, State.goto, semWait, semPost, hm, hw, hne, ht]

/-- A thread that finds the door shut parks. -/
theorem run_park (hm : s.mutex = 1) (hshut : s.mustWait ≠ 0) (ht : s.point t = .waitMutex) :
    (machine τ).run s (List.replicate 3 t) =
      some { s with point := Function.update s.point t .parkWait } := by
  simp [List.replicate, Machine.run, machine, step, State.goto, semWait, semPost, hm, hshut, ht]

end Schedules

/-- Three threads go in, the first comes out and round again: it parks, and `waiting` stays 0. -/
theorem exists_left_behind (hcard : 3 ≤ Fintype.card τ) :
    ∃ es s, (machine τ).run initial es = some s ∧ ¬ NobodyLeft (τ := τ) s := by
  obtain ⟨a, b, c, hab, hac, hbc⟩ := Fintype.two_lt_card_iff.mp hcard
  let p₁ : τ → Point := Function.update (fun _ => .waitMutex) a .leaveWait
  let p₂ : τ → Point := Function.update p₁ b .leaveWait
  let p₃ : τ → Point := Function.update p₂ c .leaveWait
  let p₄ : τ → Point := Function.update p₃ a .waitMutex
  have hb : p₁ b = .waitMutex := Function.update_of_ne (Ne.symm hab) _ _
  have hc : p₂ c = .waitMutex :=
    (Function.update_of_ne (Ne.symm hbc) _ _).trans (Function.update_of_ne (Ne.symm hac) _ _)
  have ha : p₃ a = .leaveWait :=
    (Function.update_of_ne hac _ _).trans ((Function.update_of_ne hab _ _).trans
      (Function.update_self ..))
  have r₁ := run_enter (s := (⟨1, 0, 0, 0, 0, fun _ => .waitMutex⟩ : State τ)) (t := a) rfl rfl rfl rfl
  have r₂ := run_enter (s := (⟨1, 0, 1, 0, 0, p₁⟩ : State τ)) rfl rfl rfl hb
  have r₃ := run_enter (s := (⟨1, 0, 2, 0, 0, p₂⟩ : State τ)) rfl rfl rfl hc
  have r₄ := run_leave (s := (⟨1, 0, 3, 0, 1, p₃⟩ : State τ)) rfl rfl
    (show (3 : ℤ) ≠ 1 by decide) ha
  have r₅ := run_park (s := (⟨1, 0, 2, 0, 1, p₄⟩ : State τ)) rfl one_ne_zero (Function.update_self ..)
  refine ⟨_, _, (Machine.run_trans r₁).trans ((Machine.run_trans r₂).trans
    ((Machine.run_trans r₃).trans ((Machine.run_trans r₄).trans r₅))), fun hleft => ?_⟩
  have hparked : 0 < count Point.parked (Function.update p₄ a .parkWait) :=
    count_pos.mpr ⟨a, by rw [Function.update_self]; rfl⟩
  have hcount : (0 : ℤ) = count Point.parked (Function.update p₄ a .parkWait) := hleft.2
  omega

/-- Nobody is ever left behind exactly on the runs that never take the `must_wait` branch; and
this holds of all runs exactly when there are at most two threads. -/
theorem nobody_left_behind_iff :
    (∀ es s, (machine τ).run initial es = some s →
      ((machine τ).Always NobodyLeft initial es ↔ (machine τ).Meets NotParking initial es)) ∧
    ((∀ es s, (machine τ).run initial es = some s → NobodyLeft s) ↔ Fintype.card τ ≤ 2) := by
  refine ⟨fun es s => nobodyLeft_iff_notParking, fun h => ?_, fun hcard es s hr => ?_⟩
  · by_contra hcard
    obtain ⟨es, s, hr, hleft⟩ := exists_left_behind (τ := τ) (by omega)
    exact hleft (h es s hr)
  · have hquiet : Quiet (initial : State τ) := ⟨inv_initial, rfl, fun _ => ⟨nofun, nofun⟩⟩
    have hmeets : (machine τ).Meets NotParking initial es :=
      Machine.meets_of_invariant (fun _ _ _ => quiet_step hcard)
        (fun _ t hq => (hq.points t).2) es hquiet
    exact ((nobodyLeft_iff_notParking hr).mpr hmeets).last hr

/-- The five threads of `main`: three enter, the fourth parks, the three leave; then the mutex is
open, `must_wait` is clear, and the fourth thread is still parked. -/
theorem fourth_thread_left_behind :
    ∃ s, (machine (Fin 5)).run initial (List.replicate 7 0 ++ List.replicate 7 1 ++
        List.replicate 7 2 ++ List.replicate 3 3 ++ List.replicate 5 0 ++ List.replicate 5 1 ++
        List.replicate 6 2) = some s ∧
      s.mutex = 1 ∧ s.mustWait = 0 ∧ count Point.parked s.point = 1 ∧ s.waiting = 0 ∧
      ¬ NobodyLeft s :=
  ⟨_, rfl, rfl, rfl, by decide, rfl, by decide⟩

end OperatingSystems.SharedResource
