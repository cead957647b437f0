import OperatingSystems.SharedResource.Shareable

namespace OperatingSystems.SharedResource

open Library

variable {τ : Type*} [Fintype τ]

theorem active_le_three {s : State τ} (h : Inv s) : s.active ≤ 3 := by
  by_cases hm : s.mutex = 1
  · exact (h.gate hm).1
  · have hpos : 0 < count Point.inSection s.point := by
      have := h.mutex
      omega
    obtain ⟨t, ht⟩ := count_pos.mp hpos
    have hknows := h.knows t
    cases hp : s.point t <;>
      simp only [hp, Knows, Gate, Point.inSection, Bool.false_eq_true] at hknows ht <;>
      omega

/-- What keeps the door shut after three threads were inside: `must_wait` is set, or the one
thread in the section is about to set it. -/
def ShutAt (s : State τ) : Point → Prop
  | .waitMutex | .parkWait | .leaveWait | .setMustWait => True
  | .enter | .clearMustWait | .emptyClear => False
  | .testFull => s.active = 3
  | _ => s.mustWait ≠ 0

def Shut (s : State τ) : Prop := (s.mutex = 1 → s.mustWait ≠ 0) ∧ ∀ t, ShutAt s (s.point t)

theorem shut_of_full {s : State τ} (h : Inv s) (hfull : s.active = 3) : Shut s := by
  refine ⟨fun hm => (h.gate hm).2 hfull, fun t => ?_⟩
  have hknows := h.knows t
  cases hp : s.point t <;> simp only [hp, Knows, Gate] at hknows <;> simp only [ShutAt] <;>
    omega

variable [DecidableEq τ]

theorem shut_move {s s' : State τ} {t : τ} (h : Inv s) (hs : step s t = some s') (p : Point)
    (hpoint : s'.point = Function.update s.point t p) (hmutex : s'.mutex = 1 → s'.mustWait ≠ 0)
    (hp : ShutAt s' p) : Shut s' := by
  refine ⟨hmutex, fun u => ?_⟩
  by_cases hu : u = t
  · subst u
    simpa [hpoint] using hp
  · have hout : (s.point u).inSection = false := by
      by_contra hne
      exact hu (step_in_section h hs (by simpa using hne))
    rw [hpoint, Function.update_of_ne hu]
    cases hq : s.point u <;> simp only [hq, Point.inSection, Bool.true_eq_false] at hout <;> trivial

/-- As long as somebody is inside, the door stays shut. -/
theorem shut_step {s s' : State τ} {t : τ} (h : Inv s) (hshut : Shut s) (hne : s.active ≠ 0)
    (hs : step s t = some s') : Shut s' := by
  have move := shut_move h hs
  have hat := hshut.2 t
  have hknows := h.knows t
  have hwaiting := h.waiting
  have hm := h.mutex
  cases hp : s.point t <;> simp only [hp, ShutAt, Knows] at hat hknows <;>
    simp only [step, hp, Option.some.injEq, Option.map_eq_some_iff, semWait_eq_some] at hs
  case waitMutex =>
    obtain ⟨v, hv, rfl⟩ := hs
    exact move .testMustWait rfl (fun _ => hshut.1 (by omega)) (hshut.1 (by omega))
  case testMustWait =>
    rw [if_pos hat] at hs
    subst hs
    exact move .parkPost rfl (fun _ => hat) hat
  case parkPost =>
    subst hs
    exact move .parkWait rfl (fun _ => hat) trivial
  case parkWait =>
    obtain ⟨v, hv, rfl⟩ := hs
    have := h.blocker
    omega
  case testFull =>
    rw [if_pos hat] at hs
    subst hs
    refine move .setMustWait rfl (fun hone => ?_) trivial
    have := count_pos.mpr ⟨t, show (s.point t).inSection = true by rw [hp]; rfl⟩
    have : s.mutex = 1 := hone
    omega
  case setMustWait =>
    subst hs
    exact move .testWaiting rfl (fun _ => one_ne_zero) (show (1 : ℤ) ≠ 0 from one_ne_zero)
  case testWaiting =>
    rw [if_neg (by omega)] at hs
    subst hs
    exact move .enterPostMutex rfl (fun _ => hat) hat
  case enterPostMutex =>
    subst hs
    exact move .leaveWait rfl (fun _ => hat) trivial
  case leaveWait =>
    obtain ⟨v, hv, rfl⟩ := hs
    exact move .leave rfl (fun _ => hshut.1 (by omega)) (hshut.1 (by omega))
  case leave =>
    subst hs
    exact move .testEmpty rfl (fun _ => hat) hat
  case testEmpty =>
    rw [if_neg hne] at hs
    subst hs
    exact move .leaveTestWaiting rfl (fun _ => hat) hat
  case leaveTestWaiting =>
    rw [if_neg (by omega)] at hs
    subst hs
    exact move .leavePostMutex rfl (fun _ => hat) hat
  case leavePostMutex =>
    subst hs
    exact move .waitMutex rfl (fun _ => hat) trivial

/-- A run from a full house to a thread about to enter has passed an empty house. -/
theorem empty_between {s s' : State τ} {es : List τ} {t : τ} (h : Inv s) (hfull : s.active = 3)
    (hr : (machine τ).run s es = some s') (ht : s'.point t = .enter) :
    ∃ fs gs u, es = fs ++ gs ∧ (machine τ).run s fs = some u ∧ u.active = 0 := by
  have hnot : ¬ (machine τ).Always (fun u => u.active ≠ 0) s es := by
    intro halways
    have hend := Machine.Always.invariant (I := fun u => Inv u ∧ Shut u)
      (fun _ _ _ hi hne hs => ⟨inv_step hi.1 hs, shut_step hi.1 hi.2 hne hs⟩)
      ⟨h, shut_of_full h hfull⟩ halways hr
    have hat := hend.2.2 t
    simp only [ht, ShutAt] at hat
  obtain ⟨fs, gs, u, hes, hf, hu⟩ := Machine.exists_prefix_of_not_always hr hnot
  exact ⟨fs, gs, u, hes, hf, not_not.mp hu⟩

/-- `active` counts the threads inside, at most three; after three, nobody enters before all
have left; and one thread at a time is in the section. -/
theorem at_most_three_in_full_batches {s : State τ} (h : (machine τ).Reachable s) :
    s.active = count Point.inside s.point ∧ 0 ≤ s.active ∧ s.active ≤ 3 ∧
    (s.active = 3 → ∀ es s' t, (machine τ).run s es = some s' → s'.point t = .enter →
      ∃ fs gs u, es = fs ++ gs ∧ (machine τ).run s fs = some u ∧ u.active = 0) ∧
    count Point.inSection s.point ≤ 1 := by
  have hinv := inv_reachable h
  refine ⟨hinv.active, ?_, active_le_three hinv, ?_, ?_⟩
  · have := hinv.active
    omega
  · exact fun hfull es s' t hr ht => empty_between hinv hfull hr ht
  · have := hinv.mutex
    omega

/-- Three of the five threads of `main` have entered one after the other. -/
theorem at_most_three_full_house :
    ∃ s, (machine (Fin 5)).run initial (List.replicate 7 0 ++ List.replicate 7 1 ++
        List.replicate 7 2) = some s ∧ s.active = 3 ∧ s.active = count Point.inside s.point ∧
      count Point.inSection s.point ≤ 1 := by
  obtain ⟨s, hr, hfull⟩ : ∃ s, (machine (Fin 5)).run initial (List.replicate 7 0 ++
      List.replicate 7 1 ++ List.replicate 7 2) = some s ∧ s.active = 3 := ⟨_, rfl, rfl⟩
  have h := at_most_three_in_full_batches ⟨initial, _, rfl, hr⟩
  exact ⟨s, hr, hfull, h.1, h.2.2.2.2⟩

end OperatingSystems.SharedResource
