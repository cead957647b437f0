import OperatingSystems.SharedResource.Waiting

namespace OperatingSystems.SharedResource

open Library

/-- Between the increment of `active` and the statements that may clear `must_wait` again. -/
def Point.keeps (p : Point) : Bool := p.inside || p == .testEmpty || p == .emptyClear

variable {τ : Type*} [Fintype τ] [DecidableEq τ]

/-- While `must_wait` is set somebody is going to look at `active` on the way out; who parks has found it
set, and so leaves somebody behind who does not park. -/
structure Awake (s : State τ) : Prop where
  inv : Inv s
  keeper : s.mustWait ≠ 0 → ∃ t, (s.point t).keeps = true
  parking : ∀ t, s.point t = .parkPost → s.mustWait ≠ 0
  somebody : ∃ t, s.point t ≠ .parkWait

/-- A parked thread stays where it is: nobody posts `blocker`. -/
theorem parked_stays {s s' : State τ} {t u : τ} (h : Inv s) (ht : s.point t = .parkWait)
    (hs : step s u = some s') : s'.point t = .parkWait := by
  obtain ⟨p, hpoint, hout, -⟩ := step_moves h hs
  have hne : t ≠ u := by
    rintro rfl
    rw [ht] at hout
    cases hout
  rw [hpoint, Function.update_of_ne hne]
  exact ht

/-- Of whatever steps follow none is its. -/
theorem parked_for_ever {s s' : State τ} {t : τ} {es : List τ} (h : Inv s)
    (ht : s.point t = .parkWait) (hr : (machine τ).run s es = some s') :
    s'.point t = .parkWait ∧ t ∉ es := by
  induction es generalizing s with
  | nil =>
    obtain rfl : s = s' := Option.some.inj hr
    exact ⟨ht, List.not_mem_nil⟩
  | cons u es ih =>
    obtain ⟨s₁, hstep, hrest⟩ := Machine.run_cons_eq_some.mp hr
    obtain ⟨hstays, hnot⟩ := ih (inv_step h hstep) (parked_stays h ht hstep) hrest
    refine ⟨hstays, fun hmem => ?_⟩
    obtain rfl | hmem := List.mem_cons.mp hmem
    · obtain ⟨-, -, hout, -⟩ := step_moves h hstep
      rw [ht] at hout
      cases hout
    · exact hnot hmem

omit [Fintype τ] [DecidableEq τ] in
/-- What a step from `q` to `p` does to `must_wait`, and what it shows of it. -/
inductive Turns (s s' : State τ) (q p : Point) : Prop where
  | plain (hp : p ≠ .parkPost ∧ p ≠ .parkWait) (hkeeps : q.keeps = true → p.keeps = true)
      (hsame : s'.mustWait = s.mustWait)
  | shut (hp : p = .parkPost) (hkeeps : q.keeps = false) (hshut : s.mustWait ≠ 0)
      (hsame : s'.mustWait = s.mustWait)
  | park (hq : q = .parkPost) (hp : p = .parkWait) (hsame : s'.mustWait = s.mustWait)
  | stores (hp : p = .testWaiting)
  | clears (hp : p = .leaveTestWaiting) (hzero : s'.mustWait = 0)
  | goes (hq : q = .testEmpty) (hp : p = .leaveTestWaiting) (hactive : s.active ≠ 0)
      (hsame : s'.mustWait = s.mustWait)

theorem step_turns {s s' : State τ} {t : τ} (h : Inv s) (hs : step s t = some s') :
    ∃ p, s'.point = Function.update s.point t p ∧ Turns s s' (s.point t) p := by
  have hblocker := h.blocker
  cases hp : s.point t <;>
    simp only [step, hp, Option.some.injEq, Option.map_eq_some_iff, semWait_eq_some] at hs
  case parkWait =>
    obtain ⟨v, hv, rfl⟩ := hs
    omega
  case waitMutex | leaveWait =>
    obtain ⟨v, hv, rfl⟩ := hs
    exact ⟨_, rfl, .plain (by decide) (by decide) rfl⟩
  case testMustWait =>
    subst hs
    refine ⟨_, rfl, ?_⟩
    split_ifs with hwait
    · exact .shut rfl rfl hwait rfl
    · exact .plain (by decide) (by decide) rfl
  case parkPost =>
    subst hs
    exact ⟨_, rfl, .park rfl rfl rfl⟩
  case setMustWait | clearMustWait =>
    subst hs
    exact ⟨_, rfl, .stores rfl⟩
  case emptyClear =>
    subst hs
    exact ⟨_, rfl, .clears rfl rfl⟩
  case testEmpty =>
    subst hs
    refine ⟨_, rfl, ?_⟩
    split_ifs with hempty
    · exact .plain (by decide) (by decide) rfl
    · exact .goes rfl rfl hempty rfl
  case testFull | testWaiting | leaveTestWaiting =>
    subst hs
    refine ⟨_, rfl, ?_⟩
    split_ifs <;> exact .plain (by decide) (by decide) rfl
  all_goals
    subst hs
    exact ⟨_, rfl, .plain (by decide) (by decide) rfl⟩

theorem awake_step {s s' : State τ} {t : τ} (h : Awake s) (hs : step s t = some s') : Awake s' := by
  obtain ⟨p, hpoint, hturns⟩ := step_turns h.inv hs
  have hself : s'.point t = p := by
    rw [hpoint, Function.update_self]
  have hother : ∀ u, u ≠ t → s'.point u = s.point u := by
    intro u hne
    rw [hpoint, Function.update_of_ne hne]
  -- another thread that keeps `must_wait` in view goes on doing so
  have hkept : ∀ u, (s.point u).keeps = true → (s.point t).keeps = false →
      u ≠ t ∧ (s'.point u).keeps = true := by
    intro u hu ht
    have hne : u ≠ t := by
      rintro rfl
      exact Bool.false_ne_true (ht.symm.trans hu)
    exact ⟨hne, by rw [hother u hne]; exact hu⟩
  constructor
  · exact inv_step h.inv hs
  · intro hset
    cases hturns with
    | plain _ hkeeps hsame =>
      obtain ⟨u, hu⟩ := h.keeper (hsame ▸ hset)
      by_cases hut : u = t
      · subst hut
        exact ⟨u, by rw [hself]; exact hkeeps hu⟩
      · exact ⟨u, by rw [hother u hut]; exact hu⟩
    | shut _ hkeeps hshut _ =>
      obtain ⟨u, hu⟩ := h.keeper hshut
      exact ⟨u, (hkept u hu hkeeps).2⟩
    | park hq _ hsame =>
      obtain ⟨u, hu⟩ := h.keeper (hsame ▸ hset)
      exact ⟨u, (hkept u hu (by rw [hq]; rfl)).2⟩
    | stores hp => exact ⟨t, by rw [hself, hp]; rfl⟩
    | clears _ hzero => exact absurd hzero hset
    | goes hq _ hactive _ =>
      -- the threads that `active` still counts are inside
      have hcount := h.inv.active
      obtain ⟨u, hu⟩ := count_pos.mp (show 0 < count Point.inside s.point by omega)
      have hne : u ≠ t := by
        rintro rfl
        rw [hq] at hu
        cases hu
      refine ⟨u, ?_⟩
      rw [hother u hne, Point.keeps, hu]
      rfl
  · intro u hu
    by_cases hut : u = t
    · subst hut
      rw [hself] at hu
      cases hturns with
      | plain hp _ _ => exact absurd hu hp.1
      | shut _ _ hshut hsame => exact hsame ▸ hshut
      | park _ hp _ => cases hu.symm.trans hp
      | stores hp => cases hu.symm.trans hp
      | clears hp _ => cases hu.symm.trans hp
      | goes _ hp _ _ => cases hu.symm.trans hp
    · rw [hother u hut] at hu
      exact absurd (step_in_section h.inv hs (by rw [hu]; rfl)) hut
  · obtain ⟨u, hu⟩ := h.somebody
    by_cases hut : u = t
    · cases hturns with
      | park hq _ _ =>
        obtain ⟨w, hw⟩ := h.keeper (h.parking t hq)
        have hkeeps := (hkept w hw (by rw [hq]; rfl)).2
        refine ⟨w, fun hpark => ?_⟩
        rw [hpark] at hkeeps
        cases hkeeps
      | plain hp _ _ => exact ⟨t, by rw [hself]; exact hp.2⟩
      | shut hp _ _ _ => exact ⟨t, by rw [hself, hp]; decide⟩
      | stores hp => exact ⟨t, by rw [hself, hp]; decide⟩
      | clears hp _ => exact ⟨t, by rw [hself, hp]; decide⟩
      | goes _ hp _ _ => exact ⟨t, by rw [hself, hp]; decide⟩
    · exact ⟨u, by rw [hother u hut]; exact hu⟩

theorem awake_reachable [Nonempty τ] {s : State τ} (h : (machine τ).Reachable s) : Awake s := by
  apply h.invariant
  · intro s hi
    obtain rfl : s = initial := hi
    obtain ⟨t⟩ := ‹Nonempty τ›
    exact ⟨inv_initial, fun hset => absurd rfl hset, fun u hu => (by cases hu),
      ⟨t, fun hpark => (by cases hpark)⟩⟩
  · exact fun _ _ _ hs hstep => awake_step hs hstep

omit [Fintype τ] in
/-- A thread in the section goes on at once. -/
theorem able_in_section {s : State τ} {t : τ} (ht : (s.point t).inSection = true) :
    (step s t).isSome = true := by
  cases hp : s.point t
  case waitMutex | parkWait | leaveWait =>
    rw [hp] at ht
    exact absurd ht Bool.false_ne_true
  all_goals simp [step, hp]

/-- Somebody who is not parked is able to go on. -/
theorem exists_able {s : State τ} (h : Awake s) :
    ∃ t, s.point t ≠ .parkWait ∧ (step s t).isSome = true := by
  by_cases hsection : ∃ t, (s.point t).inSection = true
  · obtain ⟨t, ht⟩ := hsection
    refine ⟨t, fun hpark => ?_, able_in_section ht⟩
    rw [hpark] at ht
    cases ht
  · -- the mutex is open, and who is not parked waits for it
    have hopen : s.mutex = 1 := by
      have hmutex := h.inv.mutex
      have hnone : count Point.inSection s.point = 0 :=
        count_eq_zero.mpr fun t => Bool.eq_false_iff.mpr fun ht => hsection ⟨t, ht⟩
      omega
    obtain ⟨t, ht⟩ := h.somebody
    refine ⟨t, ht, ?_⟩
    have hout : (s.point t).inSection = false := Bool.eq_false_iff.mpr fun hin => hsection ⟨t, hin⟩
    cases hp : s.point t
    case waitMutex | leaveWait => simp [step, hp, semWait, hopen]
    case parkWait => exact absurd hp ht
    all_goals
      rw [hp] at hout
      exact absurd hout.symm Bool.false_ne_true

section Standing

/-- The mutex open, some threads inside at rest, some parked, and the others waiting for the mutex. -/
def standing (inside parked : Finset τ) (mustWait : ℤ) : State τ :=
  ⟨1, 0, inside.card, 0, mustWait,
    fun t => if t ∈ inside then .leaveWait else if t ∈ parked then .parkWait else .waitMutex⟩

variable {inside parked : Finset τ} {t : τ}

theorem count_standing (inside parked : Finset τ) (mustWait : ℤ) :
    count Point.parked (standing inside parked mustWait).point = (parked \ inside).card := by
  rw [count]
  congr 1
  ext u
  rw [Finset.mem_filter, Finset.mem_sdiff]
  simp only [standing, Finset.mem_univ, true_and]
  split_ifs with hin hpark
  · simp [Point.parked, hin]
  · simp [Point.parked, hin, hpark]
  · simp [Point.parked, hpark]

omit [Fintype τ] in
theorem standing_update {mustWait : ℤ} {q : Point} {inside' parked' : Finset τ} {point : τ → Point}
    (hpoint : point = Function.update (standing inside parked mustWait).point t q)
    (hq : q = (standing inside' parked' mustWait).point t)
    (hother : ∀ u, u ≠ t → (u ∈ inside' ↔ u ∈ inside) ∧ (u ∈ parked' ↔ u ∈ parked)) :
    point = (standing inside' parked' mustWait).point := by
  funext u
  rw [hpoint]
  by_cases hut : u = t
  · subst hut
    rw [Function.update_self, hq]
  · obtain ⟨hin, hpark⟩ := hother u hut
    rw [Function.update_of_ne hut]
    simp only [standing, hin, hpark]

omit [Fintype τ]

theorem reachable_enter (h : (machine τ).Reachable (standing inside parked 0)) (hin : t ∉ inside)
    (hpark : t ∉ parked) : (machine τ).Reachable
      (standing (insert t inside) parked (if inside.card + 1 = 3 then 1 else 0)) := by
  have hstate := h.run (run_enter (s := standing inside parked 0) (t := t) rfl rfl rfl
    (by simp [standing, hin, hpark]))
  have hpoint : Function.update (standing inside parked 0).point t .leaveWait =
      (standing (insert t inside) parked 0).point :=
    standing_update rfl (by simp [standing]) fun u hne => by simp [hne]
  have hcard : ((insert t inside).card : ℤ) = inside.card + 1 := by
    rw [Finset.card_insert_of_notMem hin]
    rfl
  have hfull : (if (inside.card : ℤ) + 1 = 3 then (1 : ℤ) else 0) =
      if inside.card + 1 = 3 then 1 else 0 := if_congr (by omega) rfl rfl
  rw [hpoint] at hstate
  rw [standing, hcard, ← hfull]
  exact hstate

theorem reachable_leave {mustWait : ℤ} (h : (machine τ).Reachable (standing inside parked mustWait))
    (hin : t ∈ inside) (hpark : t ∉ parked) (hmore : inside.card ≠ 1) :
    (machine τ).Reachable (standing (inside.erase t) parked mustWait) := by
  have hstate := h.run (run_leave (s := standing inside parked mustWait) (t := t) rfl rfl
    (by show (inside.card : ℤ) ≠ 1; omega) (by simp [standing, hin]))
  have hpoint : Function.update (standing inside parked mustWait).point t .waitMutex =
      (standing (inside.erase t) parked mustWait).point :=
    standing_update rfl (by simp [standing, hpark]) fun u hne => by simp [hne]
  have hcard : ((inside.erase t).card : ℤ) = inside.card - 1 := by
    have hpos := Finset.card_pos.mpr ⟨t, hin⟩
    rw [Finset.card_erase_of_mem hin]
    omega
  rw [hpoint] at hstate
  rw [standing, hcard]
  exact hstate

theorem reachable_park (h : (machine τ).Reachable (standing inside parked 1)) (hin : t ∉ inside)
    (hpark : t ∉ parked) : (machine τ).Reachable (standing inside (insert t parked) 1) := by
  have hstate := h.run (run_park (s := standing inside parked 1) (t := t) rfl one_ne_zero
    (by simp [standing, hin, hpark]))
  have hpoint : Function.update (standing inside parked 1).point t .parkWait =
      (standing inside (insert t parked) 1).point :=
    standing_update rfl (by simp [standing, hin]) fun u hne => by simp [hne]
  rw [hpoint] at hstate
  exact hstate

/-- Everybody who is not inside parks, one after the other. -/
theorem reachable_park_all (h : (machine τ).Reachable (standing inside parked 1)) (more : Finset τ)
    (hmore : ∀ t ∈ more, t ∉ inside ∧ t ∉ parked) :
    (machine τ).Reachable (standing inside (parked ∪ more) 1) := by
  induction more using Finset.induction_on with
  | empty => simpa using h
  | insert t more ht ih =>
    have hfirst := ih fun u hu => hmore u (Finset.mem_insert_of_mem hu)
    obtain ⟨hin, hpark⟩ := hmore t (Finset.mem_insert_self t more)
    rw [Finset.union_insert]
    exact reachable_park hfirst hin (by simp [hpark, ht])

theorem reachable_turn (h : (machine τ).Reachable (standing inside parked 1)) (hin : t ∈ inside)
    (hpark : t ∉ parked) (hmore : inside.card ≠ 1) :
    (machine τ).Reachable (standing (inside.erase t) (insert t parked) 1) :=
  reachable_park (reachable_leave h hin hpark hmore) (Finset.notMem_erase t inside) hpark

end Standing

/-- With three threads or more, all but one of them can be lost: three go in, the others park, and two
of the three come out and park as well. -/
theorem exists_all_but_one_parked (hcard : 3 ≤ Fintype.card τ) :
    ∃ s, (machine τ).Reachable s ∧ count Point.parked s.point + 1 = Fintype.card τ := by
  obtain ⟨a, b, c, hab, hac, hbc⟩ := Fintype.two_lt_card_iff.mp hcard
  have h₀ : (machine τ).Reachable (standing ∅ ∅ 0) := ⟨_, [], rfl, rfl⟩
  have h₁ := reachable_enter (t := a) h₀ (by simp) (by simp)
  have h₂ := reachable_enter (t := b) h₁ (by simp [hab.symm]) (by simp)
  have h₃ := reachable_enter (t := c) h₂ (by simp [hac.symm, hbc.symm]) (by simp)
  simp only [insert_empty_eq, Finset.card_pair hab.symm] at h₃
  have h₄ := reachable_park_all h₃ (Finset.univ \ {c, b, a}) (by simp)
  have h₅ := reachable_turn (t := a) h₄ (by simp) (by simp)
    (by rw [Finset.card_eq_three.mpr ⟨c, b, a, hbc.symm, hac.symm, hab.symm, rfl⟩]; decide)
  have htwo : ({c, b, a} : Finset τ).erase a = {c, b} := by grind
  rw [htwo] at h₅
  have h₆ := reachable_turn (t := b) h₅ (by simp) (by simp [hab.symm])
    (by rw [Finset.card_pair hbc.symm]; decide)
  have hone : ({c, b} : Finset τ).erase b = {c} := by grind
  rw [hone] at h₆
  refine ⟨_, h₆, ?_⟩
  have hrest : insert b (insert a (∅ ∪ Finset.univ \ {c, b, a})) \ {c} = Finset.univ.erase c := by
    grind
  rw [count_standing, hrest, Finset.card_erase_of_mem (Finset.mem_univ c), Finset.card_univ]
  omega

/-- A thread that has found `must_wait` set never runs again, whatever the others do; one thread at
least is left and always has a step to take, and from three threads on a run leaves just that one. -/
theorem parked_for_good_all_but_one [Nonempty τ] :
    (∀ s, (machine τ).Reachable s →
      (∀ t, s.point t = .parkWait → ∀ es s', (machine τ).run s es = some s' →
        s'.point t = .parkWait ∧ t ∉ es) ∧
      ∃ t, s.point t ≠ .parkWait ∧ (step s t).isSome = true) ∧
    (3 ≤ Fintype.card τ →
      ∃ s, (machine τ).Reachable s ∧ count Point.parked s.point + 1 = Fintype.card τ) := by
  refine ⟨fun s h => ?_, exists_all_but_one_parked⟩
  have hawake := awake_reachable h
  exact ⟨fun t ht es s' => parked_for_ever hawake.inv ht, exists_able hawake⟩

theorem parked_for_good_five :
    ∃ s, (machine (Fin 5)).Reachable s ∧ count Point.parked s.point + 1 = 5 :=
  (parked_for_good_all_but_one (τ := Fin 5)).2 (by decide)

end OperatingSystems.SharedResource
