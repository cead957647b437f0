import OperatingSystems.SearchInsertDelete.Protocol

namespace OperatingSystems.SearchInsertDelete

open Library

variable {τ : Type*} [DecidableEq τ] {role : τ → Role} {s s' : State τ} {t : τ} {i : Input}

/-- No two threads are between the entry and the exit protocol of `insert`. -/
def InsertersExclude (s : State τ) : Prop :=
  ∀ t u, (s.point t).inInsert = true → (s.point u).inInsert = true → t = u

/-- An insert that increments `insert_counter` finds it 0, so it goes on to take `inserter_mut`. -/
def FirstIn (s : State τ) (e : τ × Input) : Prop :=
  ∀ v, s.point e.1 = .insIncr v → s.insertCounter = 0

theorem insertCounter_step (hle : s.insertCounter ≤ 1) (hfirst : FirstIn s (t, i))
    (hs : step role s (t, i) = some s') : s'.insertCounter ≤ 1 := by
  generalize hq : s.point t = q
  cases step_does hq hs with
  | @insIncr v =>
    have hzero : s.insertCounter = 0 := hfirst v hq
    simp [hzero]
  | insDecr =>
    show s.insertCounter - 1 ≤ 1
    omega
  | _ => exact hle

omit [DecidableEq τ] in
theorem insertersExclude_of_counter [Fintype τ] (h : (insertView.switch s).Inv)
    (hle : s.insertCounter ≤ 1) : InsertersExclude s := by
  intro t u ht hu
  have hcounter : s.insertCounter = count Point.inInsertCount s.point := h.counter
  have hcounted : ∀ t, (s.point t).inInsert = true → (s.point t).inInsertCount = true := by
    intro t ht
    rw [Point.inInsertCount, Point.insertPhase_of_inInsert ht]
    rfl
  exact count_le_one.mp (by omega) t u (hcounted t ht) (hcounted u hu)

/-- The role whose function a point belongs to. -/
def Point.kind : Point → Option Role
  | idle => none
  | insTry _ | insWait _ | insIncr _ | insTest _ | insWaitMut _ | insPost _ | inserting _ _
  | insExitWait | insDecr | insExitTest | insPostMut | insExitPost => some .inserter
  | seaTry _ | seaWait _ | seaIncr _ | seaTest _ | seaTryMut _ | seaWaitMut _ | seaPost _
  | searching _ _ | seaExitWait _ | seaDecr | seaExitTest | seaPostMut | seaExitPost => some .searcher
  | delWaitSearcher _ | delWaitInserter _ | delWaitDeleter _ | deleting _ _
  | delPostSearcher | delPostInserter | delPostDeleter => some .deleter

/-- A step moves one thread to a point of the same function, except that an idle thread starts the
function of its role and a finished call becomes idle. -/
theorem step_goes (hs : step role s (t, i) = some s') : ∃ p, Goes s s' t (s.point t) p ∧
    (p.kind = none ∨ p.kind = (s.point t).kind ∨ p.kind = some (role t) ∧ s.point t = .idle) := by
  generalize hq : s.point t = q
  cases step_does hq hs with
  | callInsert runs | callSearch runs | callDelete runs =>
    rw [runs]
    exact ⟨_, ⟨hq, rfl⟩, .inr (.inr ⟨rfl, rfl⟩)⟩
  | insExitPost | seaExitPost | delPostDeleter => exact ⟨_, ⟨hq, rfl⟩, .inl rfl⟩
  | _ => exact ⟨_, ⟨hq, rfl⟩, .inr (.inl rfl)⟩

theorem point_step {u : τ} (hu : u ≠ t) (hs : step role s (t, i) = some s') :
    s'.point u = s.point u := by
  obtain ⟨p, hgo, -⟩ := step_goes hs
  rw [hgo.target, Function.update_of_ne hu]

/-- Threads run only the function of their role. -/
theorem role_step (h : ∀ u r, (s.point u).kind = some r → role u = r)
    (hs : step role s (t, i) = some s') : ∀ u r, (s'.point u).kind = some r → role u = r := by
  obtain ⟨p, hgo, hkind⟩ := step_goes hs
  refine hgo.forall_points (P := fun u x => ∀ r, x.kind = some r → role u = r) ?_ fun u _ => h u
  intro r hr
  rcases hkind with hnone | hsame | ⟨hrole, -⟩
  · exact absurd (hnone.symm.trans hr) nofun
  · exact h t r (hsame.symm.trans hr)
  · exact Option.some.inj (hrole.symm.trans hr)

theorem role_reachable {m : Mem} (h : (machine role m).Reachable s) :
    ∀ u r, (s.point u).kind = some r → role u = r := by
  refine h.invariant (I := fun s => ∀ u r, (s.point u).kind = some r → role u = r) ?_ ?_
  · intro s hi
    obtain rfl : s = initial m := hi
    intro u r hr
    exact absurd hr nofun
  · rintro s ⟨t, i⟩ s' hs hstep
    exact role_step hs hstep

theorem inserter_of_inInsert {m : Mem} (h : (machine role m).Reachable s)
    (ht : (s.point t).inInsert = true) : role t = .inserter := by
  apply role_reachable h t _
  cases hp : s.point t <;> simp only [hp, Point.inInsert, Bool.false_eq_true] at ht
  rfl

section Schedules

/-- An inserter that finds nobody counted goes in with `inserter_mut`. -/
theorem run_first_in {m : Mem} (hrole : role t = .inserter) (ht : s.point t = .idle)
    (hsem : s.icounter = 1) (hcounter : s.insertCounter = 0) (hmut : s.inserterMut = 1) :
    (machine role m).run s (List.replicate 6 (t, i)) =
      some { s with insertCounter := 1, inserterMut := 0, inserted := i.value ::ₘ s.inserted,
                    point := Function.update s.point t (.inserting i.value .testHead) } := by
  simp [List.replicate, Machine.run, machine, step, State.goto, semTrywait, semWait, semPost, hrole,
    ht, hsem, hcounter, hmut]

/-- The next one goes in without waiting for `inserter_mut`. -/
theorem run_next_in {m : Mem} (hrole : role t = .inserter) (ht : s.point t = .idle)
    (hsem : s.icounter = 1) (hcounter : s.insertCounter = 1) :
    (machine role m).run s (List.replicate 5 (t, i)) =
      some { s with insertCounter := 2, inserted := i.value ::ₘ s.inserted,
                    point := Function.update s.point t (.inserting i.value .testHead) } := by
  simp [List.replicate, Machine.run, machine, step, State.goto, semTrywait, semWait, semPost, hrole,
    ht, hsem, hcounter]

end Schedules

/-- Inserters exclude one another on every run whose inserts all find `insert_counter` 0 when they
increment it; they do so on all runs exactly when at most one thread is an inserter. -/
theorem inserters_exclude_iff [Fintype τ] (role : τ → Role) (m : Mem) :
    (∀ es, (machine role m).Meets FirstIn (initial m) es →
      (machine role m).Always InsertersExclude (initial m) es) ∧
    ((∀ es s, (machine role m).run (initial m) es = some s → InsertersExclude s) ↔
      ∀ t u, role t = .inserter → role u = .inserter → t = u) := by
  refine ⟨fun es h => ?_, fun h t u ht hu => ?_, fun h es s hr t u ht hu => ?_⟩
  · have hinit : (machine role m).Reachable (initial m) := ⟨_, [], rfl, rfl⟩
    have hkeep : (machine role m).Always
        (fun s => (insertView.switch s).Inv ∧ s.insertCounter ≤ 1) (initial m) es := by
      refine Machine.Meets.always ?_ ⟨(switches_reachable hinit).1, zero_le_one⟩ h
      rintro s ⟨t, i⟩ s' ⟨hinv, hle⟩ hfirst hs
      exact ⟨Switch.inv_moves hinv (insert_moves hs), insertCounter_step hle hfirst hs⟩
    exact hkeep.mono fun s hs => insertersExclude_of_counter hs.1 hs.2
  · by_contra hne
    have hfirst := run_first_in (s := initial m) (i := {}) (m := m) ht rfl rfl rfl rfl
    let inside : τ → Point := Function.update (fun _ => .idle) t (.inserting 0 .testHead)
    have hidle : inside u = .idle := Function.update_of_ne (Ne.symm hne) _ _
    have hin : inside t = .inserting 0 .testHead := Function.update_self ..
    have hnext := run_next_in (s := ⟨0, 1, 1, 1, 1, 0, 1, m, inside, {0}, 0⟩) (i := {}) (m := m)
      hu hidle rfl rfl
    refine hne (h _ _ ((Machine.run_trans hfirst).trans hnext) t u ?_ ?_)
    · show (Function.update inside u _ t).inInsert = true
      rw [Function.update_of_ne hne, hin]
      rfl
    · show (Function.update inside u _ u).inInsert = true
      rw [Function.update_self]
      rfl
  · have hreach : (machine role m).Reachable s := ⟨_, es, rfl, hr⟩
    exact h t u (inserter_of_inInsert hreach ht) (inserter_of_inInsert hreach hu)

/-- The first two inserters of `main` stand in the list section together. -/
theorem two_inserters_inside :
    ∃ s, (machine (fun t : Fin 9 => [Role.inserter, .searcher, .deleter].getD (t.val % 3) .deleter)
        ⟨0, fun _ => none⟩).run (initial ⟨0, fun _ => none⟩)
        (List.replicate 6 (0, default) ++ List.replicate 5 (3, default)) = some s ∧
      (s.point 0).inInsert = true ∧ (s.point 3).inInsert = true ∧ ¬ InsertersExclude s :=
  ⟨_, rfl, rfl, rfl, fun h => absurd (h 0 3 rfl rfl) (by decide)⟩

end OperatingSystems.SearchInsertDelete
