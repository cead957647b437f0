import OperatingSystems.Library.WaitGraph
import OperatingSystems.SearchInsertDelete.Protocol

namespace OperatingSystems.SearchInsertDelete

open Library

/-- The five semaphores. -/
inductive Sem where
  | icounter | scounter | inserterMut | searcherMut | deleterMut
  deriving DecidableEq

def State.value {τ : Type*} (s : State τ) : Sem → ℕ
  | .icounter => s.icounter
  | .scounter => s.scounter
  | .inserterMut => s.inserterMut
  | .searcherMut => s.searcherMut
  | .deleterMut => s.deleterMut

namespace Point

/-- The semaphore of the `sem_wait` at a point. A `sem_trywait` does not block. -/
def waitsOn : Point → Option Sem
  | insWait _ | insExitWait => some .icounter
  | seaWait _ | seaExitWait _ => some .scounter
  | insWaitMut _ | delWaitInserter _ => some .inserterMut
  | seaWaitMut _ | delWaitSearcher _ => some .searcherMut
  | delWaitDeleter _ => some .deleterMut
  | _ => none

/-- A deleter past its `sem_wait(&deleter_mut)` and before its `sem_post`. -/
def holdsDeleter : Point → Bool
  | deleting _ _ | delPostSearcher | delPostInserter | delPostDeleter => true
  | _ => false

/-- Who holds a semaphore: a counter semaphore the thread that changes the counter, a group
semaphore the deleter that took it or the threads of the group. -/
def holds (p : Point) : Sem → Bool
  | .icounter => p.insertPhase.holdsSem
  | .scounter => p.searchPhase.holdsSem
  | .inserterMut => p.holdsInserter || p.insertPhase.member
  | .searcherMut => p.holdsSearcher || p.searchPhase.member
  | .deleterMut => p.holdsDeleter

/-- The node that the next step of a list section reads or writes. -/
def access : Point → Option Addr
  | inserting _ (.storeHeadData a) | inserting _ (.storeHeadNext a) | inserting _ (.testNext a)
  | inserting _ (.loadNext a) | inserting _ (.storeData _ a) | inserting _ (.storeNext _ a)
  | inserting _ (.link a _) => some a
  | searching _ (.testData a) | searching _ (.loadNext a) => some a
  | deleting _ (.testData a _) | deleting _ (.loadNext a) | deleting _ (.loadUnlinkHead a)
  | deleting _ (.loadUnlink a _) | deleting _ (.unlink _ a _) | deleting _ (.free a) => some a
  | _ => none

def mallocs : Point → Bool
  | inserting _ .mallocHead | inserting _ (.malloc _) => true
  | _ => false

end Point

/-- The next access of a list section goes wrong: it follows a pointer to no node, or there is no
memory left. -/
def Faults (m : Mem) (p : Point) : Prop :=
  (∃ a, p.access = some a ∧ m.node a = none) ∨
    p.mallocs = true ∧ ∀ a, a = 0 ∨ (m.node a).isSome = true

variable {τ : Type*}

/-- Thread `t` stands at a `sem_wait` of a semaphore that is closed. -/
def Blocked (s : State τ) (t : τ) : Prop :=
  ∃ m, (s.point t).waitsOn = some m ∧ s.value m = 0

/-- Thread `t` is blocked on a semaphore that `u` holds. -/
def Waits (s : State τ) (t u : τ) : Prop :=
  ∃ m, (s.point t).waitsOn = some m ∧ s.value m = 0 ∧ (s.point u).holds m = true

variable [DecidableEq τ] {role : τ → Role} {s s' : State τ} {t u : τ} {i : Input}

/-- Thread `t` is able to take a step, unless its own access to the list goes wrong. -/
def Able (role : τ → Role) (s : State τ) (t : τ) : Prop :=
  (∃ i, (step role s (t, i)).isSome = true) ∨ Faults s.mem (s.point t)

theorem semWait_isSome {v : ℕ} : (semWait v).isSome = true ↔ v ≠ 0 := by
  cases v <;> simp [semWait]

/-- At a `sem_wait` a step is there exactly when the semaphore is open. -/
theorem step_isSome_of_waitsOn {m : Sem} (h : (s.point t).waitsOn = some m) :
    (step role s (t, i)).isSome = true ↔ s.value m ≠ 0 := by
  cases hp : s.point t <;> simp only [hp, Point.waitsOn, Option.some.injEq, reduceCtorEq] at h <;>
    subst h <;> simp [step, hp, State.value, semWait_isSome]

theorem exists_malloc {m : Mem} (h : ¬ ∀ a, a = 0 ∨ (m.node a).isSome = true) :
    ∃ i, (m.malloc i).isSome = true := by
  push Not at h
  obtain ⟨a, hzero, hfree⟩ := h
  exact ⟨{ addr := a }, (m.malloc_isSome _).mpr ⟨hzero, Option.not_isSome_iff_eq_none.mp hfree⟩⟩

theorem insertStep_isSome {m : Mem} {v : ℤ} {pc : InsertPc} (h : ¬ Faults m (.inserting v pc)) :
    ∃ i, (insertStep m v i pc).isSome = true := by
  cases pc <;> simp only [Faults, Point.access, Point.mallocs, Option.some.injEq, exists_eq_left',
    reduceCtorEq, false_and, exists_false, Bool.false_eq_true, true_and, false_or, or_false] at h
  case mallocHead | malloc =>
    obtain ⟨i, hi⟩ := exists_malloc h
    exact ⟨i, by simpa [insertStep] using hi⟩
  case testHead | storeHead | loadHeadForData | loadHeadForNext | loadIterator =>
    exact ⟨default, rfl⟩
  all_goals
    obtain ⟨n, hn⟩ := Option.ne_none_iff_exists'.mp h
    exact ⟨default, by simp [insertStep, hn]⟩

theorem searchStep_isSome {m : Mem} {v : ℤ} {pc : SearchPc} (h : ¬ Faults m (.searching v pc)) :
    (searchStep m v pc).isSome = true := by
  cases pc <;> simp only [Faults, Point.access, Point.mallocs, Option.some.injEq, exists_eq_left',
    reduceCtorEq, false_and, exists_false, Bool.false_eq_true, or_false] at h
  case loadHead => rfl
  all_goals
    obtain ⟨n, hn⟩ := Option.ne_none_iff_exists'.mp h
    simp [searchStep, hn]

theorem deleteStep_isSome {m : Mem} {v : ℤ} {pc : DeletePc} (h : ¬ Faults m (.deleting v pc)) :
    (deleteStep m v pc).isSome = true := by
  cases pc <;> simp only [Faults, Point.access, Point.mallocs, Option.some.injEq, exists_eq_left',
    reduceCtorEq, false_and, exists_false, Bool.false_eq_true, or_false] at h
  case testHead | loadHead | unlinkHead => rfl
  all_goals
    obtain ⟨n, hn⟩ := Option.ne_none_iff_exists'.mp h
    simp [deleteStep, hn]

/-- Only a closed semaphore keeps a thread from its next step. -/
theorem able_of_not_blocked (h : ¬ Blocked s t) : Able role s t := by
  by_cases hfault : Faults s.mem (s.point t)
  · exact .inr hfault
  cases hw : (s.point t).waitsOn with
  | some m =>
    have hopen : s.value m ≠ 0 := fun hzero => h ⟨m, hw, hzero⟩
    exact .inl ⟨default, (step_isSome_of_waitsOn hw).mpr hopen⟩
  | none =>
    cases hp : s.point t <;> simp only [hp, Point.waitsOn, reduceCtorEq] at hw hfault
    case inserting v pc =>
      obtain ⟨i, hi⟩ := insertStep_isSome hfault
      exact .inl ⟨i, by simpa [step, hp] using hi⟩
    case searching v pc =>
      have hs := searchStep_isSome hfault
      exact .inl ⟨default, by simpa [step, hp] using hs⟩
    case deleting v pc =>
      have hs := deleteStep_isSome hfault
      exact .inl ⟨default, by simpa [step, hp] using hs⟩
    all_goals exact .inl ⟨default, by simp [step, hp]⟩

theorem not_able_of_blocked (h : Blocked s t) : ¬ Able role s t := by
  obtain ⟨m, hw, hzero⟩ := h
  rintro (⟨i, hi⟩ | hfault)
  · exact (step_isSome_of_waitsOn hw).mp hi hzero
  · cases hp : s.point t <;> simp [hp, Point.waitsOn] at hw <;>
      simp [hp, Faults, Point.access, Point.mallocs] at hfault

/-- `deleter_mut` is open or held by one deleter. -/
theorem deleterMut_step [Fintype τ] (hs : step role s (t, i) = some s') :
    s'.deleterMut + count Point.holdsDeleter s'.point =
      s.deleterMut + count Point.holdsDeleter s.point := by
  suffices h : ∃ p, Goes s s' t (s.point t) p ∧ s'.deleterMut + p.holdsDeleter.toNat =
      s.deleterMut + (s.point t).holdsDeleter.toNat by
    obtain ⟨p, hgo, hp⟩ := h
    have hcount := count_update Point.holdsDeleter s.point t p
    rw [hgo.target]
    omega
  generalize hq : s.point t = q
  cases step_does hq hs with
  | delWaitDeleter room => exact ⟨_, ⟨hq, rfl⟩, room.symm⟩
  | _ => exact ⟨_, ⟨hq, rfl⟩, rfl⟩

theorem deleterMut_reachable [Fintype τ] {m : Mem} (h : (machine role m).Reachable s) :
    s.deleterMut + count Point.holdsDeleter s.point = 1 := by
  apply h.invariant (I := fun s => s.deleterMut + count Point.holdsDeleter s.point = 1)
  · intro s hi
    obtain rfl : s = initial m := hi
    rw [show (initial m : State τ).point = fun _ => .idle from rfl, count_const _ _ rfl]
    rfl
  · rintro s ⟨t, i⟩ s' hone hs
    exact (deleterMut_step hs).trans hone

omit [DecidableEq τ] in
/-- A closed room has a holder: the deleter that took it, or a thread of the group. -/
theorem exists_room_holder [Fintype τ] {V : View τ} (h : (V.switch s).Inv) (hzero : V.room s = 0) :
    ∃ u, (V.holds (s.point u) || (V.phase (s.point u)).member) = true := by
  by_cases hothers : count V.holds s.point = 0
  · have hlit : (V.switch s).Lit := show V.room s + count V.holds s.point = 0 by omega
    obtain ⟨u, hu⟩ := Switch.exists_member h hlit
    exact ⟨u, Bool.or_eq_true_iff.mpr (.inr hu)⟩
  · obtain ⟨u, hu⟩ := count_pos.mp (Nat.pos_of_ne_zero hothers)
    exact ⟨u, Bool.or_eq_true_iff.mpr (.inl hu)⟩

omit [DecidableEq τ] in
theorem exists_sem_holder [Fintype τ] {V : View τ} (h : (V.switch s).Inv) (hzero : V.sem s = 0) :
    ∃ u, (V.phase (s.point u)).holdsSem = true := by
  have hsem : V.sem s + count Phase.holdsSem (V.switch s).phase = 1 := h.sem
  exact count_pos.mp (show 0 < count Phase.holdsSem (V.switch s).phase by omega)

theorem exists_holder [Fintype τ] {mem : Mem} (h : (machine role mem).Reachable s) {m : Sem}
    (hzero : s.value m = 0) : ∃ u, (s.point u).holds m = true := by
  obtain ⟨hins, hsea⟩ := switches_reachable h
  cases m with
  | icounter => exact exists_sem_holder hins hzero
  | scounter => exact exists_sem_holder hsea hzero
  | inserterMut => exact exists_room_holder hins hzero
  | searcherMut => exact exists_room_holder hsea hzero
  | deleterMut =>
    have hone := deleterMut_reachable h
    have hclosed : s.deleterMut = 0 := hzero
    exact count_pos.mp (show 0 < count Point.holdsDeleter s.point by omega)

/-- How late each semaphore is waited for: its holder waits only for later ones. -/
def Sem.level : Sem → ℕ
  | .scounter => 0
  | .icounter | .searcherMut => 1
  | .inserterMut => 2
  | .deleterMut => 3

/-- The `sem_wait` of the exit protocols; the group is inside then. -/
def Point.leaves : Point → Bool
  | insExitWait | seaExitWait _ => true
  | _ => false

/-- A thread that leaves its group waits only for threads that are able to step. -/
def Point.rank (p : Point) : ℕ :=
  match p.waitsOn with
  | some m => if p.leaves then 3 else m.level
  | none => 4

theorem Point.rank_le (p : Point) : p.rank ≤ 4 := by
  unfold rank
  split
  next m _ =>
    split_ifs
    · decide
    · cases m <;> decide
  next => exact le_rfl

open Classical in
noncomputable def waitRank (s : State τ) (t : τ) : ℕ :=
  if Blocked s t then (s.point t).rank else 4

omit [DecidableEq τ] in
theorem waitRank_le (s : State τ) (t : τ) : waitRank s t ≤ 4 := by
  unfold waitRank
  split_ifs
  · exact Point.rank_le _
  · exact le_rfl

/-- A holder of a semaphore that waits itself waits for a later one. -/
theorem Point.level_lt_rank {p : Point} {m : Sem} (h : p.holds m = true) : m.level < p.rank := by
  cases m <;> cases p <;> simp [holds, insertPhase, searchPhase, Phase.holdsSem, Phase.member,
    holdsInserter, holdsSearcher, holdsDeleter] at h <;> simp [rank, waitsOn, leaves, Sem.level]

omit [DecidableEq τ] in
/-- While a thread leaves its group, nobody in the counter semaphore waits for the room. -/
theorem phase_ne_waitRoom [Fintype τ] {V : View τ} (h : (V.switch s).Inv)
    (ht : V.phase (s.point t) = .inside) (u : τ) : V.phase (s.point u) ≠ .waitRoom := by
  intro hu
  have hlit := Switch.lit_of_inside h ht
  have hknows := h.knows u
  rw [show (V.switch s).phase u = .waitRoom from hu] at hknows
  exact hknows.1 hlit

omit [DecidableEq τ] in
/-- Whoever keeps a leaving thread waiting is able to step. -/
theorem not_blocked_of_leaves [Fintype τ] (hins : (insertView.switch s).Inv)
    (hsea : (searchView.switch s).Inv) {m : Sem} (hl : (s.point t).leaves = true)
    (hw : (s.point t).waitsOn = some m) (hu : (s.point u).holds m = true) :
    (s.point u).waitsOn = none := by
  cases ht : s.point t <;> simp only [ht, Point.leaves, Bool.false_eq_true, Point.waitsOn,
    Option.some.injEq] at hl hw <;> subst hw
  case insExitWait =>
    have hne : (s.point u).insertPhase ≠ .waitRoom :=
      phase_ne_waitRoom (t := t) hins (by simp [ht, insertView, Point.insertPhase]) u
    cases hp : s.point u <;> simp [hp, Point.holds, Point.insertPhase, Phase.holdsSem] at hu hne <;> rfl
  case seaExitWait =>
    have hne : (s.point u).searchPhase ≠ .waitRoom :=
      phase_ne_waitRoom (t := t) hsea (by simp [ht, searchView, Point.searchPhase]) u
    cases hp : s.point u <;> simp [hp, Point.holds, Point.searchPhase, Phase.holdsSem] at hu hne <;> rfl

omit [DecidableEq τ] in
/-- Waiting climbs the rank. -/
theorem waitRank_lt [Fintype τ] (hins : (insertView.switch s).Inv)
    (hsea : (searchView.switch s).Inv) (h : Waits s t u) : waitRank s t < waitRank s u := by
  obtain ⟨m, hw, hzero, hu⟩ := h
  have ht : waitRank s t = (s.point t).rank := if_pos ⟨m, hw, hzero⟩
  rw [ht, Point.rank, hw]
  by_cases hl : (s.point t).leaves = true
  · have hfree : ¬ Blocked s u := by
      rintro ⟨n, hn, -⟩
      rw [not_blocked_of_leaves hins hsea hl hw hu] at hn
      exact absurd hn nofun
    simp [hl, waitRank, hfree]
  · have hlt : m.level < (s.point u).rank := Point.level_lt_rank hu
    have hle : (s.point u).rank ≤ waitRank s u := by
      unfold waitRank
      split_ifs
      · exact le_rfl
      · exact Point.rank_le _
    simpa [hl] using hlt.trans_le hle

/-- In every reachable state a thread is able to step unless it is blocked, a blocked thread waits
for a holder, and its chain of holders ends at a thread that is able to step; no threads all wait
for one another. -/
theorem never_deadlocks [Fintype τ] {mem : Mem} (h : (machine role mem).Reachable s) :
    (∀ t, Blocked s t ↔ ¬ Able role s t) ∧
    (∀ t, Blocked s t ↔ ∃ u, Waits s t u) ∧
    (∀ t, Blocked s t → ∃ u, Relation.TransGen (Waits s) t u ∧ Able role s u) ∧
    (∀ t, ¬ Relation.TransGen (Waits s) t t) ∧
    ∀ S : Set τ, (∀ t ∈ S, ∃ u ∈ S, Waits s t u) → S = ∅ := by
  obtain ⟨hins, hsea⟩ := switches_reachable h
  have hrank : ∀ t u, Waits s t u → waitRank s t < waitRank s u :=
    fun _ _ => waitRank_lt hins hsea
  have hblocked : ∀ t, Blocked s t → ∃ u, Waits s t u := by
    rintro t ⟨m, hw, hzero⟩
    obtain ⟨u, hu⟩ := exists_holder h hzero
    exact ⟨u, m, hw, hzero, hu⟩
  have hable : ∀ t, Blocked s t ↔ ¬ Able role s t := by
    intro t
    exact ⟨not_able_of_blocked, fun hn => by_contra fun hb => hn (able_of_not_blocked hb)⟩
  have hends := waits_chain_ends (waitRank s) hrank 4 (waitRank_le s)
    fun t hn => hblocked t ((hable t).mpr hn)
  refine ⟨hable, fun t => ⟨hblocked t, ?_⟩, fun t hb => ?_, no_waits_cycle _ hrank,
    fun S hS => no_waiting_set _ hrank 4 (waitRank_le s) hS⟩
  · rintro ⟨u, m, hw, hzero, -⟩
    exact ⟨m, hw, hzero⟩
  · obtain ⟨u, hu⟩ := hblocked t hb
    obtain ⟨v, hv, ha⟩ := hends u
    exact ⟨v, .head' hu hv, ha⟩

/-- A searcher waits for a searcher, that one for a deleter, and the deleter for an inserter that
is able to step. -/
theorem searcher_waits_for_inserter :
    ∃ s, (machine (fun t : Fin 4 => [Role.searcher, .searcher, .deleter, .inserter].get t)
        ⟨0, fun _ => none⟩).run (initial ⟨0, fun _ => none⟩)
        [(3, {}), (3, {}), (3, {}), (3, {}), (3, {}), (3, {}), (2, {}), (2, {}),
          (1, {}), (1, {}), (1, {}), (1, {}), (1, {}), (0, {}), (0, {})] = some s ∧
      Waits s 0 1 ∧ Waits s 1 2 ∧ Waits s 2 3 ∧
      ∃ u, Relation.TransGen (Waits s) 0 u ∧
        Able (fun t : Fin 4 => [Role.searcher, .searcher, .deleter, .inserter].get t) s u := by
  obtain ⟨s, hr, h0, h1, h2⟩ : ∃ s, (machine (fun t : Fin 4 =>
      [Role.searcher, .searcher, .deleter, .inserter].get t) ⟨0, fun _ => none⟩).run
      (initial ⟨0, fun _ => none⟩)
      [(3, {}), (3, {}), (3, {}), (3, {}), (3, {}), (3, {}), (2, {}), (2, {}),
        (1, {}), (1, {}), (1, {}), (1, {}), (1, {}), (0, {}), (0, {})] = some s ∧
      Waits s 0 1 ∧ Waits s 1 2 ∧ Waits s 2 3 :=
    ⟨_, rfl, ⟨.scounter, rfl, rfl, rfl⟩, ⟨.searcherMut, rfl, rfl, rfl⟩, ⟨.inserterMut, rfl, rfl, rfl⟩⟩
  obtain ⟨-, hblocked, hends, -⟩ := never_deadlocks ⟨_, _, rfl, hr⟩
  exact ⟨s, hr, h0, h1, h2, hends 0 ((hblocked 0).mpr ⟨1, h0⟩)⟩

end OperatingSystems.SearchInsertDelete
