import OperatingSystems.Library.Machine
import OperatingSystems.Library.Threads

namespace OperatingSystems.SharedResource

open Library

/-- The program points of `shareable`, each before the statement it names. -/
inductive Point where
  | waitMutex
  | testMustWait | parkPost | parkWait | resume
  | enter | testFull | setMustWait | clearMustWait
  | testWaiting | enterPostBlocker | enterPostMutex
  | leaveWait | leave | testEmpty | emptyClear
  | leaveTestWaiting | leavePostBlocker | leavePostMutex
  deriving DecidableEq

/-- The two semaphores, the three shared variables, and where every thread stands. -/
structure State (τ : Type*) where
  mutex : ℕ
  blocker : ℕ
  active : ℤ
  waiting : ℤ
  mustWait : ℤ
  point : τ → Point

variable {τ : Type*}

def State.goto [DecidableEq τ] (s : State τ) (t : τ) (p : Point) : State τ :=
  { s with point := Function.update s.point t p }

/-- What `main` sets up; the uninitialised globals start at zero. -/
def initial : State τ := ⟨1, 0, 0, 0, 0, fun _ => .waitMutex⟩

/-- The next statement of thread `t` in `shareable`. -/
def step [DecidableEq τ] (s : State τ) (t : τ) : Option (State τ) :=
  match s.point t with
  | .waitMutex => (semWait s.mutex).map fun v => { s.goto t .testMustWait with mutex := v }
  | .testMustWait => some (s.goto t (if s.mustWait ≠ 0 then .parkPost else .enter))
  | .parkPost => some { s.goto t .parkWait with mutex := semPost s.mutex }
  | .parkWait => (semWait s.blocker).map fun v => { s.goto t .resume with blocker := v }
  | .resume => some { s.goto t .enter with waiting := s.waiting - 1 }
  | .enter => some { s.goto t .testFull with active := s.active + 1 }
  | .testFull => some (s.goto t (if s.active = 3 then .setMustWait else .clearMustWait))
  | .setMustWait => some { s.goto t .testWaiting with mustWait := 1 }
  | .clearMustWait => some { s.goto t .testWaiting with mustWait := 0 }
  | .testWaiting => some (s.goto t
      (if s.waiting > 0 ∧ s.mustWait = 0 then .enterPostBlocker else .enterPostMutex))
  | .enterPostBlocker => some { s.goto t .leaveWait with blocker := semPost s.blocker }
  | .enterPostMutex => some { s.goto t .leaveWait with mutex := semPost s.mutex }
  | .leaveWait => (semWait s.mutex).map fun v => { s.goto t .leave with mutex := v }
  | .leave => some { s.goto t .testEmpty with active := s.active - 1 }
  | .testEmpty => some (s.goto t (if s.active = 0 then .emptyClear else .leaveTestWaiting))
  | .emptyClear => some { s.goto t .leaveTestWaiting with mustWait := 0 }
  | .leaveTestWaiting => some (s.goto t
      (if s.waiting ≠ 0 ∧ s.mustWait = 0 then .leavePostBlocker else .leavePostMutex))
  | .leavePostBlocker => some { s.goto t .waitMutex with blocker := semPost s.blocker }
  | .leavePostMutex => some { s.goto t .waitMutex with mutex := semPost s.mutex }

/-- Any number of threads running `shareable` for ever. -/
def machine (τ : Type*) [DecidableEq τ] : Machine (State τ) τ where
  init s := s = initial
  step := step

/-- Between taking `mutex`, or being handed it through `blocker`, and giving it away. -/
def Point.inSection : Point → Bool
  | waitMutex | parkWait | leaveWait => false
  | _ => true

/-- Between the increment and the decrement of `active`. -/
def Point.inside : Point → Bool
  | testFull | setMustWait | clearMustWait | testWaiting | enterPostBlocker | enterPostMutex
  | leaveWait | leave => true
  | _ => false

/-- Past the `sem_post(&mutex)` of the `must_wait` branch and not yet resumed. -/
def Point.parked : Point → Bool
  | parkWait => true
  | _ => false

/-- Once three threads are inside, `must_wait` keeps the others out. -/
def Gate (s : State τ) : Prop := s.active ≤ 3 ∧ (s.active = 3 → s.mustWait ≠ 0)

/-- What a thread standing at a point inside the section knows of the shared variables. -/
def Knows (s : State τ) : Point → Prop
  | .waitMutex | .parkWait | .leaveWait => True
  | .resume | .enterPostBlocker | .leavePostBlocker => False
  | .enter => s.mustWait = 0 ∧ s.active ≤ 2
  | .testFull => s.mustWait = 0 ∧ s.active ≤ 3
  | .setMustWait => s.active = 3
  | .clearMustWait => s.active ≤ 2
  | .emptyClear => s.active = 0
  | _ => Gate s

theorem knows_of_not_inSection (s : State τ) {p : Point} (h : p.inSection = false) : Knows s p := by
  cases p <;> simp [Point.inSection] at h <;> trivial

variable [Fintype τ]

/-- `waiting` is never incremented, so `blocker` is never posted and `mutex` is an ordinary
mutex: this is what every run of the code keeps. -/
structure Inv (s : State τ) : Prop where
  blocker : s.blocker = 0
  waiting : s.waiting = 0
  mutex : s.mutex + count Point.inSection s.point = 1
  active : s.active = count Point.inside s.point
  gate : s.mutex = 1 → Gate s
  knows : ∀ t, Knows s (s.point t)

theorem inv_initial : Inv (initial : State τ) where
  blocker := rfl
  waiting := rfl
  mutex := by rw [initial, count_const _ _ rfl]
  active := by rw [initial, count_const _ _ rfl]; rfl
  gate _ := by simp [Gate, initial]
  knows _ := trivial

variable [DecidableEq τ]

/-- While a thread is in the section, every other thread stands at a `sem_wait` and is blocked. -/
theorem step_in_section {s s' : State τ} {t u : τ} (h : Inv s) (hs : step s t = some s')
    (hu : (s.point u).inSection = true) : u = t := by
  have hpos : 0 < count Point.inSection s.point := count_pos.mpr ⟨u, hu⟩
  have hmutex := h.mutex
  have hblocker := h.blocker
  have hle : count Point.inSection s.point ≤ 1 := by omega
  by_cases ht : (s.point t).inSection = true
  · exact count_le_one.mp hle u t hu ht
  · cases hp : s.point t <;> simp [hp, Point.inSection] at ht <;>
      simp [step, hp] at hs <;> omega

/-- One thread moves from `q` to `p`, taking or giving away the mutex and counting itself in or
out as the two classes of points say; those outside the section know nothing it could spoil. -/
theorem inv_move {s s' : State τ} {t : τ} {q : Point} (h : Inv s) (hs : step s t = some s')
    (hq : s.point t = q) (p : Point) (hgate : s'.mutex = 1 → Gate s') (hknows : Knows s' p)
    (hmutex : s'.mutex + p.inSection.toNat = s.mutex + q.inSection.toNat := by rfl)
    (hactive : s'.active + q.inside.toNat = s.active + p.inside.toNat := by rfl)
    (hpoint : s'.point = Function.update s.point t p := by rfl)
    (hblocker : s'.blocker = s.blocker := by rfl)
    (hwaiting : s'.waiting = s.waiting := by rfl) : Inv s' where
  blocker := hblocker.trans h.blocker
  waiting := hwaiting.trans h.waiting
  mutex := by
    have hcount := count_update Point.inSection s.point t p
    have := h.mutex
    rw [hpoint]
    rw [hq] at hcount
    omega
  active := by
    have hcount := count_update Point.inside s.point t p
    have := h.active
    rw [hpoint]
    rw [hq] at hcount
    omega
  gate := hgate
  knows u := by
    by_cases hu : u = t
    · subst u
      simpa [hpoint] using hknows
    · rw [hpoint, Function.update_of_ne hu]
      apply knows_of_not_inSection _
      by_contra hne
      exact hu (step_in_section h hs (by simpa using hne))

theorem inv_step {s s' : State τ} {t : τ} (h : Inv s) (hs : step s t = some s') : Inv s' := by
  have hknows := h.knows t
  have hwaiting := h.waiting
  have hblocker := h.blocker
  have hlocked : (s.point t).inSection = true → s.mutex = 1 → False := fun ht hm => by
    have := count_pos.mpr ⟨t, ht⟩
    have := h.mutex
    omega
  have hstep := hs
  cases hp : s.point t <;>
    simp only [hp, Knows] at hknows hlocked <;>
    simp only [step, hp, Option.some.injEq, Option.map_eq_some_iff, semWait_eq_some] at hs
  case waitMutex =>
    obtain ⟨v, hv, rfl⟩ := hs
    have hm := h.mutex
    exact inv_move h hstep hp .testMustWait (fun _ => h.gate (by omega)) (h.gate (by omega)) hv.symm
  case testMustWait =>
    split_ifs at hs with hwait <;> subst hs
    · exact inv_move h hstep hp .parkPost (fun _ => hknows) hknows
    · have hlt : s.active ≤ 2 := by
        have := hknows.1
        have := mt hknows.2 hwait
        omega
      exact inv_move h hstep hp .enter (fun _ => hknows) ⟨not_not.mp hwait, hlt⟩
  case parkPost =>
    subst hs
    exact inv_move h hstep hp .parkWait (fun _ => hknows) trivial
  case parkWait =>
    obtain ⟨v, hv, rfl⟩ := hs
    omega
  case enter =>
    subst hs
    exact inv_move h hstep hp .testFull (fun hm => (hlocked rfl hm).elim)
      ⟨hknows.1, by simp only; omega⟩ rfl (by simp [Point.inside])
  case testFull =>
    split_ifs at hs with hfull <;> subst hs
    · exact inv_move h hstep hp .setMustWait (fun hm => (hlocked rfl hm).elim) hfull
    · exact inv_move h hstep hp .clearMustWait (fun hm => (hlocked rfl hm).elim)
        (by simp only [Knows, State.goto]; omega)
  case setMustWait =>
    subst hs
    have hgate : Gate { s.goto t .testWaiting with mustWait := 1 } := ⟨hknows.le, fun _ => one_ne_zero⟩
    exact inv_move h hstep hp .testWaiting (fun _ => hgate) hgate
  case clearMustWait =>
    subst hs
    have hgate : Gate { s.goto t .testWaiting with mustWait := 0 } := by
      refine ⟨?_, ?_⟩ <;> simp only [State.goto] <;> omega
    exact inv_move h hstep hp .testWaiting (fun _ => hgate) hgate
  case testWaiting =>
    rw [if_neg (by omega)] at hs
    subst hs
    exact inv_move h hstep hp .enterPostMutex (fun _ => hknows) hknows
  case enterPostMutex =>
    subst hs
    exact inv_move h hstep hp .leaveWait (fun _ => hknows) trivial
  case leaveWait =>
    obtain ⟨v, hv, rfl⟩ := hs
    have hm := h.mutex
    exact inv_move h hstep hp .leave (fun _ => h.gate (by omega)) (h.gate (by omega)) hv.symm
  case leave =>
    subst hs
    have hgate : Gate { s.goto t .testEmpty with active := s.active - 1 } := by
      have := hknows.1
      refine ⟨?_, ?_⟩ <;> simp only [State.goto] <;> omega
    exact inv_move h hstep hp .testEmpty (fun _ => hgate) hgate rfl (by simp [Point.inside])
  case testEmpty =>
    split_ifs at hs with hempty <;> subst hs
    · exact inv_move h hstep hp .emptyClear (fun _ => hknows) hempty
    · exact inv_move h hstep hp .leaveTestWaiting (fun _ => hknows) hknows
  case emptyClear =>
    subst hs
    have hgate : Gate { s.goto t .leaveTestWaiting with mustWait := 0 } := by
      refine ⟨?_, ?_⟩ <;> simp only [State.goto] <;> omega
    exact inv_move h hstep hp .leaveTestWaiting (fun _ => hgate) hgate
  case leaveTestWaiting =>
    rw [if_neg (by omega)] at hs
    subst hs
    exact inv_move h hstep hp .leavePostMutex (fun _ => hknows) hknows
  case leavePostMutex =>
    subst hs
    exact inv_move h hstep hp .waitMutex (fun _ => hknows) trivial

theorem inv_reachable {s : State τ} (h : (machine τ).Reachable s) : Inv s := by
  apply h.invariant
  · intro s hi
    obtain rfl : s = initial := hi
    exact inv_initial
  · intro s t s' hs hstep
    exact inv_step hs hstep

end OperatingSystems.SharedResource
