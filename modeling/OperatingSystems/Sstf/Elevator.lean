import OperatingSystems.Library.Touches
import OperatingSystems.Sstf.Waiting

namespace OperatingSystems.Sstf

open Library

/-- What `sstf_init_queue` allocates: the `elevator_queue`, and the `sstf_data`. -/
inductive Item where
  | elevator | data
  deriving DecidableEq

inductive Standing where
  | absent | failed | attached | released | bug
  deriving DecidableEq

/-- An elevator, from `sstf_init_queue` to `sstf_exit_queue`. -/
structure Elevator (ρ : Type*) where
  standing : Standing
  history : History ρ
  log : List (Touch Item)

/-- The block layer's calls; an allocation may fail, and new memory holds pointers of any kind. -/
inductive LifeEvent (ρ : Type*) where
  | initQueue (eq sd : Bool) (links : Links (Entry ρ)) (endSector : UInt64)
  | call (e : Event ρ)
  | exitQueue

def ENOMEM : ℤ := 12

section Steps

variable {ρ : Type*} [DecidableEq ρ] [Fintype ρ] (blkRqPos : ρ → UInt64)

/-- `sstf_init_queue`, with what it returns. -/
def sstfInitQueue (v : Elevator ρ) (eq sd : Bool) (links : Links (Entry ρ)) (endSector : UInt64) :
    ℤ × Elevator ρ :=
  if !eq then (-ENOMEM, { v with standing := .failed })
  else if !sd then
    (-ENOMEM, { v with standing := .failed,
                       log := v.log ++ [.acquire .elevator, .release .elevator] })
  else
    (0, ⟨.attached, ⟨⟨links.initListHead .queue, endSector⟩, [], [], []⟩,
      v.log ++ [.acquire .elevator, .acquire .data, .use .elevator, .use .data]⟩)

/-- `sstf_exit_queue` -/
def sstfExitQueue (v : Elevator ρ) : Elevator ρ :=
  if v.history.state.links.listEmpty .queue then
    { v with standing := .released, log := v.log ++ [.use .elevator, .use .data, .release .data] }
  else { v with standing := .bug, log := v.log ++ [.use .elevator, .use .data] }

/-- What a call uses of the memory of the elevator. -/
def callTouches : Event ρ → List (Touch Item)
  | .add _ | .dispatch => [.use .elevator, .use .data]
  | .merged _ _ => [.use .data] -- when the head of the queue is next to the request
  | .setEndSector _ | .relink _ _ _ => []

def lifeStep (v : Elevator ρ) : LifeEvent ρ → Option (Elevator ρ)
  | .initQueue eq sd links endSector =>
    if v.standing = .absent then some (sstfInitQueue v eq sd links endSector).2 else none
  | .call e =>
    if v.standing = .attached then
      (historyStep blkRqPos v.history e).map fun history =>
        { v with history := history, log := v.log ++ callTouches e }
    else none
  | .exitQueue => if v.standing = .attached then some (sstfExitQueue v) else none

def lives : Machine (Elevator ρ) (LifeEvent ρ) where
  init v := v.standing = .absent ∧ v.log = []
  step := lifeStep blkRqPos

end Steps

variable {ρ : Type*} [DecidableEq ρ] [Fintype ρ] {blkRqPos : ρ → UInt64} {v w : Elevator ρ}
  {e : LifeEvent ρ} {q : List ρ}

/-- Nothing that has been allocated is given back yet. -/
def NoRelease (log : List (Touch Item)) : Prop := ∀ i, .release i ∉ log

/-- What holds of an elevator at each of its points. -/
def Sound (v : Elevator ρ) : Prop :=
  match v.standing with
  | .absent => v.log = []
  | .failed => v.log = [] ∨ v.log = [.acquire .elevator, .release .elevator]
  | .attached => (∃ q, Accounted v.history q) ∧ NoRelease v.log
  | .bug => (∃ q, q ≠ [] ∧ Accounted v.history q) ∧ NoRelease v.log
  | .released => Accounted v.history [] ∧ ∃ log, NoRelease log ∧ v.log = log ++ [.release .data]

omit [DecidableEq ρ] [Fintype ρ] in
theorem noRelease_callTouches (e : Event ρ) : NoRelease (callTouches e) := by
  intro i
  cases e <;> simp [callTouches]

theorem NoRelease.append {log log' : List (Touch Item)} (h : NoRelease log) (h' : NoRelease log') :
    NoRelease (log ++ log') := by
  intro i hi
  exact (List.mem_append.mp hi).elim (h i) (h' i)

omit [Fintype ρ] in
/-- `INIT_LIST_HEAD` makes an empty queue of whatever the memory held. -/
theorem queued_init (links : Links (Entry ρ)) (endSector : UInt64) :
    Queued ⟨links.initListHead .queue, endSector⟩ [] := by
  refine ⟨⟨?_, ?_⟩, List.nodup_singleton _⟩
  · simp [Links.initListHead]
  · simp [Links.initListHead]

omit [Fintype ρ] in
theorem sound_initQueue (hv : v.log = []) (eq sd : Bool) (links : Links (Entry ρ))
    (endSector : UInt64) : Sound (sstfInitQueue v eq sd links endSector).2 := by
  rw [sstfInitQueue]
  cases eq with
  | false => exact .inl hv
  | true =>
    cases sd with
    | false =>
      right
      simp [hv]
    | true =>
      refine ⟨⟨[], queued_init links endSector, fun _ => rfl⟩, ?_⟩
      intro i
      simp [hv]

omit [Fintype ρ] in
theorem sound_exitQueue {v : Elevator ρ} (hq : Accounted v.history q) (hlog : NoRelease v.log) :
    Sound (sstfExitQueue v) ∧ ((sstfExitQueue v).standing = .released ↔ q = []) := by
  have htouched : NoRelease (v.log ++ [.use .elevator, .use .data]) :=
    hlog.append (by intro i; simp)
  rw [sstfExitQueue]
  by_cases hempty : q = []
  · rw [if_pos (hq.queued.empty_iff.mpr hempty)]
    subst hempty
    refine ⟨⟨hq, _, htouched, ?_⟩, by simp⟩
    simp
  · rw [if_neg (hq.queued.empty_iff.not.mpr hempty)]
    exact ⟨⟨⟨q, hempty, hq⟩, htouched⟩, by simp [hempty]⟩

theorem sound_step (hv : Sound v) (hs : lifeStep blkRqPos v e = some w) : Sound w := by
  cases e with
  | initQueue eq sd links endSector =>
    simp only [lifeStep] at hs
    split_ifs at hs with habsent
    obtain rfl := Option.some.inj hs
    rw [Sound, habsent] at hv
    exact sound_initQueue hv eq sd links endSector
  | call e =>
    simp only [lifeStep] at hs
    split_ifs at hs with hattached
    obtain ⟨h', hh, rfl⟩ := Option.map_eq_some_iff.mp hs
    rw [Sound, hattached] at hv
    obtain ⟨⟨q, hq⟩, hlog⟩ := hv
    rw [Sound, hattached]
    exact ⟨hq.step hh, hlog.append (noRelease_callTouches e)⟩
  | exitQueue =>
    simp only [lifeStep] at hs
    split_ifs at hs with hattached
    obtain rfl := Option.some.inj hs
    rw [Sound, hattached] at hv
    obtain ⟨⟨q, hq⟩, hlog⟩ := hv
    exact (sound_exitQueue hq hlog).1

theorem sound (hv : (lives blkRqPos).Reachable v) : Sound v := by
  refine hv.invariant (I := Sound) ?_ fun v e w hv hs => sound_step hv hs
  rintro v ⟨habsent, hlog⟩
  rwa [Sound, habsent]

/-- Dispatches take the requests from the front of the queue, as long as there are any. -/
theorem run_dispatches (blkRqPos : ρ → UInt64) {h : History ρ} (log : List (Touch Item))
    (hq : Queued h.state q) (n : ℕ) :
    ∃ w, (lives blkRqPos).run ⟨.attached, h, log⟩ (List.replicate n (.call .dispatch)) = some w ∧
      w.standing = .attached ∧ Queued w.history.state (q.drop n) := by
  induction n generalizing h log q with
  | zero => exact ⟨_, rfl, rfl, hq⟩
  | succ n ih =>
    obtain ⟨h₁, hs₁, hstate⟩ : ∃ h₁, historyStep blkRqPos h .dispatch = some h₁ ∧
        h₁.state = (sstfDispatch blkRqPos h.state).1 := ⟨_, rfl, rfl⟩
    have hq₁ : Queued h₁.state q.tail := by
      rw [hstate]
      cases q with
      | nil => rwa [hq.dispatch_nil]
      | cons x q => exact (Queued.dispatch_cons blkRqPos hq).2.2.2
    obtain ⟨w, hr, hstanding, hqw⟩ := ih (log ++ callTouches (.dispatch : Event ρ)) hq₁
    refine ⟨w, ?_, hstanding, ?_⟩
    · have hs : (lives blkRqPos).step ⟨.attached, h, log⟩ (.call .dispatch) =
          some ⟨.attached, h₁, log ++ callTouches (.dispatch : Event ρ)⟩ := by
        simp [lives, lifeStep, hs₁]
      rw [List.replicate_succ, Machine.run_cons hs, hr]
    · rwa [List.drop_tail] at hqw

/-- What an elevator leaves behind, and when its end is a bug. -/
structure EndsWell (blkRqPos : ρ → UInt64) (v : Elevator ρ) : Prop where
  usedInTime : Touch.UsedInTime v.log
  failed : v.standing = .failed → Touch.Settled v.log
  released : v.standing = .released →
    (∀ rq, v.history.added.count rq = v.history.dispatched.count rq + v.history.merged.count rq) ∧
    v.log.count (.release .data) = 1 ∧ v.log.count (.release .elevator) = 0
  bug : v.standing = .bug → ∃ rq,
    v.history.dispatched.count rq + v.history.merged.count rq < v.history.added.count rq
  drained : v.standing = .attached → ∀ n, ∃ w, (lives blkRqPos).run v
      (List.replicate n (.call .dispatch) ++ [.exitQueue]) = some w ∧
    (w.standing = .released ↔ (pending v.history.state).length ≤ n)

omit [Fintype ρ] in
theorem Sound.usedInTime (hv : Sound v) : Touch.UsedInTime v.log := by
  cases hp : v.standing with
  | absent =>
    rw [Sound, hp] at hv
    exact Touch.usedInTime_of_not_mem (by simp [hv])
  | failed =>
    rw [Sound, hp] at hv
    rcases hv with hv | hv
    · exact Touch.usedInTime_of_not_mem (by simp [hv])
    · exact Touch.usedInTime_of_not_mem (by simp [hv])
  | attached =>
    rw [Sound, hp] at hv
    exact Touch.usedInTime_of_no_release hv.2
  | bug =>
    rw [Sound, hp] at hv
    exact Touch.usedInTime_of_no_release hv.2
  | released =>
    rw [Sound, hp] at hv
    obtain ⟨-, log, hlog, heq⟩ := hv
    rw [heq]
    exact (Touch.usedInTime_of_no_release hlog).concat_release .data

theorem settled_failed {log : List (Touch Item)}
    (h : log = [] ∨ log = [.acquire .elevator, .release .elevator]) : Touch.Settled log := by
  intro i hi
  rcases h with rfl | rfl
  · exact absurd hi List.not_mem_nil
  · obtain rfl : i = .elevator := by simpa using hi
    decide

/-- Whatever fails in `sstf_init_queue` and whatever the block layer calls, all that is allocated is
given back once; `sstf_exit_queue` is a bug just when a request has been added that has neither been
handed over nor merged away, and dispatches enough come before it safely. -/
theorem elevators_end_well (blkRqPos : ρ → UInt64) (hv : (lives blkRqPos).Reachable v) :
    EndsWell blkRqPos v := by
  have hsound := sound hv
  refine ⟨hsound.usedInTime, fun hp => ?_, fun hp => ?_, fun hp => ?_, fun hp n => ?_⟩
  · rw [Sound, hp] at hsound
    exact settled_failed hsound
  · rw [Sound, hp] at hsound
    obtain ⟨hq, log, hlog, heq⟩ := hsound
    refine ⟨fun rq => ?_, ?_, ?_⟩
    · rw [hq.count rq, List.count_nil, Nat.zero_add]
    · rw [heq, List.count_append, List.count_eq_zero.mpr (hlog .data)]
      rfl
    · rw [heq, List.count_append, List.count_eq_zero.mpr (hlog .elevator)]
      rfl
  · rw [Sound, hp] at hsound
    obtain ⟨⟨q, hne, hq⟩, -⟩ := hsound
    obtain ⟨x, hx⟩ := List.exists_mem_of_ne_nil q hne
    refine ⟨x, ?_⟩
    have hpos := List.count_pos_iff.mpr hx
    have hcount := hq.count x
    omega
  · have hattached := hsound
    rw [Sound, hp] at hattached
    obtain ⟨⟨q, hq⟩, -⟩ := hattached
    obtain ⟨standing, history, log⟩ := v
    obtain rfl : standing = .attached := hp
    obtain ⟨w, hr, hstanding, hqw⟩ := run_dispatches blkRqPos log hq.queued n
    have hw := sound (hv.run hr)
    rw [Sound, hstanding] at hw
    obtain ⟨⟨q', hq'⟩, hlog⟩ := hw
    obtain rfl : q' = q.drop n := hq'.queued.pending_eq.symm.trans hqw.pending_eq
    refine ⟨sstfExitQueue w, ?_, ?_⟩
    · rw [Machine.run_trans hr]
      apply Machine.run_single
      simp [lives, lifeStep, hstanding]
    · rw [(sound_exitQueue hq' hlog).2, hq.queued.pending_eq, List.drop_eq_nil_iff]

/-- A request is left in a queue that was made of uninitialized memory. -/
theorem elevator_ends_in_bug : ∃ v : Elevator (Fin 2),
    (lives ![110, 125]).run ⟨.absent, ⟨initial 0, [], [], []⟩, []⟩
      [.initQueue true true ⟨fun _ => .queuelist 0, fun _ => .queuelist 1⟩ 100, .call (.add 0),
        .call (.add 1), .call .dispatch, .exitQueue] = some v ∧
    v.standing = .bug ∧ pending v.history.state = [1] ∧ EndsWell ![110, 125] v := by
  obtain ⟨v, hr, hstanding, hpending⟩ : ∃ v : Elevator (Fin 2),
      (lives ![110, 125]).run ⟨.absent, ⟨initial 0, [], [], []⟩, []⟩
        [.initQueue true true ⟨fun _ => .queuelist 0, fun _ => .queuelist 1⟩ 100, .call (.add 0),
          .call (.add 1), .call .dispatch, .exitQueue] = some v ∧
      v.standing = .bug ∧ pending v.history.state = [1] := ⟨_, rfl, rfl, rfl⟩
  exact ⟨v, hr, hstanding, hpending, elevators_end_well _ ⟨_, _, ⟨rfl, rfl⟩, hr⟩⟩

end OperatingSystems.Sstf
