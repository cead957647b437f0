import Mathlib.Data.Fin.VecNotation
import OperatingSystems.Sstf.Queue

namespace OperatingSystems.Sstf

open Library

/-- A call of the scheduler, or what the block layer does itself: it moves `q->end_sector`, and it
uses the `queuelist` of the requests that the scheduler does not have. -/
inductive Event (ρ : Type*) where
  | add (rq : ρ)
  | dispatch
  | merged (rq next : ρ)
  | setEndSector (endSector : UInt64)
  | relink (rq : ρ) (next prev : Entry ρ)

/-- The scheduler, and the requests that have been added, handed over and merged away so far. -/
structure History (ρ : Type*) where
  state : State ρ
  added : List ρ
  dispatched : List ρ
  merged : List ρ

section Steps

variable {ρ : Type*} [DecidableEq ρ] [Fintype ρ] (blkRqPos : ρ → UInt64)

def State.relink (s : State ρ) (rq : ρ) (next prev : Entry ρ) : State ρ :=
  { s with links := ⟨Function.update s.links.next (.queuelist rq) next,
      Function.update s.links.prev (.queuelist rq) prev⟩ }

/-- Only requests that are not in the queue are added, and only two that are in it are merged. -/
def historyStep (h : History ρ) : Event ρ → Option (History ρ)
  | .add rq =>
    if rq ∈ pending h.state then none
    else (sstfAddRequest blkRqPos h.state rq).map fun s =>
      { h with state := s, added := rq :: h.added }
  | .dispatch =>
    let (s, rq) := sstfDispatch blkRqPos h.state
    some { h with state := s, dispatched := rq.toList ++ h.dispatched }
  | .merged rq next =>
    if rq ∈ pending h.state ∧ next ∈ pending h.state then
      some { h with state := sstfMergedRequests h.state rq next, merged := next :: h.merged }
    else none
  | .setEndSector e => some { h with state := { h.state with endSector := e } }
  | .relink rq next prev =>
    if rq ∈ pending h.state then none else some { h with state := h.state.relink rq next prev }

def historyMachine : Machine (History ρ) (Event ρ) where
  init h := ∃ endSector, h = ⟨initial endSector, [], [], []⟩
  step := historyStep blkRqPos

end Steps

variable {ρ : Type*} {blkRqPos : ρ → UInt64} {s : State ρ} {q xs ys : List ρ} {rq next : ρ}

/-- An add keeps the order of the requests that are in the queue already. -/
theorem insertRequest_split (blkRqPos : ρ → UInt64) (rq : ρ) (ref : UInt64) (q : List ρ) :
    ∃ as bs, q = as ++ bs ∧ insertRequest blkRqPos rq ref q = as ++ rq :: bs := by
  induction q generalizing ref with
  | nil => exact ⟨[], [], rfl, rfl⟩
  | cons x xs ih =>
    rw [insertRequest]
    split_ifs with hle
    · exact ⟨[], x :: xs, rfl, rfl⟩
    · obtain ⟨as, bs, rfl, hinsert⟩ := ih (blkRqPos x)
      exact ⟨x :: as, bs, rfl, congrArg (x :: ·) hinsert⟩

namespace Queued

variable [DecidableEq ρ]

/-- The entries before and behind a request. -/
theorem former (h : Queued s (xs ++ rq :: ys)) : sstfFormerRequest s rq = xs.getLast? := by
  rw [Queued, List.map_append, List.map_cons] at h
  have hprev := (Links.path_append.mp h.path).1.last
  rw [sstfFormerRequest, hprev]
  rcases List.eq_nil_or_concat xs with rfl | ⟨zs, z, rfl⟩
  · simp
  · simp [listEntry]

theorem latter (h : Queued s (xs ++ rq :: ys)) : sstfLatterRequest s rq = ys.head? := by
  rw [Queued, List.map_append, List.map_cons] at h
  have hpath := (Links.path_append.mp h.path).2
  rw [sstfLatterRequest]
  cases ys with
  | nil => rw [if_pos hpath.1, List.head?_nil]
  | cons y ys =>
    rw [hpath.1.1, if_neg (by simp)]
    rfl

theorem mergedRequests (h : Queued s (xs ++ next :: ys)) (rq : ρ) :
    Queued (sstfMergedRequests s rq next) (xs ++ ys) := by
  rw [Queued, List.map_append, List.map_cons] at h
  rw [Queued, List.map_append]
  exact h.listDelInit.1

/-- The scheduler does not look at requests that are not in its queue. -/
theorem relink (h : Queued s q) (hrq : rq ∉ q) (next prev : Entry ρ) :
    Queued (s.relink rq next prev) q := by
  refine Links.Ring.congr h fun x hx => ?_
  have hne : x ≠ .queuelist rq := by
    intro heq
    subst heq
    exact hrq (mem_entries.mp hx)
  exact ⟨Function.update_of_ne hne _ _, Function.update_of_ne hne _ _⟩

end Queued

variable [DecidableEq ρ] {h h' : History ρ} {e : Event ρ}

/-- The queue is `q`, and what was added is there, was handed over or was merged away. -/
structure Accounted (h : History ρ) (q : List ρ) : Prop where
  queued : Queued h.state q
  count : ∀ rq, h.added.count rq = q.count rq + h.dispatched.count rq + h.merged.count rq

variable [Fintype ρ]

theorem Accounted.step (ha : Accounted h q) (hs : historyStep blkRqPos h e = some h') :
    ∃ q', Accounted h' q' := by
  obtain ⟨hq, hcount⟩ := ha
  have hpending := hq.pending_eq
  cases e with
  | add rq =>
    simp only [historyStep, hpending] at hs
    split_ifs at hs with hmem
    obtain ⟨s', hadd, -, hq', -⟩ := Queued.add blkRqPos hq hmem
    rw [hadd] at hs
    obtain rfl := Option.some.inj hs
    refine ⟨_, hq', fun r => ?_⟩
    obtain ⟨as, bs, rfl, hinsert⟩ := insertRequest_split blkRqPos rq h.state.endSector q
    have hr := hcount r
    rw [hinsert]
    simp only [List.count_cons, List.count_append] at hr ⊢
    omega
  | dispatch =>
    cases q with
    | nil =>
      simp only [historyStep, hq.dispatch_nil] at hs
      obtain rfl := Option.some.inj hs
      exact ⟨[], hq, hcount⟩
    | cons x q =>
      obtain ⟨hfirst, -, -, hq'⟩ := Queued.dispatch_cons blkRqPos hq
      simp only [historyStep, hfirst] at hs
      obtain rfl := Option.some.inj hs
      refine ⟨q, hq', fun r => ?_⟩
      have hr := hcount r
      simp only [Option.toList_some, List.singleton_append, List.count_cons] at hr ⊢
      omega
  | merged rq next =>
    simp only [historyStep, hpending] at hs
    split_ifs at hs with hmem
    obtain rfl := Option.some.inj hs
    obtain ⟨as, bs, rfl⟩ := List.append_of_mem hmem.2
    refine ⟨as ++ bs, hq.mergedRequests rq, fun r => ?_⟩
    have hr := hcount r
    simp only [List.count_cons, List.count_append] at hr ⊢
    omega
  | setEndSector e =>
    simp only [historyStep] at hs
    obtain rfl := Option.some.inj hs
    exact ⟨q, hq, hcount⟩
  | relink rq next prev =>
    simp only [historyStep, hpending] at hs
    split_ifs at hs with hmem
    obtain rfl := Option.some.inj hs
    exact ⟨q, hq.relink hmem next prev, hcount⟩

/-- In every reachable state the queue is accounted for. -/
theorem accounted (hh : (historyMachine blkRqPos).Reachable h) : ∃ q, Accounted h q := by
  refine hh.invariant (I := fun h => ∃ q, Accounted h q) ?_ fun h e h' ⟨q, hq⟩ hs => hq.step hs
  rintro h ⟨e, rfl⟩
  exact ⟨[], Queued.start e, fun _ => rfl⟩

/-- The scheduler has neither lost nor duplicated a request, nor will it with the next call. -/
structure LosesNothing (blkRqPos : ρ → UInt64) (h : History ρ) : Prop where
  ring : h.state.links.Ring .queue ((pending h.state).map .queuelist)
  once : (pending h.state).Nodup
  count : ∀ rq, h.added.count rq =
    (pending h.state).count rq + h.dispatched.count rq + h.merged.count rq
  adds : ∀ rq, rq ∉ pending h.state → ∃ s as bs, sstfAddRequest blkRqPos h.state rq = some s ∧
    pending h.state = as ++ bs ∧ pending s = as ++ rq :: bs
  returns : (sstfDispatch blkRqPos h.state).2.isSome ↔ pending h.state ≠ []
  dispatches : ∀ rq, (sstfDispatch blkRqPos h.state).2 = some rq → rq ∈ h.added
  neighbours : ∀ as rq bs, pending h.state = as ++ rq :: bs →
    sstfFormerRequest h.state rq = as.getLast? ∧ sstfLatterRequest h.state rq = bs.head?

theorem nothing_lost (blkRqPos : ρ → UInt64) (h : History ρ)
    (hh : (historyMachine blkRqPos).Reachable h) : LosesNothing blkRqPos h := by
  obtain ⟨q, hq, hcount⟩ := accounted hh
  have hpending := hq.pending_eq
  have hdispatch : (sstfDispatch blkRqPos h.state).2 = q.head? := by
    cases q with
    | nil => rw [hq.dispatch_nil, List.head?_nil]
    | cons x q => exact (Queued.dispatch_cons blkRqPos hq).1
  refine ⟨?_, ?_, ?_, ?_, ?_, ?_, ?_⟩
  · rw [hpending]
    exact hq
  · rw [hpending]
    exact hq.nodup
  · rw [hpending]
    exact hcount
  · intro rq hrq
    rw [hpending] at hrq ⊢
    obtain ⟨s, hs, -, hq', -⟩ := Queued.add blkRqPos hq hrq
    obtain ⟨as, bs, hsplit, hinsert⟩ := insertRequest_split blkRqPos rq h.state.endSector q
    exact ⟨s, as, bs, hs, hsplit, hq'.pending_eq.trans hinsert⟩
  · rw [hpending, hdispatch]
    simp
  · intro rq hrq
    rw [hdispatch] at hrq
    have hmem : rq ∈ q := List.mem_of_mem_head? hrq
    have hpos := List.count_pos_iff.mpr hmem
    apply List.count_pos_iff.mp
    rw [hcount rq]
    omega
  · intro as rq bs hsplit
    rw [hpending] at hsplit
    subst hsplit
    exact ⟨hq.former, hq.latter⟩

/-- Three requests, of which one is merged away, one is dispatched and one is added again. -/
theorem three_requests_kept : ∃ h : History (Fin 3),
    (historyMachine ![110, 125, 85]).run ⟨initial 100, [], [], []⟩ [.add 0, .add 1, .add 2,
      .merged 0 1, .dispatch, .relink 1 .queue (.queuelist 2), .setEndSector 90, .add 1] = some h ∧
    pending h.state = [2, 1] ∧ h.dispatched = [0] ∧ h.merged = [1] ∧
    LosesNothing ![110, 125, 85] h := by
  obtain ⟨h, hr, hpending, hdispatched, hmerged⟩ : ∃ h : History (Fin 3),
      (historyMachine ![110, 125, 85]).run ⟨initial 100, [], [], []⟩ [.add 0, .add 1, .add 2,
        .merged 0 1, .dispatch, .relink 1 .queue (.queuelist 2), .setEndSector 90, .add 1] = some h ∧
      pending h.state = [2, 1] ∧ h.dispatched = [0] ∧ h.merged = [1] := ⟨_, rfl, rfl, rfl, rfl⟩
  exact ⟨h, hr, hpending, hdispatched, hmerged, nothing_lost _ h ⟨_, _, ⟨100, rfl⟩, hr⟩⟩

end OperatingSystems.Sstf
