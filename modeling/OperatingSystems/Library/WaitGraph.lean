import Mathlib.Logic.Relation
import Mathlib.Data.Finset.Insert
import Mathlib.Data.Finset.Erase
import OperatingSystems.Library.Machine

namespace OperatingSystems.Library

section WaitGraph

variable {τ : Type*} {waits : τ → τ → Prop} (rank : τ → ℕ)
  (hrank : ∀ t u, waits t u → rank t < rank u)

include hrank

theorem rank_lt_of_waits_chain {t u : τ} (h : Relation.TransGen waits t u) : rank t < rank u := by
  induction h with
  | single h => exact hrank _ _ h
  | tail _ h ih => exact ih.trans (hrank _ _ h)

/-- Waiting that always climbs a rank has no cycle. -/
theorem no_waits_cycle (t : τ) : ¬ Relation.TransGen waits t t :=
  fun h => (rank_lt_of_waits_chain rank hrank h).false

/-- If every thread that is not able to step waits for another, and waiting climbs a bounded
rank, then every chain of waits ends at a thread that is able to step. -/
theorem waits_chain_ends (bound : ℕ) (hbound : ∀ t, rank t ≤ bound) {able : τ → Prop}
    (hblocked : ∀ t, ¬ able t → ∃ u, waits t u) (t : τ) :
    ∃ u, Relation.ReflTransGen waits t u ∧ able u := by
  induction hn : bound - rank t using Nat.strong_induction_on generalizing t with
  | _ n ih =>
    by_cases ha : able t
    · exact ⟨t, .refl, ha⟩
    obtain ⟨u, hu⟩ := hblocked t ha
    have hlt := hrank t u hu
    have hle := hbound u
    obtain ⟨v, hv, hav⟩ := ih (bound - rank u) (by omega) u rfl
    exact ⟨v, .head hu hv, hav⟩

/-- No threads all wait for one another, in whatever pattern. -/
theorem no_waiting_set (bound : ℕ) (hbound : ∀ t, rank t ≤ bound) {S : Set τ}
    (hS : ∀ t ∈ S, ∃ u ∈ S, waits t u) : S = ∅ := by
  apply Set.eq_empty_of_forall_notMem
  intro t ht
  induction hn : bound - rank t using Nat.strong_induction_on generalizing t with
  | _ n ih =>
    obtain ⟨u, hu, hw⟩ := hS t ht
    have hlt := hrank t u hw
    have hle := hbound u
    exact ih (bound - rank u) (by omega) u hu rfl

end WaitGraph

/-- What a program point does to the mutexes. -/
inductive MutexOp (μ : Type*) where
  | lock (m : μ)
  | unlock (m : μ)
  | other

/-- One cyclic program over mutexes, run by every thread with its own choice of mutexes. -/
structure MutexProgram (τ μ π : Type*) where
  start : π
  op : τ → π → MutexOp μ
  next : π → π

/-- Who holds each mutex, and where each thread stands. -/
structure MutexState (τ μ π : Type*) where
  owner : μ → Option τ
  point : τ → π

namespace MutexProgram

variable {τ μ π : Type*} [DecidableEq τ] [DecidableEq μ] (P : MutexProgram τ μ π)

def goto (s : MutexState τ μ π) (t : τ) (owner : μ → Option τ) : MutexState τ μ π :=
  ⟨owner, Function.update s.point t (P.next (s.point t))⟩

/-- One step of thread `t`: locking a mutex that somebody holds blocks. -/
def step (s : MutexState τ μ π) (t : τ) : Option (MutexState τ μ π) :=
  match P.op t (s.point t) with
  | .lock m => if s.owner m = none then some (P.goto s t (Function.update s.owner m (some t))) else none
  | .unlock m => some (P.goto s t (Function.update s.owner m none))
  | .other => some (P.goto s t s.owner)

def machine : Machine (MutexState τ μ π) τ where
  init s := s = ⟨fun _ => none, fun _ => P.start⟩
  step := P.step

/-- Thread `t` is blocked on a mutex that `u` holds. -/
def Waits (s : MutexState τ μ π) (t u : τ) : Prop :=
  ∃ m, P.op t (s.point t) = .lock m ∧ s.owner m = some u

/-- Thread `t` is able to take a step. -/
def Able (s : MutexState τ μ π) (t : τ) : Prop := (P.step s t).isSome = true

/-- A static account of the mutexes held at each point: each lock is of a mutex not held yet,
each unlock of one that is held. -/
structure Discipline (holds : τ → π → Finset μ) : Prop where
  start : ∀ t, holds t P.start = ∅
  lock : ∀ t p m, P.op t p = .lock m → m ∉ holds t p ∧ holds t (P.next p) = insert m (holds t p)
  unlock : ∀ t p m, P.op t p = .unlock m →
    m ∈ holds t p ∧ holds t (P.next p) = (holds t p).erase m
  other : ∀ t p, P.op t p = .other → holds t (P.next p) = holds t p

/-- The owners are exactly the threads whose point says that they hold the mutex. -/
def Owned (holds : τ → π → Finset μ) (s : MutexState τ μ π) : Prop :=
  ∀ m t, s.owner m = some t ↔ m ∈ holds t (s.point t)

variable {P} {holds : τ → π → Finset μ}

omit [DecidableEq μ] in
theorem owned_goto {s : MutexState τ μ π} {t : τ} {owner : μ → Option τ}
    (hother : ∀ m u, u ≠ t → (owner m = some u ↔ s.owner m = some u))
    (hself : ∀ m, owner m = some t ↔ m ∈ holds t (P.next (s.point t)))
    (h : Owned holds s) : Owned holds (P.goto s t owner) := by
  intro m u
  by_cases hu : u = t
  · subst u
    simpa [goto] using hself m
  · simp only [goto, Function.update_of_ne hu]
    exact (hother m u hu).trans (h m u)

theorem owned_step (hd : P.Discipline holds) {s s' : MutexState τ μ π} {t : τ}
    (h : Owned holds s) (hs : P.step s t = some s') : Owned holds s' := by
  unfold step at hs
  split at hs
  next m hop =>
    split_ifs at hs with hfree
    obtain rfl := Option.some.inj hs
    obtain ⟨-, hnext⟩ := hd.lock t _ m hop
    refine owned_goto (fun n u hu => ?_) (fun n => ?_) h
    · by_cases hn : n = m
      · subst n
        simp [hfree, Ne.symm hu]
      · rw [Function.update_of_ne hn]
    · by_cases hn : n = m
      · subst n
        simp [hnext]
      · rw [Function.update_of_ne hn, hnext, h n t]
        simp [hn]
  next m hop =>
    obtain rfl := Option.some.inj hs
    obtain ⟨hm, hnext⟩ := hd.unlock t _ m hop
    have hown : s.owner m = some t := (h m t).mpr hm
    refine owned_goto (fun n u hu => ?_) (fun n => ?_) h
    · by_cases hn : n = m
      · subst n
        simp [hown, Ne.symm hu]
      · rw [Function.update_of_ne hn]
    · by_cases hn : n = m
      · subst n
        simp [hnext]
      · rw [Function.update_of_ne hn, hnext, h n t]
        simp [hn]
  next hop =>
    obtain rfl := Option.some.inj hs
    refine owned_goto (fun _ _ _ => Iff.rfl) (fun m => ?_) h
    rw [hd.other t _ hop]
    exact h m t

theorem owned_reachable (hd : P.Discipline holds) {s : MutexState τ μ π}
    (h : P.machine.Reachable s) : Owned holds s := by
  apply h.invariant
  · intro s hi m t
    obtain rfl : s = _ := hi
    simp [hd.start]
  · intro s t s' hs ht
    exact owned_step hd hs ht

/-- A thread that cannot step waits for the holder of the mutex it wants to lock. -/
theorem waits_of_not_able {s : MutexState τ μ π} {t : τ} (h : ¬ P.Able s t) :
    ∃ u, P.Waits s t u := by
  unfold Able step at h
  split at h
  next m hop =>
    split_ifs at h with hfree
    · simp at h
    · obtain ⟨u, hu⟩ := Option.ne_none_iff_exists'.mp hfree
      exact ⟨u, m, hop, hu⟩
  next => simp at h
  next => simp at h

theorem not_able_of_waits {s : MutexState τ μ π} {t u : τ} (h : P.Waits s t u) : ¬ P.Able s t := by
  obtain ⟨m, hop, hown⟩ := h
  simp [Able, step, hop, hown]

section LockOrder

variable (rank : μ → ℕ) (bound : ℕ)

open Classical in
/-- The rank of the mutex a thread is blocked on; one that can step is above them all. -/
noncomputable def waitRank (P : MutexProgram τ μ π) (s : MutexState τ μ π) (t : τ) : ℕ :=
  match P.op t (s.point t) with
  | .lock m => if P.Able s t then bound + 1 else rank m
  | _ => bound + 1

theorem waitRank_of_waits {s : MutexState τ μ π} {t u : τ} {m : μ}
    (hop : P.op t (s.point t) = .lock m) (h : P.Waits s t u) :
    waitRank rank bound P s t = rank m := by
  simp [waitRank, hop, not_able_of_waits h]

variable (hbound : ∀ m, rank m ≤ bound)

include hbound

theorem waitRank_le (s : MutexState τ μ π) (t : τ) : waitRank rank bound P s t ≤ bound + 1 := by
  unfold waitRank
  split
  next m _ =>
    split_ifs
    · exact le_rfl
    · exact (hbound m).trans (Nat.le_succ _)
  next => exact le_rfl

/-- When every mutex is locked above all those already held, waiting climbs the order. -/
theorem waitRank_lt (horder : ∀ t p m, P.op t p = .lock m → ∀ n ∈ holds t p, rank n < rank m)
    {s : MutexState τ μ π} (h : Owned holds s) {t u : τ} (hw : P.Waits s t u) :
    waitRank rank bound P s t < waitRank rank bound P s u := by
  obtain ⟨m, hop, hown⟩ := id hw
  rw [waitRank_of_waits rank bound hop hw]
  have htop : rank m < bound + 1 := Nat.lt_succ_of_le (hbound m)
  cases hu : P.op u (s.point u) with
  | lock n =>
    have hlt : rank m < rank n := horder u _ n hu m ((h m u).mp hown)
    simp only [waitRank, hu]
    split_ifs <;> assumption
  | unlock n => simpa [waitRank, hu] using htop
  | other => simpa [waitRank, hu] using htop

end LockOrder

end MutexProgram

end OperatingSystems.Library
