import Mathlib.Data.Fin.VecNotation
import OperatingSystems.Library.Simulation
import OperatingSystems.Sstf.Requests
import OperatingSystems.Sstf.SeekOrder

namespace OperatingSystems.Sstf

open Library

/-- A call of the scheduler, or a move of `q->end_sector` by the block layer. -/
inductive Move (ρ : Type*) where
  | call (c : Call ρ)
  | setEndSector (endSector : UInt64)

/-- The scheduler, and the pending requests in the order in which they were added. -/
structure Arrivals (ρ : Type*) where
  state : State ρ
  waiting : List ρ

section Steps

variable {ρ : Type*} [DecidableEq ρ] [Fintype ρ] (blkRqPos : ρ → UInt64)

/-- What a call hands over. -/
def handedOver (a : Arrivals ρ) : Move ρ → List ρ
  | .call .dispatch => (sstfDispatch blkRqPos a.state).2.toList
  | _ => []

/-- An added request waits behind the others until it is handed over. -/
def arrivalStep (a : Arrivals ρ) : Move ρ → Option (Arrivals ρ)
  | .call (.add rq) => (step blkRqPos a.state (.add rq)).map fun s => ⟨s, a.waiting ++ [rq]⟩
  | .call .dispatch => (step blkRqPos a.state .dispatch).map fun s =>
      ⟨s, a.waiting.diff (handedOver blkRqPos a (.call .dispatch))⟩
  | .setEndSector e => some { a with state := { a.state with endSector := e } }

def arrivals : Machine (Arrivals ρ) (Move ρ) where
  init a := ∃ endSector, a = ⟨initial endSector, []⟩
  step := arrivalStep blkRqPos

/-- The reference position behind the requests that the loop has passed. -/
def reference : UInt64 → List ρ → UInt64
  | ref, [] => ref
  | _, x :: xs => reference (blkRqPos x) xs

/-- How far from the reference position the request is that the loop stops at, and the new one. -/
def AtStop (related : ℕ → ℕ → Prop) (rq : ρ) : UInt64 → List ρ → Prop
  | _, [] => False
  | ref, x :: xs =>
    if sectorDiff (blkRqPos x) ref ≥ sectorDiff (blkRqPos rq) ref then
      related (seekDistance (blkRqPos x) ref) (seekDistance (blkRqPos rq) ref)
    else AtStop related rq (blkRqPos x) xs

/-- No request at the sector of a new one is pending. -/
def NewSector (a : Arrivals ρ) : Move ρ → Prop
  | .call (.add rq) => ∀ x ∈ pending a.state, blkRqPos x ≠ blkRqPos rq
  | _ => True

/-- The loop does not stop on equal distances. -/
def Untied (a : Arrivals ρ) : Move ρ → Prop
  | .call (.add rq) => ¬ AtStop blkRqPos (· = ·) rq a.state.endSector (pending a.state)
  | _ => True

/-- The loop does not stop at a nearer request because of what an `unsigned int` keeps of the
distances. -/
def Untruncated (a : Arrivals ρ) : Move ρ → Prop
  | .call (.add rq) => ¬ AtStop blkRqPos (· < ·) rq a.state.endSector (pending a.state)
  | _ => True

instance AtStop.decidable (related : ℕ → ℕ → Prop) [DecidableRel related] (rq : ρ) :
    ∀ ref q, Decidable (AtStop blkRqPos related rq ref q)
  | _, [] => isFalse not_false
  | ref, x :: xs =>
    have := AtStop.decidable related rq (blkRqPos x) xs
    inferInstanceAs (Decidable (if sectorDiff (blkRqPos x) ref ≥ sectorDiff (blkRqPos rq) ref then
      related (seekDistance (blkRqPos x) ref) (seekDistance (blkRqPos rq) ref)
      else AtStop blkRqPos related rq (blkRqPos x) xs))

instance NewSector.decidable : ∀ a m, Decidable (NewSector blkRqPos a m)
  | a, .call (.add rq) =>
    inferInstanceAs (Decidable (∀ x ∈ pending a.state, blkRqPos x ≠ blkRqPos rq))
  | _, .call .dispatch => isTrue trivial
  | _, .setEndSector _ => isTrue trivial

instance Untied.decidable : ∀ a m, Decidable (Untied blkRqPos a m)
  | a, .call (.add rq) =>
    inferInstanceAs (Decidable ¬ AtStop blkRqPos (· = ·) rq a.state.endSector (pending a.state))
  | _, .call .dispatch => isTrue trivial
  | _, .setEndSector _ => isTrue trivial

instance Untruncated.decidable : ∀ a m, Decidable (Untruncated blkRqPos a m)
  | a, .call (.add rq) =>
    inferInstanceAs (Decidable ¬ AtStop blkRqPos (· < ·) rq a.state.endSector (pending a.state))
  | _, .call .dispatch => isTrue trivial
  | _, .setEndSector _ => isTrue trivial

end Steps

variable {ρ : Type*} {blkRqPos : ρ → UInt64} {q w as bs : List ρ} {rq x y : ρ}

section Runs

variable {a b : Arrivals ρ} {m : Move ρ}

/-- The queue is `q`, and the pending requests are those that wait. -/
structure Arranged (a : Arrivals ρ) (q : List ρ) : Prop where
  holds : Holds a.state q
  perm : a.waiting.Perm q

theorem Arranged.nodup (h : Arranged a q) : a.waiting.Nodup :=
  h.perm.nodup_iff.mpr (Queued.nodup h.holds.ring)

variable [DecidableEq ρ] [Fintype ρ]

/-- What a move does: it adds a request that is not pending, hands over the first one, finds none or
only moves `q->end_sector`. -/
theorem Arranged.step_cases (h : Arranged a q) (hs : (arrivals blkRqPos).step a m = some b) :
    (∃ rq, m = .call (.add rq) ∧ rq ∉ q ∧ b.waiting = a.waiting ++ [rq] ∧
      step blkRqPos a.state (.add rq) = some b.state ∧
      Arranged b (insertRequest blkRqPos rq a.state.endSector q)) ∨
    (∃ z zs, m = .call .dispatch ∧ q = z :: zs ∧ handedOver blkRqPos a m = [z] ∧
      b.waiting = a.waiting.erase z ∧ Arranged b zs) ∨
    ((∀ rq, m ≠ .call (.add rq)) ∧ handedOver blkRqPos a m = [] ∧ b.waiting = a.waiting ∧
      Arranged b q) := by
  change arrivalStep blkRqPos a m = some b at hs
  cases m with
  | call c =>
    rcases @Holds.simulates ρ blkRqPos a.state q _ _ h.holds c with
      ⟨s, q', hstep, hqueue, hq'⟩ | ⟨hnone, -⟩
    · cases c with
      | add rq =>
        rw [arrivalStep, hstep] at hs
        obtain rfl := Option.some.inj hs
        simp only [queueStep, Option.ite_none_left_eq_some, Option.some.injEq, Prod.mk.injEq] at hqueue
        obtain ⟨hnew, -, rfl⟩ := hqueue
        refine .inl ⟨rq, rfl, hnew, rfl, hstep, hq', ?_⟩
        obtain ⟨as, bs, rfl, hinsert⟩ := insertRequest_split blkRqPos rq a.state.endSector q
        rw [hinsert]
        refine (h.perm.append_right [rq]).trans ?_
        rw [List.append_assoc]
        exact (List.perm_append_singleton rq bs).append_left as
      | dispatch =>
        rw [arrivalStep, hstep] at hs
        obtain rfl := Option.some.inj hs
        cases q with
        | nil =>
          have hhanded : handedOver blkRqPos a (.call .dispatch) = [] := by
            rw [handedOver, Queued.dispatch_nil h.holds.ring]
            rfl
          obtain rfl : q' = [] := ((Prod.mk.inj (Option.some.inj hqueue)).2).symm
          refine .inr (.inr ⟨by simp, hhanded, ?_, hq', ?_⟩)
          · rw [hhanded, List.diff_nil]
          · rw [hhanded, List.diff_nil]
            exact h.perm
        | cons z zs =>
          have hhanded : handedOver blkRqPos a (.call .dispatch) = [z] := by
            rw [handedOver, (h.holds.dispatch_cons blkRqPos).1]
            rfl
          obtain rfl : zs = q' := (Prod.mk.inj (Option.some.inj hqueue)).2
          refine .inr (.inl ⟨z, zs, rfl, rfl, hhanded, ?_, hq', ?_⟩)
          · rw [hhanded, List.diff_cons, List.diff_nil]
          · rw [hhanded, List.diff_cons, List.diff_nil]
            have herase := h.perm.erase z
            rwa [List.erase_cons_head] at herase
    · cases c with
      | add rq =>
        rw [arrivalStep, hnone] at hs
        exact absurd hs.symm (Option.some_ne_none b)
      | dispatch => exact absurd hnone (Option.some_ne_none _)
  | setEndSector e =>
    obtain rfl := Option.some.inj hs
    exact .inr (.inr ⟨by simp, rfl, rfl, ⟨h.holds.ring, h.holds.idle⟩, h.perm⟩)

theorem Arranged.pending_eq (h : Arranged a q) : pending a.state = q := h.holds.pending_eq

end Runs

end OperatingSystems.Sstf
