import Mathlib.Data.Fin.VecNotation
import Mathlib.Data.Nat.Dist
import OperatingSystems.Sstf.Queue

namespace OperatingSystems.Sstf

open Library

variable {ρ : Type*}

/-- The distance of two sectors. -/
def seekDistance (a b : UInt64) : ℕ := Nat.dist a.toNat b.toNat

/-- Nearest-neighbour order from `ref`: each request is the closest, among itself and all later
ones, to the one before it. -/
def NearestFirst (blkRqPos : ρ → UInt64) : UInt64 → List ρ → Prop
  | _, [] => True
  | ref, x :: xs =>
    (∀ y ∈ xs, seekDistance (blkRqPos x) ref ≤ seekDistance (blkRqPos y) ref) ∧
      NearestFirst blkRqPos (blkRqPos x) xs

/-- What the place of a new request needs: it is not closer than the requests it stays behind, nor
farther than the one it is put before, which is then the closest to it of those behind. -/
def Fits (blkRqPos : ρ → UInt64) (rq : ρ) : UInt64 → List ρ → Prop
  | _, [] => True
  | ref, x :: xs =>
    if sectorDiff (blkRqPos x) ref ≥ sectorDiff (blkRqPos rq) ref then
      seekDistance (blkRqPos rq) ref ≤ seekDistance (blkRqPos x) ref ∧
        ∀ y ∈ xs, seekDistance (blkRqPos x) (blkRqPos rq) ≤ seekDistance (blkRqPos y) (blkRqPos rq)
    else
      seekDistance (blkRqPos x) ref ≤ seekDistance (blkRqPos rq) ref ∧
        Fits blkRqPos rq (blkRqPos x) xs

instance Fits.decidable (blkRqPos : ρ → UInt64) (rq : ρ) :
    ∀ ref q, Decidable (Fits blkRqPos rq ref q)
  | _, [] => isTrue trivial
  | ref, x :: xs =>
    have := Fits.decidable blkRqPos rq (blkRqPos x) xs
    inferInstanceAs (Decidable (if sectorDiff (blkRqPos x) ref ≥ sectorDiff (blkRqPos rq) ref then
      seekDistance (blkRqPos rq) ref ≤ seekDistance (blkRqPos x) ref ∧ ∀ y ∈ xs,
        seekDistance (blkRqPos x) (blkRqPos rq) ≤ seekDistance (blkRqPos y) (blkRqPos rq)
      else seekDistance (blkRqPos x) ref ≤ seekDistance (blkRqPos rq) ref ∧
        Fits blkRqPos rq (blkRqPos x) xs))

variable {blkRqPos : ρ → UInt64} {s s' : State ρ} {q : List ρ} {rq : ρ}

/-- An insertion keeps the order exactly when the request fits where it is put. -/
theorem nearestFirst_insert {ref : UInt64} (h : NearestFirst blkRqPos ref q) :
    NearestFirst blkRqPos ref (insertRequest blkRqPos rq ref q) ↔ Fits blkRqPos rq ref q := by
  induction q generalizing ref with
  | nil => simp [insertRequest, NearestFirst, Fits]
  | cons x xs ih =>
    obtain ⟨hx, hxs⟩ := h
    rw [insertRequest, Fits]
    split_ifs with hle
    · constructor
      · rintro ⟨hfirst, hsecond, -⟩
        exact ⟨hfirst x List.mem_cons_self, hsecond⟩
      · rintro ⟨hfirst, hsecond⟩
        refine ⟨fun y hy => ?_, hsecond, hxs⟩
        rcases List.mem_cons.mp hy with rfl | hy
        · exact hfirst
        · exact hfirst.trans (hx y hy)
    · rw [NearestFirst, ih hxs]
      refine and_congr_left fun _ => ⟨fun hall => ?_, fun hrq y hy => ?_⟩
      · exact hall rq (mem_insertRequest.mpr (.inl rfl))
      · rcases mem_insertRequest.mp hy with rfl | hy
        · exact hrq
        · exact hx y hy

variable [DecidableEq ρ] [Fintype ρ]

/-- The queue is in nearest-neighbour order, and a dispatch hands over a pending request whose
distance to the head is minimal among all pending ones. -/
def SeeksNearest (blkRqPos : ρ → UInt64) (s : State ρ) : Prop :=
  NearestFirst blkRqPos s.endSector (pending s) ∧
    (pending s ≠ [] → ∃ rq ∈ pending s, (sstfDispatch blkRqPos s).2 = some rq ∧ ∀ y ∈ pending s,
      seekDistance (blkRqPos rq) s.endSector ≤ seekDistance (blkRqPos y) s.endSector)

/-- A request that is added fits where `sstf_add_request` puts it. -/
def AddFits (blkRqPos : ρ → UInt64) (s : State ρ) : Call ρ → Prop
  | .add rq => Fits blkRqPos rq s.endSector (pending s)
  | .dispatch => True

instance AddFits.decidable : ∀ s c, Decidable (AddFits blkRqPos s c)
  | s, .add rq => inferInstanceAs (Decidable (Fits blkRqPos rq s.endSector (pending s)))
  | _, .dispatch => isTrue trivial

theorem Holds.seeksNearest_iff (h : Holds s q) :
    SeeksNearest blkRqPos s ↔ NearestFirst blkRqPos s.endSector q := by
  rw [SeeksNearest, h.pending_eq]
  refine and_iff_left_of_imp fun hq hne => ?_
  obtain ⟨x, xs, rfl⟩ := List.exists_cons_of_ne_nil hne
  refine ⟨x, List.mem_cons_self, (h.dispatch_cons blkRqPos).1, fun y hy => ?_⟩
  rcases List.mem_cons.mp hy with rfl | hy
  · exact le_rfl
  · exact hq.1 y hy

/-- One call: from a queue in order, an add keeps the order exactly when the request fits, and a
dispatch always does. -/
theorem Holds.seeksNearest_step (h : Holds s q) (hin : SeeksNearest blkRqPos s) {c : Call ρ}
    (hs : step blkRqPos s c = some s') : SeeksNearest blkRqPos s' ↔ AddFits blkRqPos s c := by
  rw [h.seeksNearest_iff] at hin
  rcases h.simulates c with ⟨t, q', ht, hqueue, hq'⟩ | ⟨hnone, -⟩
  · obtain rfl : t = s' := Option.some.inj (ht.symm.trans hs)
    rw [hq'.seeksNearest_iff]
    cases c with
    | add rq =>
      simp only [queueStep, Option.ite_none_left_eq_some, Option.some.injEq, Prod.mk.injEq] at hqueue
      obtain ⟨-, hend, rfl⟩ := hqueue
      rw [← hend, AddFits, h.pending_eq]
      exact nearestFirst_insert hin
    | dispatch =>
      refine iff_of_true ?_ trivial
      cases q with
      | nil =>
        simp only [queueStep, Option.some.injEq, Prod.mk.injEq] at hqueue
        rw [← hqueue.2]
        trivial
      | cons x xs =>
        simp only [queueStep, Option.some.injEq, Prod.mk.injEq] at hqueue
        rw [← hqueue.1, ← hqueue.2]
        exact hin.2
  · exact absurd (hs.symm.trans hnone) (Option.some_ne_none _)

theorem holds_step (h : ∃ q, Holds s q) {c : Call ρ} (hs : step blkRqPos s c = some s') :
    ∃ q, Holds s' q := by
  obtain ⟨q, hq⟩ := h
  rcases hq.simulates c with ⟨t, q', ht, -, hq'⟩ | ⟨hnone, -⟩
  · obtain rfl : t = s' := Option.some.inj (ht.symm.trans hs)
    exact ⟨q', hq'⟩
  · exact absurd (hnone.symm.trans hs) nofun

/-- In a run of adds and dispatches the queue is in nearest-neighbour order all along, and each
dispatch hands over a nearest request, exactly when every added request fits where it is put. -/
theorem seeks_nearest_iff (blkRqPos : ρ → UInt64) {e : UInt64} {cs : List (Call ρ)}
    (hr : (machine blkRqPos).run (initial e) cs = some s') :
    (machine blkRqPos).Always (SeeksNearest blkRqPos) (initial e) cs ↔
      (machine blkRqPos).Meets (AddFits blkRqPos) (initial e) cs := by
  have hinit : Holds (initial e : State ρ) [] := .start e
  constructor
  · intro halways
    refine halways.meets (I := fun s => ∃ q, Holds s q) ?_ ?_ ⟨[], hinit⟩ hr
    · rintro s c t hs hstep
      exact holds_step hs hstep
    · rintro s c t ⟨q, hq⟩ hs ht hstep
      exact (hq.seeksNearest_step hs hstep).mp ht
  · intro hmeets
    have hboth := Machine.Meets.always
      (I := fun s => (∃ q, Holds s q) ∧ SeeksNearest blkRqPos s) ?_ ?_ hmeets
    · exact hboth.mono fun s hs => hs.2
    · rintro s c t ⟨⟨q, hq⟩, hs⟩ hfits hstep
      exact ⟨holds_step ⟨q, hq⟩ hstep, (hq.seeksNearest_step hs hstep).mpr hfits⟩
    · exact ⟨⟨[], hinit⟩, hinit.seeksNearest_iff.mpr trivial⟩

/-- Three requests that fit where they are put. -/
theorem three_requests_in_order :
    (machine (ρ := Fin 3) ![110, 125, 85]).Always (SeeksNearest ![110, 125, 85]) (initial 100)
      [.add 0, .add 1, .add 2, .dispatch] := by
  obtain ⟨s, hr⟩ : ∃ s, (machine (ρ := Fin 3) ![110, 125, 85]).run (initial 100)
      [.add 0, .add 1, .add 2, .dispatch] = some s := ⟨_, rfl⟩
  exact (seeks_nearest_iff _ hr).mpr (by decide +kernel)

/-- The last of four requests is put in front of one that is not the closest to it: after its
dispatch the head is at 97 and goes to 110, with 85 pending. -/
theorem nearer_request_passed_over :
    ∃ s, (machine (ρ := Fin 4) ![110, 125, 85, 97]).run (initial 100)
        [.add 0, .add 1, .add 2, .add 3, .dispatch] = some s ∧
      s.endSector = 97 ∧ pending s = [0, 1, 2] ∧ (sstfDispatch ![110, 125, 85, 97] s).2 = some 0 ∧
      ¬ SeeksNearest ![110, 125, 85, 97] s := by
  refine ⟨_, rfl, rfl, rfl, rfl, fun h => ?_⟩
  obtain ⟨rq, -, hrq, hmin⟩ := h.2 (by decide)
  obtain rfl : 0 = rq := Option.some.inj hrq
  exact absurd (hmin 2 (by decide)) (by decide)

end OperatingSystems.Sstf
