import OperatingSystems.Sstf.Scheduler

namespace OperatingSystems.Sstf

open Library

variable {ρ : Type*} {blkRqPos : ρ → UInt64} {s s' : State ρ} {q : List ρ} {rq : ρ}

/-- The place of a new request, as a function of the queue. -/
def insertRequest (blkRqPos : ρ → UInt64) (rq : ρ) : UInt64 → List ρ → List ρ
  | _, [] => [rq]
  | ref, x :: xs =>
    if sectorDiff (blkRqPos x) ref ≥ sectorDiff (blkRqPos rq) ref then rq :: x :: xs
    else x :: insertRequest blkRqPos rq (blkRqPos x) xs

/-- The ring of the scheduler holds the requests `q`. -/
abbrev Queued (s : State ρ) (q : List ρ) : Prop := s.links.Ring .queue (q.map .queuelist)

/-- The ring of the scheduler holds the requests `q`, and the others are on no list. -/
structure Holds (s : State ρ) (q : List ρ) : Prop where
  ring : s.links.Ring .queue (q.map .queuelist)
  idle : ∀ rq, rq ∉ q → s.links.next (.queuelist rq) = .queuelist rq

theorem mem_entries : Entry.queuelist rq ∈ Entry.queue :: q.map .queuelist ↔ rq ∈ q := by
  simp

namespace Queued

theorem nodup (h : Queued s q) : q.Nodup :=
  (List.nodup_cons.mp h.2).2.of_map _

theorem length_lt [Fintype ρ] (h : Queued s q) :
    (q.map Entry.queuelist).length < Fintype.card ρ + 1 := by
  rw [List.length_map]
  exact Nat.lt_succ_of_le h.nodup.length_le_card

theorem start (e : UInt64) : Queued (initial e : State ρ) [] :=
  ⟨⟨rfl, rfl⟩, List.nodup_singleton _⟩

variable [DecidableEq ρ]

theorem pending_eq [Fintype ρ] (h : Queued s q) : pending s = q := by
  rw [pending, Links.Ring.entriesFrom h h.length_lt, List.filterMap_map]
  exact List.filterMap_some

theorem empty_iff (h : Queued s q) : s.links.listEmpty .queue = true ↔ q = [] := by
  rw [Links.listEmpty, decide_eq_true_iff, Links.Ring.empty_iff h, List.map_eq_nil_iff]

end Queued

namespace Holds

theorem start (e : UInt64) : Holds (initial e : State ρ) [] :=
  ⟨Queued.start e, fun _ _ => rfl⟩

variable [DecidableEq ρ]

theorem pending_eq [Fintype ρ] (h : Holds s q) : pending s = q := Queued.pending_eq h.ring

/-- A request is on no list exactly when it is not in the queue. -/
theorem listEmpty_iff (h : Holds s q) : s.links.listEmpty (.queuelist rq) = true ↔ rq ∉ q := by
  rw [Links.listEmpty, decide_eq_true_iff]
  refine ⟨fun hself hmem => ?_, h.idle rq⟩
  obtain ⟨xs, ys, rfl⟩ := List.append_of_mem hmem
  have hring := h.ring
  rw [List.map_append, List.map_cons] at hring
  exact absurd (hring.rotate.empty_iff.mp hself) (by simp)

end Holds

variable [DecidableEq ρ]

/-- The links that `sstf_add_request` leaves after its loop. -/
def afterLoop (rq : ρ) (r : Entry ρ × Loop ρ) : Links (Entry ρ) :=
  if r.2.isAdded then r.2.links else r.2.links.listAddTail (.queuelist rq) r.1

/-- The loop, over the requests `ys` that it still has to pass. -/
theorem scan_addBody (blkRqPos : ρ → UInt64) {l : Links (Entry ρ)} {xs ys : List ρ} (ref : UInt64)
    (hr : l.Ring .queue ((xs ++ ys).map .queuelist)) (hnew : rq ∉ xs ++ ys) :
    (afterLoop rq (Links.scan .queue (addBody blkRqPos rq) (ys.map .queuelist) ⟨l, ref, false⟩)).Ring
      .queue ((xs ++ insertRequest blkRqPos rq ref ys).map .queuelist) ∧
    ∀ r, r ∉ rq :: (xs ++ ys) →
      (afterLoop rq (Links.scan .queue (addBody blkRqPos rq) (ys.map .queuelist)
        ⟨l, ref, false⟩)).next (.queuelist r) = l.next (.queuelist r) := by
  have hnew' := hnew
  rw [← mem_entries] at hnew'
  induction ys generalizing xs ref with
  | nil =>
    rw [List.append_nil] at hr hnew'
    refine ⟨?_, fun r hrr => ?_⟩
    · simp only [insertRequest, List.map_append]
      exact hr.listAddTail hnew'
    · rw [List.append_nil, List.mem_cons, not_or] at hrr
      refine hr.listAddTail_next List.mem_cons_self ?_ (mem_entries.not.mpr hrr.2)
      exact fun he => hrr.1 (Entry.queuelist.inj he)
  | cons y ys ih =>
    rw [List.map_cons, Links.scan, insertRequest]
    simp only [addBody, listEntry]
    split_ifs with hle
    · refine ⟨?_, fun r hrr => ?_⟩
      · simp only [List.map_append, List.map_cons] at hr hnew' ⊢
        exact hr.listAddTail_entry hnew'
      · rw [List.mem_cons, not_or] at hrr
        refine hr.listAddTail_next ?_ ?_ (mem_entries.not.mpr hrr.2)
        · simp
        · exact fun he => hrr.1 (Entry.queuelist.inj he)
    · rw [List.append_cons] at hr hnew hnew'
      rw [List.append_cons xs y ys, List.append_cons xs y (insertRequest blkRqPos rq (blkRqPos y) ys)]
      exact ih (blkRqPos y) hr hnew hnew'

theorem addBody_links {l : Links (Entry ρ)} (w : Loop ρ) (x : Entry ρ) (w' : Loop ρ) (hw : w.links = l)
    (h : addBody blkRqPos rq w x = .next w') : w'.links = l := by
  unfold addBody at h
  split at h
  · dsimp only at h
    split_ifs at h
    obtain rfl := Links.Flow.next.inj h
    exact hw
  · exact absurd h nofun

omit [DecidableEq ρ] in
theorem mem_insertRequest {ref : UInt64} {r : ρ} :
    r ∈ insertRequest blkRqPos rq ref q ↔ r = rq ∨ r ∈ q := by
  induction q generalizing ref with
  | nil => simp [insertRequest]
  | cons x xs ih =>
    rw [insertRequest]
    split_ifs with hle
    · exact List.mem_cons
    · rw [List.mem_cons, ih, List.mem_cons]
      exact or_left_comm

/-- `sstf_add_request` comes back, and it has put the request at its place. -/
theorem Queued.add [Fintype ρ] (blkRqPos : ρ → UInt64) (h : Queued s q) (hnew : rq ∉ q) :
    ∃ s', sstfAddRequest blkRqPos s rq = some s' ∧ s'.endSector = s.endSector ∧
      Queued s' (insertRequest blkRqPos rq s.endSector q) ∧
      ∀ r, r ≠ rq → r ∉ q → s'.links.next (.queuelist r) = s.links.next (.queuelist r) := by
  rw [sstfAddRequest]
  split_ifs with hempty
  · obtain rfl : q = [] := h.empty_iff.mp hempty
    refine ⟨_, rfl, rfl, Links.Ring.listAddTail h (by simp), fun r hne hr => ?_⟩
    exact Links.Ring.listAddTail_next h List.mem_cons_self (fun he => hne (Entry.queuelist.inj he))
      (by simp)
  · have hloop : Links.listForEach Loop.links .queue (addBody blkRqPos rq) (Fintype.card ρ + 1)
        (s.links.next .queue) ⟨s.links, s.endSector, false⟩ = some (Links.scan .queue
          (addBody blkRqPos rq) (q.map .queuelist) ⟨s.links, s.endSector, false⟩) := by
      refine Links.Ring.forEach h ?_ addBody_links h.length_lt
      rfl
    rw [hloop]
    have hfront : s.links.Ring .queue (([] ++ q).map .queuelist) := h
    obtain ⟨hring, hframe⟩ := scan_addBody blkRqPos s.endSector hfront hnew
    refine ⟨_, rfl, rfl, hring, fun r hne hr => hframe r ?_⟩
    simpa using ⟨hne, hr⟩

/-- `sstf_dispatch` hands over the first request. -/
theorem Queued.dispatch_cons (blkRqPos : ρ → UInt64) {x : ρ} (h : Queued s (x :: q)) :
    (sstfDispatch blkRqPos s).2 = some x ∧ (sstfDispatch blkRqPos s).1.endSector = blkRqPos x ∧
      (sstfDispatch blkRqPos s).1.links = s.links.listDelInit (.queuelist x) ∧
      Queued (sstfDispatch blkRqPos s).1 q := by
  have hfirst : s.links.next .queue = .queuelist x := h.path.1.1
  have hdispatch : sstfDispatch blkRqPos s =
      (⟨s.links.listDelInit (.queuelist x), blkRqPos x⟩, some x) := by
    simp [sstfDispatch, Links.listEmpty, hfirst, listEntry, elvDispatchSort]
  rw [hdispatch]
  have hfront : s.links.Ring .queue ([] ++ .queuelist x :: q.map .queuelist) := h
  exact ⟨rfl, rfl, rfl, hfront.listDelInit.1⟩

theorem Queued.dispatch_nil (h : Queued s []) : sstfDispatch blkRqPos s = (s, none) := by
  rw [sstfDispatch, if_pos (h.empty_iff.mpr rfl)]

theorem Holds.add [Fintype ρ] (blkRqPos : ρ → UInt64) (h : Holds s q) (hnew : rq ∉ q) :
    ∃ s', sstfAddRequest blkRqPos s rq = some s' ∧ s'.endSector = s.endSector ∧
      Holds s' (insertRequest blkRqPos rq s.endSector q) := by
  obtain ⟨s', hs, hend, hring, hframe⟩ := Queued.add blkRqPos h.ring hnew
  refine ⟨s', hs, hend, hring, fun r hr => ?_⟩
  rw [mem_insertRequest, not_or] at hr
  exact (hframe r hr.1 hr.2).trans (h.idle r hr.2)

theorem Holds.dispatch_cons (blkRqPos : ρ → UInt64) {x : ρ} (h : Holds s (x :: q)) :
    (sstfDispatch blkRqPos s).2 = some x ∧
      (sstfDispatch blkRqPos s).1.endSector = blkRqPos x ∧ Holds (sstfDispatch blkRqPos s).1 q := by
  obtain ⟨hfirst, hend, hlinks, hring⟩ := Queued.dispatch_cons blkRqPos h.ring
  refine ⟨hfirst, hend, hring, fun r hr => ?_⟩
  rw [hlinks]
  by_cases hrx : r = x
  · subst r
    have hfront : s.links.Ring .queue ([] ++ .queuelist x :: q.map .queuelist) := h.ring
    exact hfront.listDelInit.2.1
  · have hnot : r ∉ x :: q := by
      rw [List.mem_cons, not_or]
      exact ⟨hrx, hr⟩
    exact (h.ring.listDelInit_next (by simp) (mem_entries.not.mpr hnot)).trans (h.idle r hnot)

/-- The queue as a list: what each call does to it. -/
def queueStep (blkRqPos : ρ → UInt64) : UInt64 × List ρ → Call ρ → Option (UInt64 × List ρ)
  | (e, q), .add rq => if rq ∈ q then none else some (e, insertRequest blkRqPos rq e q)
  | (e, []), .dispatch => some (e, [])
  | (_, x :: q), .dispatch => some (blkRqPos x, q)

/-- The scheduler refines the queue of requests. -/
theorem Holds.simulates [Fintype ρ] (h : Holds s q) (c : Call ρ) :
    (∃ s' q', step blkRqPos s c = some s' ∧
      queueStep blkRqPos (s.endSector, q) c = some (s'.endSector, q') ∧ Holds s' q') ∨
    step blkRqPos s c = none ∧ queueStep blkRqPos (s.endSector, q) c = none := by
  cases c with
  | add rq =>
    by_cases hmem : rq ∈ q
    · refine .inr ⟨?_, if_pos hmem⟩
      rw [step, if_neg (h.listEmpty_iff.not.mpr (not_not.mpr hmem))]
    · obtain ⟨s', hs, hend, hq⟩ := h.add blkRqPos hmem
      refine .inl ⟨s', _, ?_, ?_, hq⟩
      · rw [step, if_pos (h.listEmpty_iff.mpr hmem), hs]
      · rw [queueStep, if_neg hmem, hend]
  | dispatch =>
    cases q with
    | nil =>
      refine .inl ⟨s, [], ?_, rfl, h⟩
      rw [step, Queued.dispatch_nil h.ring]
    | cons x q =>
      obtain ⟨-, hend, hq⟩ := h.dispatch_cons blkRqPos
      refine .inl ⟨_, q, rfl, ?_, hq⟩
      rw [queueStep, hend]

end OperatingSystems.Sstf
