import OperatingSystems.Sstf.Requests

namespace OperatingSystems.Sstf

open Library

section Counts

variable {ρ : Type*} [DecidableEq ρ]

def Event.isAdd : Event ρ → Bool
  | .add _ => true
  | _ => false

def Event.isDispatch : Event ρ → Bool
  | .dispatch => true
  | _ => false

def adds (es : List (Event ρ)) : ℕ := es.countP Event.isAdd

def dispatches (es : List (Event ρ)) : ℕ := es.countP Event.isDispatch

omit [DecidableEq ρ] in
theorem adds_append (es fs : List (Event ρ)) : adds (es ++ fs) = adds es + adds fs :=
  List.countP_append

omit [DecidableEq ρ] in
theorem dispatches_append (es fs : List (Event ρ)) :
    dispatches (es ++ fs) = dispatches es + dispatches fs :=
  List.countP_append

/-- How often a request has left the queue. -/
def History.gone (h : History ρ) (x : ρ) : ℕ := h.dispatched.count x + h.merged.count x

theorem idxOf_insert_le {as bs : List ρ} {x rq : ρ} :
    (as ++ rq :: bs).idxOf x ≤ (as ++ bs).idxOf x + 1 := by
  by_cases hx : x ∈ as
  · rw [List.idxOf_append_of_mem hx, List.idxOf_append_of_mem hx]
    exact Nat.le_succ _
  · rw [List.idxOf_append_of_notMem hx, List.idxOf_append_of_notMem hx]
    by_cases hrq : rq = x
    · rw [hrq, List.idxOf_cons_self]
      omega
    · rw [List.idxOf_cons_ne _ hrq]
      omega

theorem idxOf_erase_le {as bs : List ρ} {x rq : ρ} (hne : rq ≠ x) :
    (as ++ bs).idxOf x ≤ (as ++ rq :: bs).idxOf x := by
  by_cases hx : x ∈ as
  · rw [List.idxOf_append_of_mem hx, List.idxOf_append_of_mem hx]
  · rw [List.idxOf_append_of_notMem hx, List.idxOf_append_of_notMem hx, List.idxOf_cons_ne _ hne]
    omega

end Counts

variable {ρ : Type*} [DecidableEq ρ] [Fintype ρ] {blkRqPos : ρ → UInt64} {h h' : History ρ}
  {e : Event ρ} {es : List (Event ρ)} {q : List ρ} {x rq : ρ}

/-- What is in the queue, and what has left it, after an event. -/
theorem Queued.step_cases (hq : Queued h.state q) (hs : (historyMachine blkRqPos).step h e = some h') :
    (∃ rq as bs, e = .add rq ∧ q = as ++ bs ∧ Queued h'.state (as ++ rq :: bs) ∧ h'.gone = h.gone) ∨
    (e = .dispatch ∧ q = [] ∧ h' = h) ∨
    (∃ y ys, e = .dispatch ∧ q = y :: ys ∧ Queued h'.state ys ∧
      ∀ x, h'.gone x = h.gone x + if x = y then 1 else 0) ∨
    (∃ rq next as bs, e = .merged rq next ∧ q = as ++ next :: bs ∧ Queued h'.state (as ++ bs) ∧
      ∀ x, h'.gone x = h.gone x + if x = next then 1 else 0) ∨
    (adds [e] = 0 ∧ dispatches [e] = 0 ∧ Queued h'.state q ∧ h'.gone = h.gone) := by
  have hpending := hq.pending_eq
  cases e with
  | add rq =>
    simp only [historyMachine, historyStep, hpending] at hs
    split_ifs at hs with hmem
    obtain ⟨s', hadd, -, hq', -⟩ := Queued.add blkRqPos hq hmem
    rw [hadd] at hs
    obtain rfl := Option.some.inj hs
    obtain ⟨as, bs, rfl, hinsert⟩ := insertRequest_split blkRqPos rq h.state.endSector q
    rw [hinsert] at hq'
    exact .inl ⟨rq, as, bs, rfl, rfl, hq', rfl⟩
  | dispatch =>
    cases q with
    | nil =>
      simp only [historyMachine, historyStep, hq.dispatch_nil] at hs
      obtain rfl := Option.some.inj hs
      exact .inr (.inl ⟨rfl, rfl, rfl⟩)
    | cons y ys =>
      obtain ⟨hfirst, -, -, hq'⟩ := Queued.dispatch_cons blkRqPos hq
      simp only [historyMachine, historyStep, hfirst] at hs
      obtain rfl := Option.some.inj hs
      refine .inr (.inr (.inl ⟨y, ys, rfl, rfl, hq', fun x => ?_⟩))
      simp only [History.gone, Option.toList_some, List.singleton_append, List.count_cons, beq_iff_eq,
        eq_comm (a := y)]
      omega
  | merged rq next =>
    simp only [historyMachine, historyStep, hpending] at hs
    split_ifs at hs with hmem
    obtain rfl := Option.some.inj hs
    obtain ⟨as, bs, rfl⟩ := List.append_of_mem hmem.2
    refine .inr (.inr (.inr (.inl ⟨rq, next, as, bs, rfl, rfl, hq.mergedRequests rq, fun x => ?_⟩)))
    simp only [History.gone, List.count_cons, beq_iff_eq, eq_comm (a := next)]
    omega
  | setEndSector e =>
    simp only [historyMachine, historyStep] at hs
    obtain rfl := Option.some.inj hs
    exact .inr (.inr (.inr (.inr ⟨rfl, rfl, hq, rfl⟩)))
  | relink rq next prev =>
    simp only [historyMachine, historyStep, hpending] at hs
    split_ifs at hs with hmem
    obtain rfl := Option.some.inj hs
    exact .inr (.inr (.inr (.inr ⟨rfl, rfl, hq.relink hmem next prev, rfl⟩)))

theorem Queued.gone_step (hq : Queued h.state q) (x : ρ) (hs : (historyMachine blkRqPos).step h e = some h') :
    h.gone x ≤ h'.gone x := by
  rcases hq.step_cases hs with ⟨rq, as, bs, rfl, rfl, hq', hgone⟩ | ⟨rfl, rfl, rfl⟩ |
    ⟨y, ys, rfl, rfl, hq', hgone⟩ | ⟨rq, next, as, bs, rfl, rfl, hq', hgone⟩ |
    ⟨hadds, hdispatches, hq', hgone⟩
  · rw [hgone]
  · exact le_rfl
  · rw [hgone]
    exact Nat.le_add_right _ _
  · rw [hgone]
    exact Nat.le_add_right _ _
  · rw [hgone]

/-- A request falls back by at most one place with an add, and moves up by one with a dispatch, until
it leaves the queue. -/
theorem Queued.place_step (hq : Queued h.state q) (hx : x ∈ q)
    (hs : (historyMachine blkRqPos).step h e = some h') (hstays : h'.gone x = h.gone x) :
    ∃ q', Queued h'.state q' ∧ x ∈ q' ∧
      q'.idxOf x + dispatches [e] ≤ q.idxOf x + adds [e] := by
  rcases hq.step_cases hs with ⟨rq, as, bs, rfl, rfl, hq', hgone⟩ | ⟨rfl, rfl, rfl⟩ |
    ⟨y, ys, rfl, rfl, hq', hgone⟩ | ⟨rq, next, as, bs, rfl, rfl, hq', hgone⟩ |
    ⟨hadds, hdispatches, hq', hgone⟩
  · refine ⟨_, hq', ?_, idxOf_insert_le⟩
    simp only [List.mem_append, List.mem_cons] at hx ⊢
    exact hx.imp_right .inr
  · exact absurd hx List.not_mem_nil
  · have hne : x ≠ y := by
      intro heq
      rw [hgone, if_pos heq] at hstays
      omega
    refine ⟨ys, hq', (List.mem_cons.mp hx).resolve_left hne, ?_⟩
    rw [List.idxOf_cons_ne _ hne.symm]
    exact le_rfl
  · have hne : x ≠ next := by
      intro heq
      rw [hgone, if_pos heq] at hstays
      omega
    refine ⟨_, hq', ?_, idxOf_erase_le hne.symm⟩
    simp only [List.mem_append, List.mem_cons] at hx ⊢
    exact hx.imp_right fun hor => hor.resolve_left hne
  · rw [hadds, hdispatches]
    exact ⟨q, hq', hx, le_rfl⟩

theorem queued_of_reachable (hh : (historyMachine blkRqPos).Reachable h) :
    Queued h.state (pending h.state) := by
  obtain ⟨q, hq, -⟩ := accounted hh
  rwa [hq.pending_eq]

theorem gone_run (hh : (historyMachine blkRqPos).Reachable h) (x : ρ)
    (hr : (historyMachine blkRqPos).run h es = some h') : h.gone x ≤ h'.gone x := by
  induction es generalizing h with
  | nil =>
    obtain rfl := Option.some.inj hr
    exact le_rfl
  | cons e es ih =>
    obtain ⟨h₁, hs, hr⟩ := Machine.run_cons_eq_some.mp hr
    exact ((queued_of_reachable hh).gone_step x hs).trans (ih (hh.step hs) hr)

theorem place_run (hh : (historyMachine blkRqPos).Reachable h) (hx : x ∈ pending h.state)
    (hr : (historyMachine blkRqPos).run h es = some h') (hstays : h'.gone x = h.gone x) :
    x ∈ pending h'.state ∧
      (pending h'.state).idxOf x + dispatches es ≤ (pending h.state).idxOf x + adds es := by
  induction es generalizing h with
  | nil =>
    obtain rfl := Option.some.inj hr
    exact ⟨hx, le_rfl⟩
  | cons e es ih =>
    obtain ⟨h₁, hs, hr⟩ := Machine.run_cons_eq_some.mp hr
    have hh₁ := hh.step hs
    have hfirst := (queued_of_reachable hh).gone_step x hs
    have hrest := gone_run hh₁ x hr
    obtain ⟨q, hq, hxq, hplace⟩ := (queued_of_reachable hh).place_step hx hs (by omega)
    rw [← hq.pending_eq] at hxq hplace
    obtain ⟨hx', hplace'⟩ := ih hh₁ hxq hr (by omega)
    refine ⟨hx', ?_⟩
    rw [← List.singleton_append, adds_append, dispatches_append]
    omega

omit [DecidableEq ρ] [Fintype ρ] in
/-- A request where the head stands comes before all others. -/
theorem insertRequest_at_head (blkRqPos : ρ → UInt64) (rq : ρ) (q : List ρ) :
    insertRequest blkRqPos rq (blkRqPos rq) q = rq :: q := by
  cases q with
  | nil => rfl
  | cons y ys =>
    have hzero : sectorDiff (blkRqPos rq) (blkRqPos rq) = 0 := by
      simp [sectorDiff]
    rw [insertRequest, hzero, if_pos]
    exact UInt32.zero_le

/-- The request that has just been handed over is added and handed over again. -/
theorem Queued.again (hq : Queued h.state q) (hnew : rq ∉ q)
    (hhead : h.state.endSector = blkRqPos rq) :
    ∃ h', (historyMachine blkRqPos).run h [.add rq, .dispatch] = some h' ∧ Queued h'.state q ∧
      h'.state.endSector = blkRqPos rq ∧ ∀ x, x ≠ rq → h'.gone x = h.gone x := by
  obtain ⟨s, hadd, -, hq', -⟩ := Queued.add blkRqPos hq hnew
  rw [hhead, insertRequest_at_head] at hq'
  obtain ⟨hfirst, hend, -, hq''⟩ := Queued.dispatch_cons blkRqPos hq'
  refine ⟨⟨(sstfDispatch blkRqPos s).1, rq :: h.added, rq :: h.dispatched, h.merged⟩, ?_, hq'', hend, ?_⟩
  · have hpending := hq.pending_eq
    simp [Machine.run, historyMachine, historyStep, hpending, hnew, hadd, hfirst]
  · intro x hx
    rw [History.gone, List.count_cons_of_ne (Ne.symm hx)]
    rfl

theorem Queued.again_and_again (hq : Queued h.state q) (hnew : rq ∉ q)
    (hhead : h.state.endSector = blkRqPos rq) (n : ℕ) :
    ∃ es h', (historyMachine blkRqPos).run h es = some h' ∧ adds es = n ∧ dispatches es = n ∧
      Queued h'.state q ∧ ∀ x, x ≠ rq → h'.gone x = h.gone x := by
  induction n generalizing h with
  | zero => exact ⟨[], h, rfl, rfl, rfl, hq, fun _ _ => rfl⟩
  | succ n ih =>
    obtain ⟨h₁, hr₁, hq₁, hhead₁, hgone₁⟩ := hq.again hnew hhead
    obtain ⟨es, h', hr, hadds, hdispatches, hq', hgone⟩ := ih hq₁ hhead₁
    refine ⟨[.add rq, .dispatch] ++ es, h', ?_, ?_, ?_, hq', fun x hx => ?_⟩
    · rw [Machine.run_trans hr₁, hr]
    · rw [adds_append, hadds, Nat.add_comm]
      rfl
    · rw [dispatches_append, hdispatches, Nat.add_comm]
      rfl
    · rw [hgone x hx, hgone₁ x hx]

/-- Dispatches hand over the queue from its front. -/
theorem Queued.dispatch_front {as bs : List ρ} (hq : Queued h.state (as ++ bs)) :
    ∃ h', (historyMachine blkRqPos).run h (List.replicate as.length .dispatch) = some h' ∧
      Queued h'.state bs ∧ ∀ x, x ∉ as → h'.gone x = h.gone x := by
  induction as generalizing h with
  | nil => exact ⟨h, rfl, hq, fun _ _ => rfl⟩
  | cons a as ih =>
    obtain ⟨h₁, hs⟩ : ∃ h₁, (historyMachine blkRqPos).step h .dispatch = some h₁ := ⟨_, rfl⟩
    rcases hq.step_cases hs with ⟨rq, as, bs, he, -⟩ | ⟨-, hnil, -⟩ |
      ⟨y, ys, -, hcons, hq₁, hgone₁⟩ | ⟨rq, next, as, bs, he, -⟩ | ⟨-, hdispatches, -⟩
    · cases he
    · exact absurd hnil (List.cons_ne_nil _ _)
    · obtain ⟨rfl, rfl⟩ := List.cons.inj hcons
      obtain ⟨h', hr, hq', hgone⟩ := ih hq₁
      refine ⟨h', ?_, hq', fun x hx => ?_⟩
      · rw [List.length_cons, List.replicate_succ, Machine.run_cons hs, hr]
      · rw [List.mem_cons, not_or] at hx
        rw [hgone x hx.2, hgone₁, if_neg hx.1, Nat.add_zero]
    · cases he
    · exact absurd hdispatches (by simp [dispatches, Event.isDispatch])

omit [DecidableEq ρ] [Fintype ρ] in
theorem adds_replicate (n : ℕ) : adds (List.replicate n (.dispatch : Event ρ)) = 0 := by
  simp [adds, List.countP_replicate, Event.isAdd]

omit [DecidableEq ρ] [Fintype ρ] in
theorem dispatches_replicate (n : ℕ) :
    dispatches (List.replicate n (.dispatch : Event ρ)) = n := by
  simp [dispatches, List.countP_replicate, Event.isDispatch]

/-- A pending request is handed over, or merged away, within as many dispatches as there are requests
before it and requests added meanwhile, and one more. No fewer are enough: requests where the head
stands can hold it back just so long. -/
theorem handed_over_within (hh : (historyMachine blkRqPos).Reachable h) (hx : x ∈ pending h.state) :
    (∀ es h', (historyMachine blkRqPos).run h es = some h' →
      (pending h.state).idxOf x + adds es < dispatches es → h.gone x < h'.gone x) ∧
    ∀ rq, rq ∉ pending h.state → h.state.endSector = blkRqPos rq → ∀ n, ∃ es h',
      (historyMachine blkRqPos).run h es = some h' ∧ adds es = n ∧
      dispatches es = (pending h.state).idxOf x + adds es ∧ h'.gone x = h.gone x := by
  have hq := queued_of_reachable hh
  refine ⟨fun es h' hr hlate => ?_, fun rq hnew hhead n => ?_⟩
  · refine lt_of_le_of_ne (gone_run hh x hr) fun hstays => ?_
    have hplace := (place_run hh hx hr hstays.symm).2
    omega
  · obtain ⟨es, h₁, hr₁, hadds, hdispatches, hq₁, hgone₁⟩ := hq.again_and_again hnew hhead n
    obtain ⟨as, bs, hsplit⟩ := List.append_of_mem hx
    rw [hsplit] at hq₁
    have hbefore : x ∉ as := by
      intro hmem
      exact (List.nodup_append.mp hq₁.nodup).2.2 x hmem x List.mem_cons_self rfl
    have hplace : (pending h.state).idxOf x = as.length := by
      rw [hsplit, List.idxOf_append_of_notMem hbefore, List.idxOf_cons_self, Nat.add_zero]
    obtain ⟨h', hr, -, hgone⟩ := hq₁.dispatch_front
    have hne : x ≠ rq := by
      rintro rfl
      exact hnew hx
    refine ⟨es ++ List.replicate as.length .dispatch, h', ?_, ?_, ?_, ?_⟩
    · rw [Machine.run_trans hr₁, hr]
    · rw [adds_append, adds_replicate, hadds, Nat.add_zero]
    · rw [dispatches_append, dispatches_replicate, adds_append, adds_replicate, hdispatches, hadds,
        hplace]
      omega
    · rw [hgone x hbefore, hgone₁ x hne]

/-- The request at 110 is added again and again, and the one at 125 waits. -/
theorem passed_over_thousand_times : ∃ h : History (Fin 2),
    (historyMachine ![110, 125]).run ⟨initial 100, [], [], []⟩ [.add 0, .dispatch, .add 1] = some h ∧
    pending h.state = [1] ∧ ∃ es h', (historyMachine ![110, 125]).run h es = some h' ∧
      adds es = 1000 ∧ dispatches es = (pending h.state).idxOf 1 + adds es ∧ h'.gone 1 = h.gone 1 := by
  obtain ⟨h, hr, hpending, hhead⟩ : ∃ h : History (Fin 2),
      (historyMachine ![110, 125]).run ⟨initial 100, [], [], []⟩ [.add 0, .dispatch, .add 1] = some h ∧
      pending h.state = [1] ∧ h.state.endSector = 110 := ⟨_, rfl, rfl, rfl⟩
  have hidle : 0 ∉ pending h.state := by
    rw [hpending]
    decide
  have hwaits : 1 ∈ pending h.state := by
    rw [hpending]
    decide
  exact ⟨h, hr, hpending,
    (handed_over_within ⟨_, _, ⟨100, rfl⟩, hr⟩ hwaits).2 0 hidle hhead 1000⟩

end OperatingSystems.Sstf
