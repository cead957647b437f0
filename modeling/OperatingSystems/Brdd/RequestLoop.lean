import Mathlib.Algebra.Order.Ring.Int
import Mathlib.Data.List.Flatten
import Mathlib.Logic.Function.Iterate

namespace OperatingSystems.Brdd

def reqTypeFs : ℕ := 1

def eio : ℤ := 5

/-- A segment of a request: its length in kernel sectors and what `bio_data` points to. -/
structure Segment (β : Type*) where
  sectors : ℕ
  data : β

/-- A request of the block layer; `pos` is `blk_rq_pos`, and the segments are those not completed. -/
structure Request (ι β : Type*) where
  id : ι
  cmdType : ℕ
  write : Bool
  pos : ℕ
  segments : List (Segment β)

/-- What `brdd_request` does to requests. -/
inductive Action (ι β : Type*) where
  | look (id : ι)
  | transfer (id : ι) (sector nsect : ℕ) (data : Option β) (write : Bool)
  | endCur (id : ι)
  | complete (id : ι) (error : ℤ)

/-- The queue, `req`, and what has been done. -/
structure LoopState (ι β : Type*) where
  queue : List (Request ι β)
  req : Option (Request ι β)
  log : List (Action ι β)

section Loop

variable {ι β : Type*}

/-- `blk_rq_cur_sectors` -/
def Request.curSectors (r : Request ι β) : ℕ := (r.segments.head?.map Segment.sectors).getD 0

/-- `bio_data(req->bio)`, if there is a bio. -/
def Request.curData (r : Request ι β) : Option β := r.segments.head?.map Segment.data

/-- `__blk_end_request_cur`: the request without its current segment, and whether any is left. -/
def Request.endCur (r : Request ι β) : Request ι β × Bool :=
  ({ r with pos := r.pos + r.curSectors, segments := r.segments.tail }, !r.segments.tail.isEmpty)

/-- `req = blk_fetch_request(q)` -/
def fetch (s : LoopState ι β) : LoopState ι β :=
  { s with queue := s.queue.tail, req := s.queue.head? }

def LoopState.record (s : LoopState ι β) (as : List (Action ι β)) : LoopState ι β :=
  { s with log := s.log ++ as }

/-- One pass through the loop of `brdd_request`. -/
def pass (s : LoopState ι β) : LoopState ι β :=
  match s.req with
  | none => s
  | some req =>
    if req.cmdType ≠ reqTypeFs then s.record [.look req.id, .complete req.id (-eio)]
    else
      let s := s.record [.look req.id,
        .transfer req.id req.pos req.curSectors req.curData req.write, .endCur req.id]
      match req.endCur with
      | (req', true) => { s with req := some req' }
      | (_, false) => fetch (s.record [.complete req.id 0])

/-- `brdd_request` after a number of passes. -/
def brddRequest (queue : List (Request ι β)) (passes : ℕ) : LoopState ι β :=
  pass^[passes] (fetch ⟨queue, none, []⟩)

/-- The transfers of the segments of a request, each where the one before it ends. -/
def segmentTransfers (id : ι) (write : Bool) : ℕ → List (Segment β) → List (Action ι β)
  | _, [] => []
  | pos, seg :: segs => .transfer id pos seg.sectors (some seg.data) write ::
      segmentTransfers id write (pos + seg.sectors) segs

def Action.completion : Action ι β → Option (ι × ℤ)
  | .complete id error => some (id, error)
  | _ => none

def Action.OfSegment : Action ι β → Bool
  | .transfer _ _ _ (some _) _ => true
  | _ => false

/-- The request that an action looks at, transfers or completes. -/
def Action.id : Action ι β → ι
  | .look id | .transfer id _ _ _ _ | .endCur id | .complete id _ => id

/-- The queue is worked off: every request is completed once, with `-EIO` unless it is of the file
system, nothing is done to it afterwards, and its segments are transferred in order. -/
structure WorkedOff (queue : List (Request ι β)) (s : LoopState ι β) : Prop where
  done : s.req = none ∧ s.queue = []
  completed : s.log.filterMap Action.completion =
    queue.map fun r => (r.id, if r.cmdType = reqTypeFs then 0 else -eio)
  quiet : s.log.Pairwise fun a b => a.completion.isSome = true → b.id ≠ a.id
  transferred : s.log.filter Action.OfSegment =
    (queue.filter fun r => r.cmdType = reqTypeFs).flatMap fun r =>
      segmentTransfers r.id r.write r.pos r.segments

/-- What a request of the file system gets, from its first look to its completion. -/
def served (id : ι) (write : Bool) (pos : ℕ) : List (Segment β) → List (Action ι β)
  | [] => [.look id, .transfer id pos 0 none write, .endCur id, .complete id 0]
  | [seg] => [.look id, .transfer id pos seg.sectors (some seg.data) write, .endCur id,
      .complete id 0]
  | seg :: next :: segs => .look id :: .transfer id pos seg.sectors (some seg.data) write ::
      .endCur id :: served id write (pos + seg.sectors) (next :: segs)

variable {queue : List (Request ι β)} {log : List (Action ι β)} {r : Request ι β}

theorem pass_fs {pos : ℕ} {write : Bool} {id : ι} {seg next : Segment β}
    {segs : List (Segment β)} :
    pass ⟨queue, some ⟨id, reqTypeFs, write, pos, seg :: next :: segs⟩, log⟩ =
      ⟨queue, some ⟨id, reqTypeFs, write, pos + seg.sectors, next :: segs⟩,
        log ++ [.look id, .transfer id pos seg.sectors (some seg.data) write, .endCur id]⟩ := rfl

/-- A request of the file system is worked off segment by segment, and the next one fetched. -/
theorem request_served (queue : List (Request ι β)) (id : ι) (write : Bool) (pos : ℕ)
    (segs : List (Segment β)) (log : List (Action ι β)) :
    ∃ n, pass^[n] ⟨queue, some ⟨id, reqTypeFs, write, pos, segs⟩, log⟩ =
      fetch ⟨queue, none, log ++ served id write pos segs⟩ := by
  induction segs generalizing pos log with
  | nil =>
    refine ⟨1, ?_⟩
    simp [pass, served, LoopState.record, Request.endCur, Request.curSectors, Request.curData, fetch]
  | cons seg segs ih =>
    cases segs with
    | nil =>
      refine ⟨1, ?_⟩
      simp [pass, served, LoopState.record, Request.endCur, Request.curSectors, Request.curData,
        fetch]
    | cons next segs =>
      obtain ⟨n, hn⟩ := ih (pos + seg.sectors)
        (log ++ [.look id, .transfer id pos seg.sectors (some seg.data) write, .endCur id])
      refine ⟨n + 1, ?_⟩
      rw [Function.iterate_succ_apply, pass_fs, hn]
      simp [served]

/-- The log of a queue that holds requests of the file system only. -/
def queueLog (queue : List (Request ι β)) : List (Action ι β) :=
  queue.flatMap fun r => served r.id r.write r.pos r.segments

theorem queue_served (hfs : ∀ r ∈ queue, r.cmdType = reqTypeFs) (log : List (Action ι β)) :
    ∃ n, pass^[n] (fetch ⟨queue, none, log⟩) = ⟨[], none, log ++ queueLog queue⟩ := by
  induction queue generalizing log with
  | nil => exact ⟨0, by simp [fetch, queueLog]⟩
  | cons r queue ih =>
    have hr : r = ⟨r.id, reqTypeFs, r.write, r.pos, r.segments⟩ := by
      rw [← hfs r List.mem_cons_self]
    obtain ⟨n, hn⟩ := request_served queue r.id r.write r.pos r.segments log
    obtain ⟨m, hm⟩ := ih (fun r' hr' => hfs r' (List.mem_cons_of_mem _ hr'))
      (log ++ served r.id r.write r.pos r.segments)
    refine ⟨m + n, ?_⟩
    rw [Function.iterate_add_apply]
    have hfetch : fetch ⟨r :: queue, none, log⟩ =
        ⟨queue, some ⟨r.id, reqTypeFs, r.write, r.pos, r.segments⟩, log⟩ := by rw [← hr]; rfl
    rw [hfetch, hn, hm, queueLog, queueLog, List.flatMap_cons, List.append_assoc]

theorem served_completed (id : ι) (write : Bool) (pos : ℕ) (segs : List (Segment β)) :
    (served id write pos segs).filterMap Action.completion = [(id, 0)] := by
  induction segs generalizing pos with
  | nil => rfl
  | cons seg segs ih =>
    cases segs with
    | nil => rfl
    | cons next segs => exact ih (pos + seg.sectors)

theorem served_id (id : ι) (write : Bool) (pos : ℕ) (segs : List (Segment β)) :
    ∀ a ∈ served id write pos segs, a.id = id := by
  induction segs generalizing pos with
  | nil => simp [served, Action.id]
  | cons seg segs ih =>
    cases segs with
    | nil => simp [served, Action.id]
    | cons next segs => simpa [served, Action.id] using ih (pos + seg.sectors)

theorem served_quiet (id : ι) (write : Bool) (pos : ℕ) (segs : List (Segment β)) :
    (served id write pos segs).Pairwise fun a b => a.completion.isSome = true → b.id ≠ a.id := by
  induction segs generalizing pos with
  | nil => simp [served, Action.completion]
  | cons seg segs ih =>
    cases segs with
    | nil => simp [served, Action.completion]
    | cons next segs => simpa [served, Action.completion] using ih (pos + seg.sectors)

theorem served_transferred (id : ι) (write : Bool) (pos : ℕ) (segs : List (Segment β)) :
    (served id write pos segs).filter Action.OfSegment = segmentTransfers id write pos segs := by
  induction segs generalizing pos with
  | nil => rfl
  | cons seg segs ih =>
    cases segs with
    | nil => rfl
    | cons next segs =>
      rw [segmentTransfers, ← ih (pos + seg.sectors)]
      rfl

theorem queueLog_quiet (hid : (queue.map Request.id).Nodup) :
    (queueLog queue).Pairwise fun a b => a.completion.isSome = true → b.id ≠ a.id := by
  induction queue with
  | nil => exact List.Pairwise.nil
  | cons r queue ih =>
    obtain ⟨hnew, hid⟩ := List.nodup_cons.mp hid
    rw [queueLog, List.flatMap_cons, List.pairwise_append]
    refine ⟨served_quiet _ _ _ _, ih hid, fun a ha b hb _ hsame => hnew ?_⟩
    obtain ⟨r', hr', hb⟩ := List.mem_flatMap.mp hb
    rw [served_id _ _ _ _ a ha, served_id _ _ _ _ b hb] at hsame
    exact hsame ▸ List.mem_map_of_mem hr'

theorem queueLog_completed (queue : List (Request ι β)) :
    (queueLog queue).filterMap Action.completion = queue.map fun r => (r.id, 0) := by
  induction queue with
  | nil => rfl
  | cons r queue ih =>
    rw [queueLog, List.flatMap_cons, List.filterMap_append, served_completed, List.map_cons, ← ih]
    rfl

theorem queueLog_transferred (queue : List (Request ι β)) :
    (queueLog queue).filter Action.OfSegment =
      queue.flatMap fun r => segmentTransfers r.id r.write r.pos r.segments := by
  induction queue with
  | nil => rfl
  | cons r queue ih =>
    rw [queueLog, List.flatMap_cons, List.filter_append, served_transferred, List.flatMap_cons, ← ih]
    rfl

/-- Once a request that is not of the file system is in the queue, the loop never gets past it. -/
def Stuck (s : LoopState ι β) : Prop :=
  ∃ req, s.req = some req ∧ ∃ r, r.cmdType ≠ reqTypeFs ∧ (r = req ∨ r ∈ s.queue)

theorem stuck_fetch (h : ∃ r ∈ queue, r.cmdType ≠ reqTypeFs) (req : Option (Request ι β))
    (log : List (Action ι β)) : Stuck (fetch ⟨queue, req, log⟩) := by
  obtain ⟨r, hr, hcmd⟩ := h
  cases queue with
  | nil => exact absurd hr List.not_mem_nil
  | cons first rest => exact ⟨first, rfl, r, hcmd, List.mem_cons.mp hr⟩

theorem stuck_pass {s : LoopState ι β} (h : Stuck s) : Stuck (pass s) := by
  obtain ⟨req, hreq, r, hcmd, hr⟩ := h
  unfold pass
  rw [hreq]
  by_cases hfs : req.cmdType = reqTypeFs
  · have hqueue : r ∈ s.queue := hr.resolve_left fun heq => hcmd (heq ▸ hfs)
    simp only [hfs, ne_eq, not_true_eq_false, if_false]
    split
    next req' _ => exact ⟨req', rfl, r, hcmd, .inr hqueue⟩
    next => exact stuck_fetch ⟨r, hqueue, hcmd⟩ _ _
  · simp only [ne_eq, hfs, not_false_eq_true, if_true]
    exact ⟨req, hreq, r, hcmd, hr⟩

theorem stuck_iterate {s : LoopState ι β} (h : Stuck s) (n : ℕ) : Stuck (pass^[n] s) := by
  induction n with
  | zero => exact h
  | succ n ih =>
    rw [Function.iterate_succ_apply']
    exact stuck_pass ih

/-- The loop works the queue off exactly when every request is of the file system. -/
theorem brddRequest_worksOff_iff (queue : List (Request ι β))
    (hid : (queue.map Request.id).Nodup) :
    (∃ passes, WorkedOff queue (brddRequest queue passes)) ↔
      ∀ r ∈ queue, r.cmdType = reqTypeFs := by
  constructor
  · rintro ⟨passes, hdone⟩ r hr
    by_contra hcmd
    obtain ⟨req, hreq, -⟩ := stuck_iterate (stuck_fetch ⟨r, hr, hcmd⟩ none []) passes
    exact Option.some_ne_none req (hreq.symm.trans hdone.done.1)
  · intro hfs
    obtain ⟨n, hn⟩ := queue_served hfs []
    refine ⟨n, ?_⟩
    rw [brddRequest, hn, List.nil_append]
    refine ⟨⟨rfl, rfl⟩, ?_, queueLog_quiet hid, ?_⟩
    · rw [queueLog_completed]
      exact List.map_congr_left fun r hr => by rw [if_pos (hfs r hr)]
    · rw [queueLog_transferred, List.filter_eq_self.mpr fun r hr => decide_eq_true (hfs r hr)]

/-- A request that is not of the file system is completed once more in every pass. -/
theorem endless_completion (hcmd : r.cmdType ≠ reqTypeFs) (passes : ℕ) :
    (brddRequest (r :: queue) passes).req = some r ∧
      (brddRequest (r :: queue) passes).log.filterMap Action.completion =
        List.replicate passes (r.id, -eio) := by
  induction passes with
  | zero => exact ⟨rfl, rfl⟩
  | succ passes ih =>
    obtain ⟨hreq, hlog⟩ := ih
    rw [brddRequest, Function.iterate_succ_apply', ← brddRequest, pass, hreq]
    simp only [ne_eq, hcmd, not_false_eq_true, if_true, LoopState.record, List.filterMap_append,
      hlog, List.replicate_succ']
    exact ⟨hreq, rfl⟩

end Loop

/-- A write of two segments and a read of one: both are worked off. -/
theorem two_requests_worked_off :
    ∃ passes, WorkedOff [⟨0, 1, true, 8, [⟨2, 'a'⟩, ⟨1, 'b'⟩]⟩, ⟨1, 1, false, 0, [⟨1, 'c'⟩]⟩]
      (brddRequest [⟨0, 1, true, 8, [⟨2, 'a'⟩, ⟨1, 'b'⟩]⟩, ⟨1, 1, false, 0, [⟨1, 'c'⟩]⟩] passes) :=
  (brddRequest_worksOff_iff _ (by decide)).mpr (by decide)

/-- A single request of another type: it is completed three times in three passes and still there. -/
theorem other_request_never_done :
    (¬ ∃ passes, WorkedOff [(⟨0, 2, false, 0, []⟩ : Request ℕ Char)]
      (brddRequest [⟨0, 2, false, 0, []⟩] passes)) ∧
    (brddRequest [(⟨0, 2, false, 0, []⟩ : Request ℕ Char)] 3).log.filterMap Action.completion =
      [(0, -5), (0, -5), (0, -5)] := by
  refine ⟨fun ⟨passes, hdone⟩ => ?_, rfl⟩
  have hreq : (brddRequest [(⟨0, 2, false, 0, []⟩ : Request ℕ Char)] passes).req =
      some ⟨0, 2, false, 0, []⟩ := (endless_completion (by decide) passes).1
  exact Option.some_ne_none _ (hreq.symm.trans hdone.done.1)

end OperatingSystems.Brdd
