import Mathlib.Data.Fintype.Card
import OperatingSystems.Library.Machine
import OperatingSystems.Library.Ring

namespace OperatingSystems.Sstf

open Library

/-- The list heads: `sd->queue`, and the `queuelist` in each request. -/
inductive Entry (ρ : Type*) where
  | queue
  | queuelist (rq : ρ)
  deriving DecidableEq

/-- The pointers of all list heads, and `q->end_sector`. -/
structure State (ρ : Type*) where
  links : Links (Entry ρ)
  endSector : UInt64

/-- `list_entry(pos, struct request, queuelist)` -/
def listEntry {ρ : Type*} : Entry ρ → Option ρ
  | .queue => none
  | .queuelist rq => some rq

/-- The distance of two sectors, kept in an `unsigned int`. -/
def sectorDiff (req ref : UInt64) : UInt32 :=
  if req ≥ ref then (req - ref).toUInt32 else (ref - req).toUInt32

section Functions

variable {ρ : Type*} [DecidableEq ρ] (blkRqPos : ρ → UInt64)

/-- What the loop of `sstf_add_request` works on. -/
structure Loop (ρ : Type*) where
  links : Links (Entry ρ)
  endRef : UInt64
  isAdded : Bool

def addBody (rq : ρ) (w : Loop ρ) (currPos : Entry ρ) : Links.Flow (Loop ρ) :=
  match listEntry currPos with
  | some currNode =>
    let currReq := blkRqPos currNode
    let addDiff := sectorDiff (blkRqPos rq) w.endRef
    let currDiff := sectorDiff currReq w.endRef
    if currDiff ≥ addDiff then
      .done { w with links := w.links.listAddTail (.queuelist rq) currPos, isAdded := true }
    else .next { w with endRef := currReq }
  | none => .done w -- the loop ends before it reaches the head

/-- `sstf_add_request`; the fuel of the loop is the number of requests there are. -/
def sstfAddRequest [Fintype ρ] (s : State ρ) (rq : ρ) : Option (State ρ) :=
  if s.links.listEmpty .queue then
    some { s with links := s.links.listAddTail (.queuelist rq) .queue }
  else
    (Links.listForEach Loop.links .queue (addBody blkRqPos rq) (Fintype.card ρ + 1)
      (s.links.next .queue) ⟨s.links, s.endSector, false⟩).map fun (currPos, w) =>
        { s with links :=
            if w.isAdded then w.links else w.links.listAddTail (.queuelist rq) currPos }

/-- The block layer's part of a dispatch: the head moves to the request. -/
def elvDispatchSort (s : State ρ) (rq : ρ) : State ρ := { s with endSector := blkRqPos rq }

/-- `sstf_dispatch`, with the request it hands over when it returns 1. -/
def sstfDispatch (s : State ρ) : State ρ × Option ρ :=
  if s.links.listEmpty .queue then (s, none)
  else match listEntry (s.links.next .queue) with
    | some rq => (elvDispatchSort blkRqPos
        { s with links := s.links.listDelInit (.queuelist rq) } rq, some rq)
    | none => (s, none)

/-- `sstf_merged_requests`; the block layer has merged `next` into `rq`. -/
def sstfMergedRequests (s : State ρ) (_rq next : ρ) : State ρ :=
  { s with links := s.links.listDelInit (.queuelist next) }

/-- `sstf_former_request` -/
def sstfFormerRequest (s : State ρ) (rq : ρ) : Option ρ :=
  if s.links.prev (.queuelist rq) = .queue then none
  else listEntry (s.links.prev (.queuelist rq))

/-- `sstf_latter_request` -/
def sstfLatterRequest (s : State ρ) (rq : ρ) : Option ρ :=
  if s.links.next (.queuelist rq) = .queue then none
  else listEntry (s.links.next (.queuelist rq))

/-- A call from the block layer. -/
inductive Call (ρ : Type*) where
  | add (rq : ρ)
  | dispatch

/-- Only a request that is on no list is added. -/
def step [Fintype ρ] (s : State ρ) : Call ρ → Option (State ρ)
  | .add rq => if s.links.listEmpty (.queuelist rq) then sstfAddRequest blkRqPos s rq else none
  | .dispatch => some (sstfDispatch blkRqPos s).1

/-- After `INIT_LIST_HEAD` on the queue and on every request. -/
def initial (endSector : UInt64) : State ρ := ⟨⟨id, id⟩, endSector⟩

def machine [Fintype ρ] : Machine (State ρ) (Call ρ) where
  init s := ∃ endSector, s = initial endSector
  step := step blkRqPos

/-- The requests in the queue, in order. -/
def pending [Fintype ρ] (s : State ρ) : List ρ :=
  (s.links.entriesFrom .queue (Fintype.card ρ + 1) (s.links.next .queue)).filterMap listEntry

end Functions

end OperatingSystems.Sstf
