import Mathlib.Logic.Function.Basic
import Mathlib.Data.Int.Notation
import Mathlib.Data.Nat.Notation
import Mathlib.Data.Option.Basic

namespace OperatingSystems.SearchInsertDelete

/-- A pointer to a `struct list_node`; `NULL` is 0. -/
abbrev Addr := ℕ

/-- A `struct list_node`. The two flags record which fields have been stored since `malloc`. -/
structure Node where
  data : ℤ
  next : Addr
  dataStored : Bool
  nextStored : Bool
  deriving DecidableEq

/-- `head->head` and the nodes that are allocated. -/
structure Mem where
  head : Addr
  node : Addr → Option Node

/-- What a step may find undetermined: the argument of the next call, and the address and the
arbitrary contents of the memory that `malloc` returns. -/
structure Input where
  value : ℤ := 0
  addr : Addr := 0
  data : ℤ := 0
  next : Addr := 0
  deriving DecidableEq, Inhabited

namespace Mem

/-- `malloc` returns memory that is not in use, with whatever contents it has. -/
def malloc (m : Mem) (i : Input) : Option Mem :=
  if i.addr = 0 ∨ (m.node i.addr).isSome then none
  else some { m with node := Function.update m.node i.addr (some ⟨i.data, i.next, false, false⟩) }

def free (m : Mem) (a : Addr) : Option Mem :=
  (m.node a).map fun _ => { m with node := Function.update m.node a none }

def setData (m : Mem) (a : Addr) (v : ℤ) : Option Mem :=
  (m.node a).map fun n =>
    { m with node := Function.update m.node a (some { n with data := v, dataStored := true }) }

def setNext (m : Mem) (a next : Addr) : Option Mem :=
  (m.node a).map fun n =>
    { m with node := Function.update m.node a (some { n with next := next, nextStored := true }) }

@[simp] theorem malloc_isSome (m : Mem) (i : Input) :
    (m.malloc i).isSome ↔ i.addr ≠ 0 ∧ m.node i.addr = none := by
  simp [malloc]

@[simp] theorem free_isSome (m : Mem) (a : Addr) : (m.free a).isSome = (m.node a).isSome :=
  Option.isSome_map ..

@[simp] theorem setData_isSome (m : Mem) (a : Addr) (v : ℤ) :
    (m.setData a v).isSome = (m.node a).isSome :=
  Option.isSome_map ..

@[simp] theorem setNext_isSome (m : Mem) (a next : Addr) :
    (m.setNext a next).isSome = (m.node a).isSome :=
  Option.isSome_map ..

end Mem

/-- The list section of `insert`, one read or write of shared memory at a time. -/
inductive InsertPc where
  | testHead
  | mallocHead | storeHead (p : Addr)
  | loadHeadForData | storeHeadData (q : Addr) | loadHeadForNext | storeHeadNext (q : Addr)
  | loadIterator | testNext (iterator : Addr) | loadNext (iterator : Addr)
  | malloc (iterator : Addr)
  | storeData (iterator temp : Addr) | storeNext (iterator temp : Addr) | link (iterator temp : Addr)
  deriving DecidableEq

/-- One step of `insert` between its entry and its exit protocol; the new program point is `none`
at the end of the section. Following a pointer to memory that is not allocated is a fault. -/
def insertStep (m : Mem) (newValue : ℤ) (i : Input) : InsertPc → Option (Mem × Option InsertPc)
  | .testHead => some (m, some (if m.head = 0 then .mallocHead else .loadIterator))
  | .mallocHead => (m.malloc i).map fun m' => (m', some (.storeHead i.addr))
  | .storeHead p => some ({ m with head := p }, some .loadHeadForData)
  | .loadHeadForData => some (m, some (.storeHeadData m.head))
  | .storeHeadData q => (m.setData q newValue).map fun m' => (m', some .loadHeadForNext)
  | .loadHeadForNext => some (m, some (.storeHeadNext m.head))
  | .storeHeadNext q => (m.setNext q 0).map fun m' => (m', none)
  | .loadIterator => some (m, some (.testNext m.head))
  | .testNext it => (m.node it).map fun n =>
      (m, some (if n.next ≠ 0 then .loadNext it else .malloc it))
  | .loadNext it => (m.node it).map fun n => (m, some (.testNext n.next))
  | .malloc it => (m.malloc i).map fun m' => (m', some (.storeData it i.addr))
  | .storeData it temp => (m.setData temp newValue).map fun m' => (m', some (.storeNext it temp))
  | .storeNext it temp => (m.setNext temp 0).map fun m' => (m', some (.link it temp))
  | .link it temp => (m.setNext it temp).map fun m' => (m', none)

/-- The list section of `search`. -/
inductive SearchPc where
  | loadHead | testData (iterator : Addr) | loadNext (iterator : Addr)
  deriving DecidableEq

/-- One step of `search`; it ends with `searched`. -/
def searchStep (m : Mem) (newValue : ℤ) : SearchPc → Option (SearchPc ⊕ Bool)
  | .loadHead => some (if m.head = 0 then .inr false else .inl (.testData m.head))
  | .testData it => (m.node it).map fun n =>
      if n.data = newValue then .inr true else .inl (.loadNext it)
  | .loadNext it => (m.node it).map fun n =>
      if n.next = 0 then .inr false else .inl (.testData n.next)

/-- The list section of `delete`. -/
inductive DeletePc where
  | testHead | loadHead
  | testData (iterator iteratorp : Addr) | loadNext (iterator : Addr)
  | loadUnlinkHead (iterator : Addr) | unlinkHead (iterator next : Addr)
  | loadUnlink (iterator iteratorp : Addr) | unlink (iterator iteratorp next : Addr)
  | free (iterator : Addr)
  deriving DecidableEq

/-- One step of `delete`; it ends with whether it reported a deletion. The test of an empty list
decides only which message is printed. -/
def deleteStep (m : Mem) (newValue : ℤ) : DeletePc → Option (Mem × (DeletePc ⊕ Bool))
  | .testHead => some (m, .inl .loadHead)
  | .loadHead => some (m, if m.head = 0 then .inr false else .inl (.testData m.head 0))
  | .testData it itp => (m.node it).map fun n => (m, .inl (
      if n.data = newValue then
        if itp = 0 then .loadUnlinkHead it else .loadUnlink it itp
      else .loadNext it))
  | .loadNext it => (m.node it).map fun n =>
      (m, if n.next = 0 then .inr false else .inl (.testData n.next it))
  | .loadUnlinkHead it => (m.node it).map fun n => (m, .inl (.unlinkHead it n.next))
  | .unlinkHead it next => some ({ m with head := next }, .inl (.free it))
  | .loadUnlink it itp => (m.node it).map fun n => (m, .inl (.unlink it itp n.next))
  | .unlink it itp next => (m.setNext itp next).map fun m' => (m', .inl (.free it))
  | .free it => (m.free it).map fun m' => (m', .inr true)

end OperatingSystems.SearchInsertDelete
