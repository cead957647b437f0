import OperatingSystems.SearchInsertDelete.Overlap

namespace OperatingSystems.SearchInsertDelete

open Library

/-- The calls of a thread. -/
inductive Op where
  | insert (newValue : ℤ)
  | search (newValue : ℤ)
  | delete (newValue : ℤ)
  deriving DecidableEq

/-- What a call is meant to do to the sequence of values. -/
def Op.apply : Op → List ℤ → List ℤ
  | insert v, l => l ++ [v]
  | search _, l => l
  | delete v, l => l.erase v

/-- A call in its list section. -/
inductive Call where
  | insert (newValue : ℤ) (pc : InsertPc)
  | search (newValue : ℤ) (pc : SearchPc)
  | delete (newValue : ℤ) (pc : DeletePc)
  deriving DecidableEq

namespace Call

def start : Op → Call
  | .insert v => insert v .testHead
  | .search v => search v .loadHead
  | .delete v => delete v .testHead

def op : Call → Op
  | insert v _ => .insert v
  | search v _ => .search v
  | delete v _ => .delete v

/-- The node of the list that the walk of a call reads next. -/
def reads : Call → Option Addr
  | insert _ (.testNext it) | insert _ (.loadNext it) => some it
  | search _ pc => pc.follows
  | delete _ (.testData it _) | delete _ (.loadNext it) => some it
  | delete _ (.loadUnlinkHead it) | delete _ (.loadUnlink it _) => some it
  | _ => none

/-- The node that a call writes or frees next. -/
def writes : Call → Option Addr
  | insert _ (.storeHeadData q) | insert _ (.storeHeadNext q) => some q
  | insert _ (.storeData _ temp) | insert _ (.storeNext _ temp) => some temp
  | insert _ (.link it _) => some it
  | delete _ (.unlink _ itp _) => some itp
  | delete _ (.free it) => some it
  | _ => none

end Call

/-- The list used by one thread: the call that it is in, and the values that the calls before were
meant to leave. -/
structure Single where
  mem : Mem
  call : Option Call
  reference : List ℤ

inductive SingleEvent where
  | call (op : Op)
  | step (i : Input)

namespace Single

/-- The end of a call of `op`. -/
def finish (s : Single) (op : Op) (m : Mem) : Single := ⟨m, none, op.apply s.reference⟩

/-- One access to memory. -/
def access (s : Single) (i : Input) : Call → Option Single
  | .insert v pc => (insertStep s.mem v i pc).map fun (m, pc') =>
      match pc' with
      | some pc' => { s with mem := m, call := some (.insert v pc') }
      | none => s.finish (.insert v) m
  | .search v pc => (searchStep s.mem v pc).map fun r =>
      match r with
      | .inl pc' => { s with call := some (.search v pc') }
      | .inr _ => s.finish (.search v) s.mem
  | .delete v pc => (deleteStep s.mem v pc).map fun (m, r) =>
      match r with
      | .inl pc' => { s with mem := m, call := some (.delete v pc') }
      | .inr _ => s.finish (.delete v) m

def step (s : Single) : SingleEvent → Option Single
  | .call op => if s.call = none then some { s with call := some (.start op) } else none
  | .step i => s.call.bind (s.access i)

/-- Where `main` starts, when `malloc` has left `garbage` in `head->head`. -/
def initial (garbage : Addr) : Single := ⟨⟨garbage, fun _ => none⟩, none, []⟩

end Single

def single (garbage : Addr) : Machine Single SingleEvent where
  init s := s = .initial garbage
  step := Single.step

/-- The values of a list in memory, in order. -/
def contents (xs : List (Addr × ℤ)) : List ℤ := xs.map Prod.snd

@[simp] theorem contents_cons (x : Addr × ℤ) (xs : List (Addr × ℤ)) :
    contents (x :: xs) = x.2 :: contents xs := rfl

@[simp] theorem contents_append (xs ys : List (Addr × ℤ)) :
    contents (xs ++ ys) = contents xs ++ contents ys :=
  List.map_append ..

@[simp] theorem length_contents (xs : List (Addr × ℤ)) : (contents xs).length = xs.length :=
  List.length_map ..

/-- The only node is in `head->head` and not yet filled in. -/
def Single.fillsHead (s : Single) : Bool :=
  match s.call with
  | some (.insert v pc) => (insertPoint v (some pc)).fillsHead
  | _ => false

/-- The list in memory is the reference sequence, or already what the call makes of it; the call can
go on, with allocated nodes only, and comes to its end; and it reports what is there. -/
structure ActsAsList (garbage : Addr) (s : Single) : Prop where
  represents : s.fillsHead = false → ∃ xs, s.mem.WellFormed xs ∧ (contents xs = s.reference ∨
    ∃ c, s.call = some c ∧ contents xs = c.op.apply s.reference)
  reads : ∀ c a, s.call = some c → c.reads = some a →
    ∃ n, s.mem.node a = some n ∧ n.dataStored = true ∧ n.nextStored = true
  writes : ∀ c a, s.call = some c → c.writes = some a → (s.mem.node a).isSome
  proceeds : ∀ c i, s.call = some c → i.addr ≠ 0 → s.mem.node i.addr = none →
    (s.step (.step i)).isSome
  ends : ∀ (is : List Input) t, (single garbage).run s (is.map .step) = some t →
    is.length ≤ 2 * s.reference.length + 7
  finds : ∀ v pc found, s.call = some (.search v pc) →
    searchStep s.mem v pc = some (.inr found) → (found = true ↔ v ∈ s.reference)
  deletes : ∀ v pc m removed, s.call = some (.delete v pc) →
    deleteStep s.mem v pc = some (m, .inr removed) → (removed = true ↔ v ∈ s.reference)

end OperatingSystems.SearchInsertDelete
