import OperatingSystems.Slob.Bytes
import OperatingSystems.Slob.Handover

namespace OperatingSystems.Slob

open Library

/-- The size of a pointer. -/
inductive PointerSize where
  | four | eight
  deriving DecidableEq

namespace PointerSize

def bytes : PointerSize → ℕ
  | four => 4
  | eight => 8

/-- The offset of `size` in a `struct slob_rcu`, behind the two pointers of `head`. -/
def rcuHead (w : PointerSize) : ℕ := 2 * w.bytes

/-- `sizeof(struct slob_rcu)`, with the padding behind `size`. -/
def slobRcu (w : PointerSize) : ℕ := 3 * w.bytes

end PointerSize

/-- The fields of a `struct kmem_cache` that the allocator uses; `destroyByRcu` is
`SLAB_DESTROY_BY_RCU` of its flags. -/
structure Cache where
  objectSize : ℕ
  size : ℕ
  align : ℕ
  destroyByRcu : Bool
  deriving DecidableEq

/-- `__kmem_cache_create` -/
def kmemCacheCreate (w : PointerSize) (c : Cache) (destroyByRcu : Bool) : Cache :=
  { c with size := if destroyByRcu then c.size + w.slobRcu else c.size, destroyByRcu := destroyByRcu }

/-- The memory that `slob_alloc_node` took at the unit `addr`. -/
structure Object where
  cache : Cache
  addr : ℕ
  deriving DecidableEq

/-- What becomes of an object: a call sets it up, it is in use, it waits in an RCU callback for the
sections of `readers` to end, or a call of `slob_free` gives it back. -/
inductive Stage (τ : Type*) where
  | fresh (t : τ)
  | inUse
  | queued (head : ℕ) (readers : List τ)
  | leaving (t : τ)
  deriving DecidableEq

/-- Where a thread stands: inside `slob_alloc`, in the `memset` or the constructor, before the locked
section of `slob_free`, or before it gives back the page. -/
inductive CacheCall where
  | idle
  | alloc (c : Cache)
  | setUp (o : Object)
  | free (b : Block)
  | freeing
  deriving DecidableEq

/-- The heap, the caches, the pages taken for large objects, the objects, the threads inside an RCU
read-side section, and the calls in progress. -/
structure Caches (τ : Type*) where
  slob : State τ
  caches : List Cache
  held : List (ℕ × ℕ)
  objects : List (Object × Stage τ)
  readers : List τ
  call : τ → CacheCall

inductive CacheOp (τ : Type*) where
  | create (size align : ℕ) (destroyByRcu : Bool)
  | shutdown (c : Cache)
  | alloc (t : τ) (c : Cache) (node : Option ℕ) (pages : Option ℕ)
  | newPages (t : τ) (sp : Option ℕ)
  | addPage (t : τ)
  | setUp (t : τ) (a v : ℕ)
  | ret (t : τ)
  | free (t : τ) (c : Cache) (b : ℕ)
  | rcuFree (t : τ) (head : ℕ)
  | slobFree (t : τ)
  | freePages (t : τ)
  | readLock (t : τ)
  | readUnlock (t : τ)
  | write (a v : ℕ)
  | writeHead (a v : ℕ)
  | other (e : Event τ)

namespace Event

variable {τ : Type*}

/-- The thread that makes a call of the heap. -/
def thread : Event τ → Option τ
  | alloc t _ | newPages t _ | addPage t | free t _ | freePages t => some t
  | store .. | reuse .. => none

/-- The page that is taken from outside the heap, or used there. -/
def page : Event τ → Option ℕ
  | newPages _ sp => sp
  | reuse sp .. => some sp
  | _ => none

/-- The unit that its owner writes to. -/
def stored : Event τ → Option ℕ
  | store u _ => some u
  | _ => none

end Event

section Objects

variable (g : Config)

/-- The units that an object takes. -/
def Object.units (o : Object) : ℕ :=
  if o.cache.size < g.pageSize then g.unitsOf o.cache.size
  else 2 ^ g.getOrder o.cache.size * g.pageUnits

def Object.Has (o : Object) (u : ℕ) : Prop := o.addr ≤ u ∧ u < o.addr + o.units g

instance (o : Object) (u : ℕ) : Decidable (o.Has g u) := inferInstanceAs (Decidable (_ ∧ _))

/-- The block that an object is. -/
def Object.block (o : Object) : Block := ⟨o.addr, o.cache.size, o.cache.align⟩

/-- The address of the `struct slob_rcu` at the end of an object. -/
def Object.slobRcu (w : PointerSize) (o : Object) : ℕ :=
  o.addr * g.slobUnit + (o.cache.size - w.slobRcu)

end Objects

/-- A user of the object may write to it, under RCU also while it waits. -/
def Stage.shared {τ : Type*} : Stage τ → Bool
  | inUse | queued .. => true
  | _ => false

def Stage.head? {τ : Type*} : Stage τ → Option ℕ
  | queued head _ => some head
  | _ => none

/-- One reader less to wait for. -/
def Stage.unlock {τ : Type*} [DecidableEq τ] (t : τ) : Stage τ → Stage τ
  | queued head readers => queued head (readers.filter (· ≠ t))
  | stage => stage

namespace Caches

variable {τ : Type*} [DecidableEq τ]

def goto (s : Caches τ) (t : τ) (c : CacheCall) : Caches τ :=
  { s with call := Function.update s.call t c }

/-- The object `o` goes from one stage to another. -/
def move (s : Caches τ) (o : Object) (old new : Stage τ) : Caches τ :=
  { s with objects := (o, new) :: s.objects.erase (o, old) }

def storeByte (g : Config) (s : Caches τ) (a v : ℕ) : Caches τ :=
  { s with slob := { s.slob with heap := s.slob.heap.storeByte g a v } }

/-- What the page allocator may return: frames that nobody has. -/
def PagesFree (g : Config) (s : Caches τ) (sp order : ℕ) : Prop :=
  ∀ i < 2 ^ order, sp + i < g.frames ∧ s.slob.status (sp + i) = .outside ∧ ¬ InLarge s.held (sp + i)

instance (s : Caches τ) (sp order : ℕ) : Decidable (s.PagesFree g sp order) :=
  inferInstanceAs (Decidable (∀ i < 2 ^ order, _ ∧ _ ∧ _))

/-- `__kmem_cache_free`, up to the locked section of `slob_free`; the object and its stage only say
which one of `objects` it is. -/
def kmemCacheFree (g : Config) (s : Caches τ) (t : τ) (b size : ℕ) (x : Object × Stage τ) : Caches τ :=
  if size < g.pageSize then
    (s.move x.1 x.2 (.leaving t)).goto t (.free ⟨b, size, x.1.cache.align⟩)
  else { s with held := s.held.erase (g.pageOf b, g.getOrder size), objects := s.objects.erase x }

/-- What a step of another user of the heap leaves alone. -/
def Foreign (g : Config) (s : Caches τ) (e : Event τ) : Prop :=
  (∀ t ∈ e.thread, s.call t = .idle) ∧ (∀ b ∈ e.freed, ∀ x ∈ s.objects, x.1.block ≠ b) ∧
    (∀ sp ∈ e.page, ¬ InLarge s.held sp) ∧ ∀ u ∈ e.stored, ∀ x ∈ s.objects, ¬ x.1.Has g u

instance (s : Caches τ) (e : Event τ) : Decidable (s.Foreign g e) :=
  inferInstanceAs (Decidable (_ ∧ _ ∧ _ ∧ _))

/-- The steps of the slab caches, of the users of their objects, of RCU, and of whoever else uses the
heap. -/
def step (g : Config) (nid : ℕ → ℕ) (w : PointerSize) (s : Caches τ) : CacheOp τ → Option (Caches τ)
  | .create size align destroyByRcu =>
      if 0 < size ∧ size ≤ 2 ^ 30 ∧ (align = 0 ∨ 2 ^ align.log2 = align ∧ align ≤ g.pageSize) then
        some { s with
          caches := kmemCacheCreate w ⟨size, size, align, false⟩ destroyByRcu :: s.caches }
      else none
  | .shutdown c => some { s with caches := s.caches.erase c } -- no way to check for remaining objects
  | .alloc t c node pages =>
      if s.call t = .idle ∧ s.slob.point t = .idle ∧ c ∈ s.caches then
        if c.size < g.pageSize then
          (Slob.step g nid s.slob (.alloc t ⟨c.size, c.align, node⟩)).map fun slob =>
            if slob.point t = .idle then
              let o : Object := ⟨c, slob.returned⟩
              { s.goto t (.setUp o) with slob := slob, objects := (o, .fresh t) :: s.objects }
            else { s.goto t (.alloc c) with slob := slob }
        else
          match pages with
          | none => some s -- return NULL
          | some sp =>
              if s.PagesFree g sp (g.getOrder c.size) then
                let o : Object := ⟨c, sp * g.pageUnits⟩
                some { s.goto t (.setUp o) with
                  held := (sp, g.getOrder c.size) :: s.held
                  objects := (o, .fresh t) :: s.objects }
              else none
      else none
  | .newPages t sp => match s.call t with
      | .alloc c =>
          if ∀ p ∈ sp, ¬ InLarge s.held p then
            (Slob.step g nid s.slob (.newPages t sp)).map fun slob =>
              { s.goto t (if sp = none then .idle else .alloc c) with slob := slob }
          else none
      | _ => none
  | .addPage t => match s.call t with
      | .alloc c => (Slob.step g nid s.slob (.addPage t)).map fun slob =>
          let o : Object := ⟨c, slob.returned⟩
          { s.goto t (.setUp o) with slob := slob, objects := (o, .fresh t) :: s.objects }
      | _ => none
  | .setUp t a v => match s.call t with -- memset and c->ctor
      | .setUp o =>
          if o.addr * g.slobUnit ≤ a ∧ a < o.addr * g.slobUnit + o.cache.size then
            some (s.storeByte g a v)
          else none
      | _ => none
  | .ret t => match s.call t with
      | .setUp o => some ((s.move o (.fresh t) .inUse).goto t .idle)
      | _ => none
  | .free t c b =>
      let o : Object := ⟨c, b⟩
      if s.call t = .idle ∧ s.slob.point t = .idle ∧ c ∈ s.caches ∧ (o, .inUse) ∈ s.objects then
        if c.destroyByRcu then
          let slobRcu := b * g.slobUnit + (c.size - w.slobRcu)
          some { s.move o .inUse (.queued slobRcu s.readers) with
            slob := { s.slob with heap := s.slob.heap.writeInt g (slobRcu + w.rcuHead) c.size } }
        else some (s.kmemCacheFree g t b c.size (o, .inUse))
      else none
  | .rcuFree t head => -- kmem_rcu_free
      if s.call t = .idle ∧ s.slob.point t = .idle then
        (s.objects.find? fun x => x.2 = .queued head []).map fun x =>
          let size := readInt g s.slob.heap.mem.cell (head + w.rcuHead)
          let b := (head - (size - w.slobRcu)).toNat
          s.kmemCacheFree g t (b / g.slobUnit) (size % 2 ^ (8 * w.bytes)).toNat x
      else none
  | .slobFree t => match s.call t with
      | .free b => (s.slob.slobFree g t b).map fun slob =>
          { s.goto t (if slob.point t = .idle then .idle else .freeing) with
            slob := slob, objects := s.objects.filter (·.2 ≠ .leaving t) }
      | _ => none
  | .freePages t => match s.call t with
      | .freeing => (Slob.step g nid s.slob (.freePages t)).map fun slob =>
          { s.goto t .idle with slob := slob }
      | _ => none
  | .readLock t => if t ∈ s.readers then none else some { s with readers := t :: s.readers }
  | .readUnlock t =>
      if t ∈ s.readers then
        some { s with
          readers := s.readers.filter (· ≠ t)
          objects := s.objects.map fun x => (x.1, x.2.unlock t) }
      else none
  | .write a v =>
      if ∃ x ∈ s.objects, x.2.shared = true ∧ x.1.addr * g.slobUnit ≤ a ∧
          a < x.1.addr * g.slobUnit + x.1.cache.objectSize then
        some (s.storeByte g a v)
      else none
  | .writeHead a v => -- call_rcu and the RCU core use the two pointers of a queued head
      if ∃ x ∈ s.objects, ∃ head ∈ x.2.head?, head ≤ a ∧ a < head + w.rcuHead then
        some (s.storeByte g a v)
      else none
  | .other e =>
      if s.Foreign g e then (Slob.step g nid s.slob e).map fun slob => { s with slob := slob }
      else none

end Caches

/-- Any number of threads that use slab caches, on a heap that is empty at first. -/
def slabCaches {τ : Type*} [DecidableEq τ] (g : Config) (nid : ℕ → ℕ) (w : PointerSize) :
    Machine (Caches τ) (CacheOp τ) where
  init s := EmptyHeap s.slob ∧ s.caches = [] ∧ s.held = [] ∧ s.objects = [] ∧ s.readers = [] ∧
    ∀ t, s.call t = .idle
  step := Caches.step g nid w

end OperatingSystems.Slob
