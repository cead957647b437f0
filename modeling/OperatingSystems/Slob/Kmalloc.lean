import Mathlib.Data.Nat.Size
import OperatingSystems.Library.Simulation
import OperatingSystems.Library.Threads
import OperatingSystems.Slob.LiveData

namespace OperatingSystems.Slob

open Library

/-- `align` of `__do_kmalloc_node` and of `kfree`: the larger one of `ARCH_KMALLOC_MINALIGN` and
`ARCH_SLAB_MINALIGN`. -/
structure MinAlign (g : Config) where
  bytes : ℕ
  pow : 2 ^ bytes.log2 = bytes
  four_le : 4 ≤ bytes
  lt_page : bytes < g.pageSize

/-- The pointer arithmetic of `(void *)m + align`, in units. -/
def MinAlign.units {g : Config} (A : MinAlign g) : ℕ := A.bytes / g.slobUnit

section Header

variable (g : Config)

/-- `get_order`: the least number of doublings of a page that makes room for `size` bytes. -/
def Config.getOrder (size : ℕ) : ℕ := ((size - 1) / g.pageSize).size

/-- The read of an `unsigned int` at `m`, low half first where it takes two units. -/
def readUInt (cell : ℕ → ℤ) (m : ℕ) : ℕ :=
  if g.slobUnit = 2 then (cell m % 2 ^ 16).toNat + (cell (m + 1) % 2 ^ 16).toNat * 2 ^ 16
  else (cell m % 2 ^ 32).toNat

/-- The units that the write of an `unsigned int` at `m` stores. -/
def uintStores (m v : ℕ) : List (ℕ × ℤ) :=
  if g.slobUnit = 2 then
    [(m, g.toIdx (v % 2 ^ 16 : ℕ)), (m + 1, g.toIdx (v / 2 ^ 16 % 2 ^ 16 : ℕ))]
  else [(m, g.toIdx (v % 2 ^ 32 : ℕ))]

def Heap.writeUInt (h : Heap) (m v : ℕ) : Heap :=
  (uintStores g m v).foldl (fun h x => h.store x.1 x.2) h

end Header

/-- What a call takes from the allocator below it: a block of `slob_alloc`, or pages. -/
inductive Region where
  | units (b size : ℕ)
  | pages (sp order : ℕ)
  deriving DecidableEq

/-- A pointer that `__kmalloc` has returned, what was asked for, and what was taken for it. -/
structure Ptr where
  addr : ℕ
  size : ℕ
  took : Region
  deriving DecidableEq

/-- Where a thread stands in a call of `__kmalloc` or `kfree`: inside `slob_alloc`, before or after its
`memset`, before the locked section of `slob_free`, or before it gives back the page. -/
inductive Call where
  | idle
  | alloc (size : ℕ)
  | header (m size : ℕ)
  | free (m size : ℕ)
  | freeing
  deriving DecidableEq

/-- An argument of `kfree` and `ksize`. -/
inductive Pointer where
  | null | zeroSize
  | addr (a : ℕ)
  deriving DecidableEq

/-- The heap, `compound_order` of the pages, the pages handed out by the page allocator for large
objects, the live pointers, and the calls in progress. -/
structure Allocator (τ : Type*) where
  slob : State τ
  compoundOrder : ℕ → ℕ
  held : List (ℕ × ℕ)
  ptrs : List Ptr
  call : τ → Call

inductive Op (τ : Type*) where
  | kmalloc (t : τ) (size : ℕ) (node : Option ℕ) (pages : Option ℕ)
  | newPages (t : τ) (sp : Option ℕ)
  | addPage (t : τ)
  | memset (t : τ) (a : ℕ) (v : ℤ)
  | setHeader (t : τ)
  | kfree (t : τ) (block : Pointer)
  | slobFree (t : τ)
  | freePages (t : τ)
  | store (a : ℕ) (v : ℤ)
  | reuse (sp : ℕ) (p : Page) (next prev : Entry) (order : ℕ)

/-- The frame belongs to the pages of a large object. -/
def InLarge (held : List (ℕ × ℕ)) (sp : ℕ) : Prop := ∃ x ∈ held, x.1 ≤ sp ∧ sp < x.1 + 2 ^ x.2

instance (held : List (ℕ × ℕ)) (sp : ℕ) : Decidable (InLarge held sp) :=
  inferInstanceAs (Decidable (∃ x ∈ held, _ ∧ _))

variable {τ : Type*} {g : Config}

/-- What the page allocator may return: frames that nobody has. -/
def Allocator.PagesFree (g : Config) (s : Allocator τ) (sp order : ℕ) : Prop :=
  ∀ i < 2 ^ order, sp + i < g.frames ∧ s.slob.status (sp + i) = .outside ∧ ¬ InLarge s.held (sp + i)

instance (s : Allocator τ) (sp order : ℕ) : Decidable (s.PagesFree g sp order) :=
  inferInstanceAs (Decidable (∀ i < 2 ^ order, _ ∧ _ ∧ _))

/-- The block that `slob_alloc` has just returned. -/
def State.returned (s : State τ) : ℕ := (s.live.head?.map Block.start).getD 0

/-- `ksize`; `none` is `BUG_ON(!block)`. -/
def Allocator.ksize (A : MinAlign g) (s : Allocator τ) : Pointer → Option ℕ
  | .null => none
  | .zeroSize => some 0
  | .addr block =>
      let sp := g.pageOf block
      if (s.slob.heap.page sp).slab = false then some (g.pageSize * 2 ^ s.compoundOrder sp)
      else some (g.unitsOf (readUInt g s.slob.heap.mem.cell (block - A.units)) * g.slobUnit)

/-- What `kfree` gives to `slob_free` or `__free_pages`. -/
def Allocator.handsBack (A : MinAlign g) (s : Allocator τ) (block : ℕ) : Region :=
  let sp := g.pageOf block
  if (s.slob.heap.page sp).slab then
    let m := block - A.units
    .units m (readUInt g s.slob.heap.mem.cell m + A.bytes)
  else .pages sp (s.compoundOrder sp)

/-- The owner of a live pointer may write to the `ksize` bytes from there on. -/
def Allocator.Owns (A : MinAlign g) (s : Allocator τ) (a : ℕ) : Prop :=
  ∃ p ∈ s.ptrs, p.addr ≤ a ∧ a < p.addr + (s.ksize A (.addr p.addr)).getD 0 / g.slobUnit

instance (A : MinAlign g) (s : Allocator τ) (a : ℕ) : Decidable (s.Owns A a) :=
  inferInstanceAs (Decidable (∃ p ∈ s.ptrs, _ ∧ _))

variable [DecidableEq τ]

/-- The locked section of `slob_free`, of whatever it is given. -/
def State.slobFree (g : Config) (s : State τ) (t : τ) (b : Block) : Option (State τ) :=
  (Slob.slobFree g s.heap b.start b.size).map fun (h, empty) =>
    let sp := g.pageOf b.start
    let s := { s with heap := h, live := s.live.erase b }
    if empty then (s.goto t (.pageEmpty sp)).setStatus sp .leaving else s

def Allocator.goto (s : Allocator τ) (t : τ) (c : Call) : Allocator τ :=
  { s with call := Function.update s.call t c }

/-- The steps of `__kmalloc` and `kfree`, of the owners of live pointers, and of the rest of the
kernel on its own pages. -/
def Allocator.step (nid : ℕ → ℕ) (A : MinAlign g) (s : Allocator τ) : Op τ → Option (Allocator τ)
  | .kmalloc t size node pages =>
      if s.call t = .idle then
        if size < g.pageSize - A.bytes then
          if size = 0 then some s -- return ZERO_SIZE_PTR
          else (Slob.step g nid s.slob (.alloc t ⟨size + A.bytes, A.bytes, node⟩)).map fun slob =>
            { s.goto t (if slob.point t = .idle then .header slob.returned size else .alloc size) with
              slob := slob }
        else
          let order := g.getOrder size
          match pages with
          | none => some s -- return NULL
          | some sp =>
              if s.PagesFree g sp order then
                some { s with
                  compoundOrder := Function.update s.compoundOrder sp order
                  held := (sp, order) :: s.held
                  ptrs := ⟨sp * g.pageUnits, size, .pages sp order⟩ :: s.ptrs }
              else none
      else none
  | .newPages t sp => match s.call t with
      | .alloc size =>
          if ∀ p ∈ sp, ¬ InLarge s.held p then
            (Slob.step g nid s.slob (.newPages t sp)).map fun slob =>
              { s.goto t (if sp = none then .idle else .alloc size) with slob := slob }
          else none
      | _ => none
  | .addPage t => match s.call t with
      | .alloc size => (Slob.step g nid s.slob (.addPage t)).map fun slob =>
          { s.goto t (.header slob.returned size) with slob := slob }
      | _ => none
  | .memset t a v => match s.call t with -- the last unit may not be covered whole
      | .header m size =>
          if m ≤ a ∧ a < m + g.unitsOf (size + A.bytes) ∧
              ((a + 1 - m) * g.slobUnit ≤ size + A.bytes → v = 0) then
            some { s with slob := { s.slob with heap := s.slob.heap.store a v } }
          else none
      | _ => none
  | .setHeader t => match s.call t with
      | .header m size => some { s.goto t .idle with
          slob := { s.slob with heap := s.slob.heap.writeUInt g m size }
          ptrs := ⟨m + A.units, size, .units m (size + A.bytes)⟩ :: s.ptrs }
      | _ => none
  | .kfree t block =>
      if s.call t = .idle then
        match block with
        | .null | .zeroSize => some s
        | .addr block => (s.ptrs.find? fun p => p.addr = block).map fun p =>
            match s.handsBack A block with
            | .units m size => { s.goto t (.free m size) with ptrs := s.ptrs.erase p }
            | .pages sp order => { s with
                held := s.held.erase (sp, order)
                ptrs := s.ptrs.erase p }
      else none
  | .slobFree t => match s.call t with
      | .free m size => (s.slob.slobFree g t ⟨m, size, A.bytes⟩).map fun slob =>
          { s.goto t (if slob.point t = .idle then .idle else .freeing) with slob := slob }
      | _ => none
  | .freePages t => match s.call t with
      | .freeing => (Slob.step g nid s.slob (.freePages t)).map fun slob =>
          { s.goto t .idle with slob := slob }
      | _ => none
  | .store a v =>
      if s.Owns A a ∨ s.slob.status (g.pageOf a) = .outside then
        some { s with slob := { s.slob with heap := s.slob.heap.store a v } }
      else none
  | .reuse sp p next prev order =>
      if InLarge s.held sp then none
      else (Slob.step g nid s.slob (.reuse sp p next prev)).map fun slob =>
        { s with slob := slob, compoundOrder := Function.update s.compoundOrder sp order }

/-- Any number of threads that call `__kmalloc` and `kfree`, on an empty heap. -/
def allocator (nid : ℕ → ℕ) (A : MinAlign g) : Machine (Allocator τ) (Op τ) where
  init s := EmptyHeap s.slob ∧ s.held = [] ∧ s.ptrs = [] ∧ ∀ t, s.call t = .idle
  step := Allocator.step nid A

end OperatingSystems.Slob
