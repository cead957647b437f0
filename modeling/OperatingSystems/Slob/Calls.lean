import Mathlib.Data.List.Basic
import OperatingSystems.Library.Machine
import OperatingSystems.Slob.Heap

namespace OperatingSystems.Slob

open Library

/-- Who has a page: the rest of the kernel, a call that has just got it, the heap, or a call that is
giving it back. -/
inductive Status where
  | outside | taken | heap | leaving
  deriving DecidableEq

/-- A live block, at the unit `start`, and what was asked for. -/
structure Block where
  start : ℕ
  size : ℕ
  align : ℕ
  deriving DecidableEq

/-- Where a thread stands: between calls, before `slob_new_pages`, before the locked section that
enters the new page, or before the page is given back. -/
inductive Point where
  | idle
  | noRoom (r : Request)
  | newPage (r : Request) (sp : ℕ)
  | pageEmpty (sp : ℕ)
  deriving DecidableEq

structure State (τ : Type*) where
  heap : Heap
  status : ℕ → Status
  live : List Block
  point : τ → Point

inductive Event (τ : Type*) where
  | alloc (t : τ) (r : Request)
  | newPages (t : τ) (sp : Option ℕ)
  | addPage (t : τ)
  | free (t : τ) (b : Block)
  | freePages (t : τ)
  | store (a : ℕ) (v : ℤ)
  | reuse (sp : ℕ) (p : Page) (next prev : Entry)

/-- The sizes and alignments that `slob_alloc` is called with. -/
def Request.Valid (g : Config) (r : Request) : Prop :=
  1 ≤ r.size ∧ r.size < g.pageSize ∧
    (r.align = 0 ∨ 2 ^ r.align.log2 = r.align ∧ r.align ≤ g.pageSize)

instance (g : Config) (r : Request) : Decidable (r.Valid g) :=
  inferInstanceAs (Decidable (_ ∧ _ ∧ (_ ∨ _ ∧ _)))

/-- The unit belongs to the block. -/
def Block.Has (g : Config) (b : Block) (u : ℕ) : Prop :=
  b.start ≤ u ∧ u < b.start + g.unitsOf b.size

instance (g : Config) (b : Block) (u : ℕ) : Decidable (b.Has g u) :=
  inferInstanceAs (Decidable (_ ∧ _))

/-- The unit belongs to a live block. -/
def Live (g : Config) (live : List Block) (u : ℕ) : Prop := ∃ b ∈ live, b.Has g u

instance (g : Config) (live : List Block) (u : ℕ) : Decidable (Live g live u) :=
  inferInstanceAs (Decidable (∃ b ∈ live, b.Has g u))

def Heap.setSlab (h : Heap) (sp : ℕ) (slab : Bool) : Heap := h.setPage sp { h.page sp with slab := slab }

def Heap.store (h : Heap) (a : ℕ) (v : ℤ) : Heap :=
  { h with mem := { h.mem with cell := Function.update h.mem.cell a v } }

/-- The owner of a page may do anything with its `struct page`, except to set `PageSlab`. -/
def Heap.reuse (h : Heap) (sp : ℕ) (p : Page) (next prev : Entry) : Heap :=
  { h.setPage sp { p with slab := (h.page sp).slab } with
    links := ⟨Function.update h.links.next (.lru sp) next, Function.update h.links.prev (.lru sp) prev⟩ }

variable {τ : Type*} [DecidableEq τ]

def State.goto (s : State τ) (t : τ) (p : Point) : State τ :=
  { s with point := Function.update s.point t p }

def State.setStatus (s : State τ) (sp : ℕ) (st : Status) : State τ :=
  { s with status := Function.update s.status sp st }

/-- The steps of the calls, a locked section being one step, and of the owners of memory: they write
to their live blocks and to the pages outside the heap. -/
def step (g : Config) (nid : ℕ → ℕ) (s : State τ) : Event τ → Option (State τ)
  | .alloc t r =>
      if s.point t = .idle ∧ r.Valid g then
        (slobAllocSearch g nid s.heap r).map fun (h, b) => match b with
          | some b => { s with heap := h, live := ⟨b, r.size, r.align⟩ :: s.live }
          | none => { s.goto t (.noRoom r) with heap := h }
      else none
  | .newPages t sp => match s.point t, sp with
    | .noRoom _, none => some (s.goto t .idle) -- return NULL
    | .noRoom r, some sp =>
        if s.status sp = .outside ∧ sp < g.frames then
          some { (s.goto t (.newPage r sp)).setStatus sp .taken with heap := s.heap.setSlab sp true }
        else none
    | _, _ => none
  | .addPage t => match s.point t with
    | .newPage r sp => (slobAllocNew g s.heap sp r).map fun (h, b) =>
        { (s.goto t .idle).setStatus sp .heap with
          heap := h, live := ⟨b, r.size, r.align⟩ :: s.live }
    | _ => none
  | .free t b =>
      if s.point t = .idle ∧ b ∈ s.live then
        (slobFree g s.heap b.start b.size).map fun (h, empty) =>
          let sp := g.pageOf b.start
          let s := { s with heap := h, live := s.live.erase b }
          if empty then (s.goto t (.pageEmpty sp)).setStatus sp .leaving else s
      else none
  | .freePages t => match s.point t with
    | .pageEmpty sp =>
        some { (s.goto t .idle).setStatus sp .outside with heap := s.heap.setSlab sp false }
    | _ => none
  | .store a v =>
      if s.status (g.pageOf a) = .outside ∨ Live g s.live a then
        some { s with heap := s.heap.store a v }
      else none
  | .reuse sp p next prev =>
      if s.status sp = .outside then some { s with heap := s.heap.reuse sp p next prev } else none

/-- The empty heap. -/
structure EmptyHeap (s : State τ) : Prop where
  lists : ∀ c, s.heap.links.next (.list c) = .list c ∧ s.heap.links.prev (.list c) = .list c
  status : ∀ sp, s.status sp = .outside
  live : s.live = []
  point : ∀ t, s.point t = .idle
  slab : ∀ sp, (s.heap.page sp).slab = false

/-- Any number of threads that call `slob_alloc` and `slob_free`. -/
def machine (g : Config) (nid : ℕ → ℕ) : Machine (State τ) (Event τ) where
  init := EmptyHeap
  step := step g nid

end OperatingSystems.Slob
