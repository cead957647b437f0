import OperatingSystems.Library.Ring
import OperatingSystems.Slob.Block

namespace OperatingSystems.Slob

open Library

/-- The fields of a `struct page` that the allocator uses, `lru` apart. -/
structure Page where
  units : ℤ
  freelist : ℕ
  slobFree : Bool
  slab : Bool

inductive SizeClass where
  | small | medium | large
  deriving DecidableEq

/-- The list heads: those of the three partial lists, and the `lru` of each page. -/
inductive Entry where
  | list (c : SizeClass)
  | lru (sp : ℕ)
  | poison1 | poison2
  deriving DecidableEq

structure Heap where
  mem : Units
  page : ℕ → Page
  links : Links Entry

namespace Heap

def setPage (h : Heap) (sp : ℕ) (p : Page) : Heap := { h with page := Function.update h.page sp p }

def setFreelist (h : Heap) (sp freelist : ℕ) : Heap :=
  h.setPage sp { h.page sp with freelist := freelist }

def setUnits (h : Heap) (sp : ℕ) (units : ℤ) : Heap := h.setPage sp { h.page sp with units := units }

def setSlob (h : Heap) (g : Config) (s : ℕ) (size : ℤ) (next : ℕ) : Heap :=
  { h with mem := h.mem.setSlob g s size next }

/-- `set_slob_page_free` -/
def setSlobPageFree (h : Heap) (sp : ℕ) (c : SizeClass) : Heap :=
  { h.setPage sp { h.page sp with slobFree := true } with
    links := h.links.listAdd (.lru sp) (.list c) }

/-- `clear_slob_page_free` -/
def clearSlobPageFree (h : Heap) (sp : ℕ) : Heap :=
  { h.setPage sp { h.page sp with slobFree := false } with
    links := h.links.listDel (.lru sp) .poison1 .poison2 }

/-- `if (prev) set_slob(prev, slob_units(prev), next); else sp->freelist = next;` -/
def linkAfter (h : Heap) (g : Config) (sp : ℕ) (prev : Option ℕ) (next : ℕ) : Heap :=
  match prev with
  | some prev => h.setSlob g prev (slobUnits h.mem.cell prev) next
  | none => h.setFreelist sp next

end Heap

section Functions

variable (g : Config)

/-- `ALIGN(x, a)`: `(x + mask) & ~mask` for the mask `a - 1`. -/
def alignUp (x a : ℕ) : ℕ :=
  let mask := a - 1
  (x + mask) - ((x + mask) &&& mask)

/-- `aligned` and `delta`, in units; `aligned` is not used when no alignment is asked for. -/
def alignBlock (align cur : ℕ) : ℕ × ℕ :=
  if align = 0 then (0, 0)
  else
    let aligned := alignUp (cur * g.slobUnit) align / g.slobUnit
    (aligned, aligned - cur)

/-- The block that a scan has chosen; `best_fit_cur` is set exactly when there is one. -/
structure BestFit where
  prev : Option ℕ
  cur : ℕ
  aligned : ℕ
  delta : ℕ
  diff : ℤ

/-- The best-fit scan of a page's free list. -/
def bestFitScan (cell : ℕ → ℤ) (units align : ℕ) :
    ℕ → Option ℕ → ℕ → Option BestFit → Option (Option BestFit)
  | 0, _, _, _ => none
  | fuel + 1, prev, cur, best =>
    let avail := slobUnits cell cur
    let (aligned, delta) := alignBlock g align cur
    let best :=
      if avail ≥ units + delta ∧ best.all fun b => avail - (units + delta) < b.diff then
        some ⟨prev, cur, aligned, delta, avail - (units + delta)⟩
      else best
    if slobLast g cell cur then some best
    else bestFitScan cell units align fuel (some cur) (slobNext g cell cur) best

/-- The scan of the original first-fit algorithm. -/
def firstFitScan (cell : ℕ → ℤ) (units align : ℕ) : ℕ → Option ℕ → ℕ → Option (Option BestFit)
  | 0, _, _ => none
  | fuel + 1, prev, cur =>
    let avail := slobUnits cell cur
    let (aligned, delta) := alignBlock g align cur
    if avail ≥ units + delta then some (some ⟨prev, cur, aligned, delta, avail - (units + delta)⟩)
    else if slobLast g cell cur then some none
    else firstFitScan cell units align fuel (some cur) (slobNext g cell cur)

/-- Takes `units` from the chosen block, after splitting off its head where that is not aligned. -/
def splitHead (h : Heap) (b : BestFit) : Heap × Option ℕ × ℕ × ℤ :=
  let avail := slobUnits h.mem.cell b.cur
  if b.delta ≠ 0 then
    let next := slobNext g h.mem.cell b.cur
    let h := h.setSlob g b.aligned (avail - b.delta) next
    let h := h.setSlob g b.cur b.delta b.aligned
    (h, some b.cur, b.aligned, slobUnits h.mem.cell b.aligned)
  else (h, b.prev, b.cur, avail)

def takeUnits (h : Heap) (sp units : ℕ) (b : BestFit) : Heap × ℕ :=
  let (h, prev, cur, avail) := splitHead g h b
  let next := slobNext g h.mem.cell cur
  let h :=
    if avail = units then h.linkAfter g sp prev next
    else (h.linkAfter g sp prev (cur + units)).setSlob g (cur + units) (avail - units) next
  let h := h.setUnits sp ((h.page sp).units - units)
  (if (h.page sp).units = 0 then h.clearSlobPageFree sp else h, cur)

/-- `USE_BEST_FIT` -/
def useBestFit : Bool := true

/-- `slob_page_alloc`; a page has at most as many free blocks as units. -/
def slobPageAlloc (h : Heap) (sp size align : ℕ) : Option (Heap × Option ℕ) :=
  -- an `int` in the source, wide enough for every size below a page
  let units := g.unitsOf size
  let scan :=
    if useBestFit then
      bestFitScan g h.mem.cell units align (g.pageUnits + 1) none (h.page sp).freelist none
    else firstFitScan g h.mem.cell units align (g.pageUnits + 1) none (h.page sp).freelist
  scan.map fun best => match best with
    | some b =>
      let (h, cur) := takeUnits g h sp units b
      (h, some cur)
    | none => (h, none)

/-- The partial list for a size; `SLOB_BREAK1` is 256 and `SLOB_BREAK2` is 1024. -/
def slobList (size : ℕ) : SizeClass :=
  if size < 256 then .small else if size < 1024 then .medium else .large

/-- A call of `slob_alloc`, on any node when `node` is `none`. -/
structure Request where
  size : ℕ
  align : ℕ
  node : Option ℕ
  deriving DecidableEq

/-- What the page search of `slob_alloc` works on; `hangs` when `slob_page_alloc` does not return. -/
structure Search where
  heap : Heap
  b : Option ℕ
  hangs : Bool

def searchBody (nid : ℕ → ℕ) (r : Request) (w : Search) (pos : Entry) : Links.Flow Search :=
  match pos with
  | .lru sp =>
    if r.node.any (· ≠ nid sp) then .next w
    else if (w.heap.page sp).units < g.unitsOf r.size then .next w
    else
      let prev := w.heap.links.prev (.lru sp)
      let slobList := Entry.list (slobList r.size)
      match slobPageAlloc g w.heap sp r.size r.align with
      | none => .done { w with hangs := true }
      | some (h, none) => .next { w with heap := h }
      | some (h, some b) =>
        let links :=
          if prev ≠ h.links.prev slobList ∧ h.links.next slobList ≠ h.links.next prev then
            h.links.listMoveTail slobList (h.links.next prev)
          else h.links
        .done { w with heap := { h with links := links }, b := some b }
  | _ => .done w -- the loop ends before it reaches a list head

/-- The first locked section of `slob_alloc`: the search through the partial list. -/
def slobAllocSearch (nid : ℕ → ℕ) (h : Heap) (r : Request) : Option (Heap × Option ℕ) :=
  let slobList := Entry.list (slobList r.size)
  (Links.listForEach (fun w : Search => w.heap.links) slobList (searchBody g nid r) (g.frames + 1)
    (h.links.next slobList) ⟨h, none, false⟩).bind fun (_, w) =>
      if w.hangs then none else some (w.heap, w.b)

/-- The second one puts a new page into the heap, as one free block, and allocates from it. -/
def addPage (h : Heap) (sp : ℕ) (c : SizeClass) : Heap :=
  let b := sp * g.pageUnits
  let h := h.setPage sp { h.page sp with units := g.pageUnits, freelist := b }
  let h := { h with links := h.links.initListHead (.lru sp) }
  let h := h.setSlob g b g.pageUnits (b + g.pageUnits)
  h.setSlobPageFree sp c

def slobAllocNew (h : Heap) (sp : ℕ) (r : Request) : Option (Heap × ℕ) :=
  (slobPageAlloc g (addPage g h sp (slobList r.size)) sp r.size r.align).bind fun (h, b) =>
    b.map fun b => (h, b) -- BUG_ON(!b)

/-- The search of `slob_free` for the free blocks around `b`. -/
def findPrev (cell : ℕ → ℤ) (b : ℕ) : ℕ → ℕ → ℕ → Option (ℕ × ℕ)
  | 0, _, _ => none
  | fuel + 1, prev, next =>
    if b > next then findPrev cell b fuel next (slobNext g cell next) else some (prev, next)

/-- The reinsertion of a block into the free list of a page that has one already. -/
def reinsert (h : Heap) (sp b : ℕ) (units : ℤ) : Option Heap :=
  let freelist := (h.page sp).freelist
  if b < freelist then
    let (units, next) :=
      if b + units = freelist then
        (units + slobUnits h.mem.cell freelist, slobNext g h.mem.cell freelist)
      else (units, freelist)
    some ((h.setSlob g b units next).setFreelist sp b)
  else
    (findPrev g h.mem.cell b (g.pageUnits + 1) freelist (slobNext g h.mem.cell freelist)).map
      fun (prev, next) =>
        let h :=
          if slobLast g h.mem.cell prev = false ∧ b + units = next then
            h.setSlob g b (units + slobUnits h.mem.cell next) (slobNext g h.mem.cell next)
          else h.setSlob g b units next
        if prev + slobUnits h.mem.cell prev = b then
          h.setSlob g prev (slobUnits h.mem.cell b + slobUnits h.mem.cell prev)
            (slobNext g h.mem.cell b)
        else h.setSlob g prev (slobUnits h.mem.cell prev) b

/-- The locked section of `slob_free`, with whether the page goes back to the page allocator. -/
def slobFree (h : Heap) (b size : ℕ) : Option (Heap × Bool) :=
  let sp := g.pageOf b
  let units := g.toIdx (g.unitsOf size)
  if (h.page sp).units + units = g.pageUnits then
    some (if (h.page sp).slobFree then h.clearSlobPageFree sp else h, true)
  else if (h.page sp).slobFree = false then
    let h := h.setPage sp { h.page sp with units := units, freelist := b }
    let h := h.setSlob g b units (g.base (b + g.pageUnits))
    some (h.setSlobPageFree sp (slobList size), false)
  else
    (reinsert g (h.setUnits sp ((h.page sp).units + units)) sp b units).map fun h => (h, false)

end Functions

end OperatingSystems.Slob
