import OperatingSystems.Library.Shares
import OperatingSystems.Slob.Handover

namespace OperatingSystems.Slob

open Library

variable {τ : Type*} {g : Config} {A : MinAlign g} {s : Allocator τ} {p q : Ptr} {m size sp order : ℕ}

namespace Region

/-- The unit belongs to the region. -/
def Has (g : Config) : Region → ℕ → Prop
  | units b size, u => b ≤ u ∧ u < b + g.unitsOf size
  | pages sp order, u => sp ≤ g.pageOf u ∧ g.pageOf u < sp + 2 ^ order

/-- The block that `slob_free` is to free. -/
def block (A : MinAlign g) : Region → Option Block
  | units b size => some ⟨b, size, A.bytes⟩
  | pages .. => none

def compound : Region → Option (ℕ × ℕ)
  | units .. => none
  | pages sp order => some (sp, order)

def Apart (g : Config) (r r' : Region) : Prop := ∀ u, r.Has g u → ¬ r'.Has g u

end Region

/-- The regions of two pointers have no unit in common. -/
def Ptr.Apart (g : Config) (p q : Ptr) : Prop := p.took.Apart g q.took

instance : Std.Symm (Ptr.Apart g) := ⟨fun _ _ h u hu hu' => h u hu' hu⟩

/-- The block that a call has in its hands. -/
def Call.block (A : MinAlign g) : Call → Option Block
  | header m size => some ⟨m, size + A.bytes, A.bytes⟩
  | free m size => some ⟨m, size, A.bytes⟩
  | idle | alloc _ | freeing => none

/-- Where the heap has the thread. -/
def Call.At (A : MinAlign g) : Call → Point → Prop
  | alloc size, p => 0 < size ∧ size + A.bytes < g.pageSize ∧
      ∃ r, p.request = some r ∧ r.size = size + A.bytes ∧ r.align = A.bytes
  | header _ size, p => 0 < size ∧ size + A.bytes < g.pageSize ∧ p = .idle
  | freeing, p => ∃ sp, p = .pageEmpty sp
  | idle, p | free .., p => p = .idle

/-- What the pointers own together, and what a call does. -/
def Allocator.own (A : MinAlign g) (s : Allocator τ) : Option τ → Block → Prop
  | none, b => ∃ p ∈ s.ptrs, p.took.block A = some b
  | some t, b => (s.call t).block A = some b

/-- What `__kmalloc` took for a pointer that it returned. -/
def Ptr.Served (A : MinAlign g) (p : Ptr) : Prop :=
  match p.took with
  | .units m size => p.addr = m + A.units ∧ size = p.size + A.bytes ∧ 0 < p.size ∧ size < g.pageSize
  | .pages sp order => p.addr = sp * g.pageUnits ∧ order = g.getOrder p.size

/-- The units of the header belong to some pointer. -/
def Allocator.InHeader (g : Config) (s : Allocator τ) (u : ℕ) : Prop :=
  ∃ p ∈ s.ptrs, ∃ m size, p.took = .units m size ∧ m ≤ u ∧ u < m + 4 / g.slobUnit

/-- The calls, the pointers, the headers, the heap and the page allocator agree. -/
structure Agrees (A : MinAlign g) (s : Allocator τ) : Prop where
  slob : Invariant g s.slob
  flags : SlabFlags s.slob
  calls : ∀ t, (s.call t).At A (s.slob.point t)
  shares : Shares (s.own A) (· ∈ s.slob.live)
  served : ∀ p ∈ s.ptrs, p.Served A
  header : ∀ p ∈ s.ptrs, ∀ m size, p.took = .units m size →
    readUInt g s.slob.heap.mem.cell m = p.size
  disjoint : s.ptrs.Pairwise (Ptr.Apart g)
  held : (s.ptrs.filterMap fun p => p.took.compound).Perm s.held
  orders : ∀ x ∈ s.held, s.compoundOrder x.1 = x.2
  outside : ∀ sp, InLarge s.held sp → s.slob.status sp = .outside

namespace Agrees

variable (ha : Agrees A s) (hp : p ∈ s.ptrs)
include ha hp

/-- The block of a pointer is live, and the object begins inside it. -/
theorem block (htook : p.took = .units m size) : ⟨m, size, A.bytes⟩ ∈ s.slob.live ∧
    p.addr = m + A.units ∧ size = p.size + A.bytes ∧ 0 < p.size ∧ g.pageOf p.addr = g.pageOf m ∧
    s.slob.status (g.pageOf m) = .heap := by
  have hserved := ha.served p hp
  rw [Ptr.Served, htook] at hserved
  obtain ⟨haddr, hsize, hpos, -⟩ := hserved
  have hlive : ⟨m, size, A.bytes⟩ ∈ s.slob.live :=
    ha.shares.sub none _ ⟨p, hp, by rw [htook]; rfl⟩
  obtain ⟨ls, runs, hl⟩ := ha.slob.layout
  have hplaced := hl.placed _ hlive
  refine ⟨hlive, haddr, hsize, hpos, ?_, hplaced.onHeap⟩
  apply hplaced.pageOf_eq
  have hunits := g.unitsOf_pos hpos
  rw [haddr, hsize]
  refine ⟨Nat.le_add_right m A.units, ?_⟩
  change m + A.units < m + g.unitsOf (p.size + A.bytes)
  rw [unitsOf_add]
  omega

/-- The pages of a pointer are outside the heap. -/
theorem pages (htook : p.took = .pages sp order) : p.addr = sp * g.pageUnits ∧
    order = g.getOrder p.size ∧ g.pageOf p.addr = sp ∧ (sp, order) ∈ s.held ∧
    s.compoundOrder sp = order := by
  have hserved := ha.served p hp
  rw [Ptr.Served, htook] at hserved
  obtain ⟨haddr, horder⟩ := hserved
  have hheld : (sp, order) ∈ s.held := by
    apply ha.held.subset
    exact List.mem_filterMap.mpr ⟨p, hp, by rw [htook]; rfl⟩
  refine ⟨haddr, horder, ?_, hheld, ha.orders _ hheld⟩
  rw [haddr]
  apply Config.pageOf_eq le_rfl
  rw [Nat.succ_mul]
  exact Nat.lt_add_of_pos_right g.pageUnits_pos

/-- `PageSlab` tells who served a pointer. -/
theorem slab_iff :
    (s.slob.heap.page (g.pageOf p.addr)).slab = true ↔ ∃ m size, p.took = .units m size := by
  rw [ha.flags]
  cases htook : p.took with
  | units m size =>
    obtain ⟨-, -, -, -, hpage, hstatus⟩ := ha.block hp htook
    rw [hpage, hstatus]
    exact iff_of_true nofun ⟨m, size, rfl⟩
  | pages sp order =>
    obtain ⟨-, -, hpage, hheld, -⟩ := ha.pages hp htook
    have hpos := Nat.two_pow_pos order
    rw [hpage, ha.outside sp ⟨_, hheld, le_rfl, Nat.lt_add_of_pos_right hpos⟩]
    exact iff_of_false (fun h => h rfl) fun ⟨m, size, h⟩ => by cases h

/-- `kfree` hands back what `__kmalloc` took. -/
theorem handsBack_eq : s.handsBack A p.addr = p.took := by
  have hslab := ha.slab_iff hp
  rw [Allocator.handsBack]
  cases htook : p.took with
  | units m size =>
    obtain ⟨-, haddr, hsize, -, -⟩ := ha.block hp htook
    rw [if_pos (hslab.mpr ⟨m, size, htook⟩), haddr, Nat.add_sub_cancel]
    rw [hsize, ← ha.header p hp m size htook]
  | pages sp order =>
    obtain ⟨-, -, hpage, -, horder⟩ := ha.pages hp htook
    have hnot : ¬ (s.slob.heap.page (g.pageOf p.addr)).slab = true := by
      rw [hslab, htook]
      rintro ⟨m, size, h⟩
      cases h
    rw [if_neg hnot, hpage, horder]

theorem aligned : A.bytes ∣ p.addr * g.slobUnit := by
  have hne : A.bytes ≠ 0 := by
    have := A.four_le
    omega
  cases htook : p.took with
  | units m size =>
    obtain ⟨hlive, haddr, -⟩ := ha.block hp htook
    obtain ⟨ls, runs, hl⟩ := ha.slob.layout
    have hblock := (hl.placed _ hlive).aligned hne
    rw [haddr, Nat.add_mul, ← A.bytes_eq]
    exact hblock.add dvd_rfl
  | pages sp order =>
    obtain ⟨haddr, -⟩ := ha.pages hp htook
    rw [haddr]
    exact dvd_base (.inr ⟨_, A.pow.symm⟩) A.lt_page.le hne

/-- What `ksize` says, in units; it makes room for the object. -/
theorem ksize_eq : ∃ n, s.ksize A (.addr p.addr) = some (n * g.slobUnit) ∧
    p.size ≤ n * g.slobUnit ∧ 0 < n ∧
    ∀ u, p.addr ≤ u → u < p.addr + n →
      p.took.Has g u ∧ ∀ m size, p.took = .units m size → m + A.units ≤ u := by
  have hslab := ha.slab_iff hp
  rw [Allocator.ksize]
  cases htook : p.took with
  | units m size =>
    obtain ⟨-, haddr, hsize, hpos, -⟩ := ha.block hp htook
    have hflag := hslab.mpr ⟨m, size, htook⟩
    refine ⟨g.unitsOf p.size, ?_, le_unitsOf p.size, g.unitsOf_pos hpos,
      fun u hlo hhi => ⟨⟨?_, ?_⟩, ?_⟩⟩
    · rw [if_neg (by rw [hflag]; decide), haddr, Nat.add_sub_cancel, ha.header p hp m size htook]
    · omega
    · rw [hsize, unitsOf_add]
      omega
    · intro m' size' heq
      obtain ⟨rfl, -⟩ := Region.units.inj heq
      omega
  | pages sp order =>
    obtain ⟨haddr, horder, hpage, -, hcompound⟩ := ha.pages hp htook
    have hflag : (s.slob.heap.page (g.pageOf p.addr)).slab = false := by
      rw [← Bool.not_eq_true, hslab, htook]
      rintro ⟨m, size, h⟩
      cases h
    have hbytes : g.pageSize * 2 ^ order = 2 ^ order * g.pageUnits * g.slobUnit := by
      rw [Nat.mul_assoc, g.sizes.2.1, Nat.mul_comm]
    refine ⟨2 ^ order * g.pageUnits, ?_, ?_, Nat.mul_pos (Nat.two_pow_pos _) g.pageUnits_pos,
      fun u hlo hhi => ⟨⟨?_, ?_⟩, ?_⟩⟩
    · rw [if_pos hflag, hpage, hcompound, hbytes]
    · rw [← hbytes, horder]
      exact le_getOrder p.size
    · rw [Config.pageOf, Nat.le_div_iff_mul_le g.pageUnits_pos]
      omega
    · rw [Config.pageOf, Nat.div_lt_iff_lt_mul g.pageUnits_pos, Nat.add_mul]
      omega
    · intro m size heq
      cases heq

/-- The address tells which pointer it is. -/
theorem eq_of_addr (hq : q ∈ s.ptrs) (haddr : q.addr = p.addr) : q = p := by
  have hhas : ∀ r ∈ s.ptrs, r.took.Has g r.addr := by
    intro r hr
    obtain ⟨n, -, -, hpos, hrange⟩ := ha.ksize_eq hr
    exact (hrange r.addr le_rfl (by omega)).1
  by_contra hne
  have hapart := ha.disjoint.forall hq hp hne
  exact hapart p.addr (haddr ▸ hhas q hq) (hhas p hp)

/-- The header is part of what was taken. -/
theorem header_has (htook : p.took = .units m size) {u : ℕ} (hlo : m ≤ u)
    (hhi : u < m + 4 / g.slobUnit) : p.took.Has g u := by
  obtain ⟨-, -, hsize, -⟩ := ha.block hp htook
  rw [htook, hsize]
  exact ⟨hlo, header_lt A hhi⟩

/-- The units of a pointer are those of a live block, or of pages outside the heap. -/
theorem live_or_outside {u : ℕ} (hu : p.took.Has g u) :
    (∃ m size, p.took = .units m size ∧ ⟨m, size, A.bytes⟩ ∈ s.slob.live ∧
      Block.Has g ⟨m, size, A.bytes⟩ u) ∨
    InLarge s.held (g.pageOf u) ∧ s.slob.status (g.pageOf u) = .outside := by
  cases htook : p.took with
  | units m size =>
    rw [htook] at hu
    exact .inl ⟨m, size, rfl, (ha.block hp htook).1, hu⟩
  | pages sp order =>
    obtain ⟨-, -, -, hheld, -⟩ := ha.pages hp htook
    rw [htook] at hu
    have hlarge : InLarge s.held (g.pageOf u) := ⟨_, hheld, hu⟩
    exact .inr ⟨hlarge, ha.outside _ hlarge⟩

omit hp in
/-- A thread that is about to free a block is between the calls of the heap, and the block is live. -/
theorem free_ready {t : τ} (hcall : s.call t = .free m size) :
    s.slob.point t = .idle ∧ ⟨m, size, A.bytes⟩ ∈ s.slob.live := by
  constructor
  · have hpoint := ha.calls t
    rwa [hcall] at hpoint
  · apply ha.shares.sub (some t)
    rw [Allocator.own, hcall]
    rfl

omit hp in
/-- What an owner may write to was taken for a pointer, behind its header. -/
theorem owns {u : ℕ} (hown : s.Owns A u) : ∃ p ∈ s.ptrs, p.took.Has g u ∧
    ∀ m size, p.took = .units m size → m + A.units ≤ u := by
  obtain ⟨p, hp, hle, hlt⟩ := hown
  obtain ⟨n, hn, -, -, hrange⟩ := ha.ksize_eq hp
  rw [hn, Option.getD_some, Nat.mul_div_cancel n g.slobUnit_pos] at hlt
  exact ⟨p, hp, hrange u hle hlt⟩

omit hp in
/-- Owners do not write to headers. -/
theorem not_inHeader {u : ℕ} (hown : s.Owns A u ∨ s.slob.status (g.pageOf u) = .outside) :
    ¬ s.InHeader g u := by
  rintro ⟨q, hq, m, size, htook, hlo, hhi⟩
  have hin := ha.header_has hq htook hlo hhi
  rcases hown with hown | hout
  · obtain ⟨p, hp, hhas, habove⟩ := ha.owns hown
    by_cases hpq : p = q
    · have hunits := header_le A
      have := habove m size (hpq ▸ htook)
      omega
    · exact ha.disjoint.forall hp hq hpq u hhas hin
  · obtain ⟨hlive, -⟩ := ha.block hq htook
    rw [htook] at hin
    rw [ha.slob.status_of_live hlive hin] at hout
    cases hout

end Agrees

end OperatingSystems.Slob
