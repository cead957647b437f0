import OperatingSystems.Slob.Caches
import OperatingSystems.Slob.LiveData

namespace OperatingSystems.Slob

open Library

variable {τ : Type*} {g : Config} {nid : ℕ → ℕ} {w : PointerSize}

/-- What `kmem_cache_create` is called with, and `__kmem_cache_create` adds. -/
structure Cache.Valid (g : Config) (w : PointerSize) (c : Cache) : Prop where
  pos : 0 < c.objectSize
  size_eq : c.size = c.objectSize + if c.destroyByRcu then w.slobRcu else 0
  size_lt : c.size < 2 ^ 31
  align : c.align = 0 ∨ 2 ^ c.align.log2 = c.align ∧ c.align ≤ g.pageSize

/-- The memory of an object is still taken: its block of the heap, or its pages. -/
def Object.Reserved (g : Config) (live : List Block) (held : List (ℕ × ℕ)) (o : Object) : Prop :=
  if o.cache.size < g.pageSize then o.block ∈ live
  else o.addr = g.base o.addr ∧ (g.pageOf o.addr, g.getOrder o.cache.size) ∈ held

def Object.Apart (g : Config) (o o' : Object) : Prop := ∀ u, o.Has g u → ¬ o'.Has g u

/-- What an object in the given stage goes with. -/
def Stage.Fits (g : Config) (w : PointerSize) (s : Caches τ) (o : Object) : Stage τ → Prop
  | fresh t => s.call t = .setUp o
  | inUse => True
  | queued head readers => o.cache.destroyByRcu = true ∧ head = o.slobRcu g w ∧
      readInt g s.slob.heap.mem.cell (head + w.rcuHead) = o.cache.size ∧ readers ⊆ s.readers
  | leaving t => s.call t = .free o.block ∧ o.cache.size < g.pageSize

/-- What a thread in the given call goes with. -/
def CacheCall.Fits (g : Config) (w : PointerSize) (s : Caches τ) (t : τ) : CacheCall → Prop
  | idle => True
  | alloc c => c.Valid g w ∧ c.size < g.pageSize ∧
      ∃ r, (s.slob.point t).request = some r ∧ r.size = c.size ∧ r.align = c.align
  | setUp o => s.slob.point t = .idle ∧ (o, .fresh t) ∈ s.objects
  | free b => s.slob.point t = .idle ∧ ∃ o, (o, .leaving t) ∈ s.objects ∧ o.block = b
  | freeing => ∃ sp, s.slob.point t = .pageEmpty sp

/-- The caches, the objects, the calls, the heap and the page allocator agree. -/
structure Kept (g : Config) (w : PointerSize) (s : Caches τ) : Prop where
  slob : Invariant g s.slob
  outside : ∀ sp, InLarge s.held sp → s.slob.status sp = .outside
  caches : ∀ c ∈ s.caches, c.Valid g w
  valid : ∀ x ∈ s.objects, x.1.cache.Valid g w
  reserved : ∀ x ∈ s.objects, x.1.Reserved g s.slob.live s.held
  disjoint : s.objects.Pairwise fun x y => x.1.Apart g y.1
  stages : ∀ x ∈ s.objects, x.2.Fits g w s x.1
  calls : ∀ t, (s.call t).Fits g w s t

theorem Object.Apart.symm {o o' : Object} (h : o.Apart g o') : o'.Apart g o :=
  fun u hu hu' => h u hu' hu

instance : Std.Symm fun x y : Object × Stage τ => x.1.Apart g y.1 := ⟨fun _ _ => Object.Apart.symm⟩

namespace Object

variable {o o' : Object} {live : List Block} {held : List (ℕ × ℕ)} {u a : ℕ}

theorem units_of_small (h : o.cache.size < g.pageSize) : o.units g = g.unitsOf o.cache.size :=
  if_pos h

theorem units_of_large (h : ¬ o.cache.size < g.pageSize) :
    o.units g = 2 ^ g.getOrder o.cache.size * g.pageUnits := if_neg h

/-- An object is large enough. -/
theorem size_le (o : Object) : o.cache.size ≤ o.units g * g.slobUnit := by
  by_cases h : o.cache.size < g.pageSize
  · rw [units_of_small h]
    exact le_unitsOf _
  · rw [units_of_large h, Nat.mul_assoc, g.sizes.2.1, Nat.mul_comm]
    exact le_getOrder _

theorem units_pos (h : 0 < o.cache.size) : 0 < o.units g := by
  have hle := o.size_le (g := g)
  by_contra hzero
  rw [Nat.eq_zero_of_not_pos hzero, Nat.zero_mul] at hle
  omega

/-- The bytes of an object are in its units. -/
theorem has_of_byte (hlo : o.addr * g.slobUnit ≤ a) (hhi : a < o.addr * g.slobUnit + o.cache.size) :
    o.Has g (a / g.slobUnit) := by
  have hle := o.size_le (g := g)
  have hunit := g.slobUnit_pos
  refine ⟨(Nat.le_div_iff_mul_le hunit).mpr hlo, (Nat.div_lt_iff_lt_mul hunit).mpr ?_⟩
  rw [Nat.add_mul]
  omega

/-- The units of a large object are those of its pages. -/
theorem has_large (hlarge : ¬ o.cache.size < g.pageSize) (hr : o.Reserved g live held) :
    o.Has g u ↔ g.pageOf o.addr ≤ g.pageOf u ∧
      g.pageOf u < g.pageOf o.addr + 2 ^ g.getOrder o.cache.size := by
  rw [Reserved, if_neg hlarge] at hr
  have haddr : o.addr = g.pageOf o.addr * g.pageUnits := hr.1
  have hpos := g.pageUnits_pos
  rw [Has, units_of_large hlarge]
  generalize g.pageOf o.addr = sp at haddr
  rw [haddr, Config.pageOf, Nat.le_div_iff_mul_le hpos, Nat.div_lt_iff_lt_mul hpos, Nat.add_mul]

/-- Where the units of an object are. -/
theorem Reserved.status {σ : State τ} (hi : Invariant g σ)
    (hout : ∀ sp, InLarge held sp → σ.status sp = .outside) (hr : o.Reserved g σ.live held)
    (hu : o.Has g u) :
    (o.cache.size < g.pageSize ∧ o.block ∈ σ.live ∧ o.block.Has g u ∧ σ.status (g.pageOf u) = .heap) ∨
    (¬ o.cache.size < g.pageSize ∧ InLarge held (g.pageOf u) ∧ σ.status (g.pageOf u) = .outside) := by
  by_cases hsmall : o.cache.size < g.pageSize
  · have hblock : o.block ∈ σ.live := by
      rw [Reserved, if_pos hsmall] at hr
      exact hr
    have hhas : o.block.Has g u := by
      rw [Has, units_of_small hsmall] at hu
      exact hu
    exact .inl ⟨hsmall, hblock, hhas, hi.status_of_live hblock hhas⟩
  · have hlarge : InLarge held (g.pageOf u) := by
      have hpages := (has_large hsmall hr).mp hu
      rw [Reserved, if_neg hsmall] at hr
      exact ⟨_, hr.2, hpages⟩
    exact .inr ⟨hsmall, hlarge, hout _ hlarge⟩

/-- Two objects are apart if their blocks differ, or their pages do. -/
theorem apart_of_reserved {σ : State τ} (hi : Invariant g σ)
    (hout : ∀ sp, InLarge held sp → σ.status sp = .outside) (hr : o.Reserved g σ.live held)
    (hr' : o'.Reserved g σ.live held)
    (hsmall : o.cache.size < g.pageSize → o.block ≠ o'.block)
    (hlarge : ¬ o.cache.size < g.pageSize → ¬ o'.cache.size < g.pageSize →
      ∀ u, o.Has g u → ¬ o'.Has g u) : o.Apart g o' := by
  intro u hu hu'
  rcases hr.status hi hout hu with ⟨hs, hlive, hhas, hheap⟩ | ⟨hs, -, houtside⟩ <;>
    rcases hr'.status hi hout hu' with ⟨-, hlive', hhas', hheap'⟩ | ⟨hs', -, houtside'⟩
  · have : Std.Symm fun a b : Block => ∀ u, a.Has g u → ¬ b.Has g u :=
      ⟨fun _ _ h u hu hu' => h u hu' hu⟩
    obtain ⟨ls, runs, hl⟩ := hi.layout
    exact hl.disjoint.forall hlive hlive' (hsmall hs) u hhas hhas'
  · rw [hheap] at houtside'
    cases houtside'
  · rw [houtside] at hheap'
    cases hheap'
  · exact hlarge hs hs' u hu hu'

end Object

end OperatingSystems.Slob
