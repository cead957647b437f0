import OperatingSystems.Slob.Agreement

namespace OperatingSystems.Slob

open Library

variable {τ : Type*} [DecidableEq τ] {g : Config} {nid : ℕ → ℕ} {A : MinAlign g} {s s' : Allocator τ}
  {t : τ} {p : Ptr} {m size sp order : ℕ}

/-- What was taken for a pointer is still taken. -/
def Region.Reserved (A : MinAlign g) (s : Allocator τ) : Region → Prop
  | units m size => ⟨m, size, A.bytes⟩ ∈ s.slob.live
  | pages sp order => (sp, order) ∈ s.held ∧
      ∀ i < 2 ^ order, s.slob.status (sp + i) = .outside

/-- What `kfree` starts. -/
def Region.GivenBack (s' : Allocator τ) (t : τ) (held : List (ℕ × ℕ)) : Region → Prop
  | units m size => s'.call t = .free m size ∧ s'.held = held
  | pages sp order => s'.call t = .idle ∧ s'.held = held.erase (sp, order)

/-- A live pointer is as it was asked for, and `ksize` and `kfree` find out how it was served. -/
structure Ptr.Sound (nid : ℕ → ℕ) (A : MinAlign g) (s : Allocator τ) (p : Ptr) : Prop where
  served : p.Served A
  aligned : A.bytes ∣ p.addr * g.slobUnit
  reserved : p.took.Reserved A s
  ksize : ∃ n, s.ksize A (.addr p.addr) = some n ∧ p.size ≤ n ∧ ∀ a, p.addr * g.slobUnit ≤ a →
    a < p.addr * g.slobUnit + n → p.took.Has g (a / g.slobUnit)
  slab : (s.slob.heap.page (g.pageOf p.addr)).slab = true ↔ ∃ m size, p.took = .units m size
  handsBack : s.handsBack A p.addr = p.took
  kfree : ∀ t, s.call t = .idle → ∃ s', s.step nid A (.kfree t (.addr p.addr)) = some s' ∧
    s'.ptrs = s.ptrs.erase p ∧ p.took.GivenBack s' t s.held

namespace Agrees

theorem of_init (h : (allocator nid A).init s) : Agrees A s := by
  obtain ⟨hempty, hheld, hptrs, hcall⟩ := h
  refine ⟨.of_emptyHeap hempty, .of_emptyHeap hempty, fun t => ?_,
    ⟨fun o b hb => ?_, fun o o' b hb => ?_⟩, ?_, ?_, ?_, ?_, ?_, fun sp _ => hempty.status sp⟩
  · rw [hcall t]
    exact hempty.point t
  · cases o <;> simp [Allocator.own, hptrs, hcall, Call.block] at hb
  · cases o <;> simp [Allocator.own, hptrs, hcall, Call.block] at hb
  · simp [hptrs]
  · simp [hptrs]
  · simp [hptrs]
  · simp [hptrs, hheld]
  · simp [hheld]

omit [DecidableEq τ] in
theorem reserved (ha : Agrees A s) (hp : p ∈ s.ptrs) : p.took.Reserved A s := by
  cases htook : p.took with
  | units m size => exact (ha.block hp htook).1
  | pages sp order =>
    obtain ⟨-, -, -, hheld, -⟩ := ha.pages hp htook
    refine ⟨hheld, fun i hi => ha.outside _ ⟨_, hheld, Nat.le_add_right sp i, ?_⟩⟩
    exact Nat.add_lt_add_left hi sp

omit [DecidableEq τ] in
/-- `ksize` counts bytes that were taken for the object. -/
theorem ksize (ha : Agrees A s) (hp : p ∈ s.ptrs) :
    ∃ n, s.ksize A (.addr p.addr) = some n ∧ p.size ≤ n ∧ ∀ a, p.addr * g.slobUnit ≤ a →
      a < p.addr * g.slobUnit + n → p.took.Has g (a / g.slobUnit) := by
  obtain ⟨n, hn, hsize, -, hrange⟩ := ha.ksize_eq hp
  have hunit := g.slobUnit_pos
  refine ⟨_, hn, hsize, fun a hlo hhi => ?_⟩
  rw [← Nat.add_mul] at hhi
  exact (hrange _ ((Nat.le_div_iff_mul_le hunit).mpr hlo) ((Nat.div_lt_iff_lt_mul hunit).mpr hhi)).1

theorem kfree (ha : Agrees A s) (hp : p ∈ s.ptrs) (hidle : s.call t = .idle) :
    ∃ s', s.step nid A (.kfree t (.addr p.addr)) = some s' ∧ s'.ptrs = s.ptrs.erase p ∧
      p.took.GivenBack s' t s.held := by
  obtain ⟨q, hq⟩ : ∃ q, s.ptrs.find? (fun q => q.addr = p.addr) = some q := by
    apply Option.isSome_iff_exists.mp
    rw [List.find?_isSome]
    exact ⟨p, hp, by simp⟩
  have haddr : q.addr = p.addr := by simpa using List.find?_some hq
  obtain rfl := ha.eq_of_addr hp (List.mem_of_find?_eq_some hq) haddr
  simp only [Allocator.step, if_pos hidle, hq, Option.map_some, ha.handsBack_eq hp]
  cases q.took with
  | units m size => exact ⟨_, rfl, rfl, Function.update_self .., rfl⟩
  | pages sp order => exact ⟨_, rfl, rfl, hidle, rfl⟩

theorem sound (ha : Agrees A s) (hp : p ∈ s.ptrs) : p.Sound nid A s where
  served := ha.served p hp
  aligned := ha.aligned hp
  reserved := ha.reserved hp
  ksize := ha.ksize hp
  slab := ha.slab_iff hp
  handsBack := ha.handsBack_eq hp
  kfree _ := ha.kfree hp

/-- `slob_free` gets a live block, whole. -/
theorem slobFree (ha : Agrees A s) (hcall : s.call t = .free m size) :
    ⟨m, size, A.bytes⟩ ∈ s.slob.live ∧ ∃ s', s.step nid A (.slobFree t) = some s' ∧
      s'.slob.live = s.slob.live.erase ⟨m, size, A.bytes⟩ := by
  obtain ⟨hidle, hlive⟩ := ha.free_ready hcall
  obtain ⟨ls, runs, hl⟩ := ha.slob.layout
  obtain ⟨slob, hslob, hd⟩ := free_does hl nid hidle hlive
  rw [← State.slobFree_eq nid hidle hlive] at hslob
  simp only [Allocator.step, hcall, hslob, Option.map_some]
  refine ⟨hlive, _, rfl, ?_⟩
  cases hd <;> rfl

end Agrees

/-- The calls take the steps of `slob_alloc` and `slob_free`, and keep what they agree on. -/
theorem simulation : Simulation (allocator nid A) (machine g nid) (Allocator.shows (τ := τ) A)
    fun s σ => σ = s.slob ∧ Agrees A s := by
  constructor
  · intro s hs
    exact ⟨s.slob, hs.1, rfl, .of_init hs⟩
  · rintro s σ op t ⟨rfl, ha⟩ hstep
    exact ⟨t.slob, (ha.step_effect hstep).2.run, rfl, ha.step hstep⟩

/-- `__kmalloc`, `ksize` and `kfree` agree in every reachable state. -/
theorem kmalloc_ksize_kfree_agree (hs : (allocator nid A).Reachable s) :
    (∀ p ∈ s.ptrs, p.Sound nid A s) ∧ s.ptrs.Pairwise (Ptr.Apart g) ∧
    ∀ t m size, s.call t = .free m size → ⟨m, size, A.bytes⟩ ∈ s.slob.live ∧
      ∃ s', s.step nid A (.slobFree t) = some s' ∧
        s'.slob.live = s.slob.live.erase ⟨m, size, A.bytes⟩ := by
  obtain ⟨σ, -, rfl, ha⟩ := simulation.reachable hs
  exact ⟨fun p hp => ha.sound hp, ha.disjoint, fun t m size hcall => ha.slobFree hcall⟩

def eightBytes : MinAlign smallConfig := ⟨8, rfl, by decide, by decide⟩

def noPointers : Allocator ℕ where
  slob := emptyState
  compoundOrder := fun _ => 0
  held := []
  ptrs := []
  call := fun _ => .idle

/-- A page of the heap is given back with its object, and then serves a large one. -/
def recycledPage : List (Op ℕ) :=
  [.kmalloc 0 10 none none, .newPages 0 (some 2), .addPage 0, .memset 0 4096 0, .setHeader 0,
    .store 4104 (-7), .kfree 0 (.addr 4100), .slobFree 0, .freePages 0, .kmalloc 1 5000 none (some 2),
    .kmalloc 0 3 none none, .newPages 0 (some 1), .addPage 0, .setHeader 0, .store 4096 55]

theorem agree_on_recycledPage : ∃ s,
    (allocator (fun _ => 0) eightBytes).run noPointers recycledPage = some s ∧
    s.ptrs = [⟨2052, 3, .units 2048 11⟩, ⟨4096, 5000, .pages 2 1⟩] ∧
    s.ksize eightBytes (.addr 2052) = some 4 ∧ s.handsBack eightBytes 2052 = .units 2048 11 ∧
    s.ksize eightBytes (.addr 4096) = some 8192 ∧ s.handsBack eightBytes 4096 = .pages 2 1 := by
  obtain ⟨s, hr, hptrs, hksize, hksize'⟩ : ∃ s,
      (allocator (fun _ => 0) eightBytes).run noPointers recycledPage = some s ∧
      s.ptrs = [⟨2052, 3, .units 2048 11⟩, ⟨4096, 5000, .pages 2 1⟩] ∧
      s.ksize eightBytes (.addr 2052) = some 4 ∧ s.ksize eightBytes (.addr 4096) = some 8192 :=
    ⟨_, rfl, rfl, rfl, rfl⟩
  have hinit : (allocator (fun _ => 0) eightBytes).init noPointers :=
    ⟨emptyState_emptyHeap, rfl, rfl, fun _ => rfl⟩
  obtain ⟨hsound, -⟩ := kmalloc_ksize_kfree_agree ⟨noPointers, _, hinit, hr⟩
  refine ⟨s, hr, hptrs, hksize, ?_, hksize', ?_⟩
  · exact (hsound ⟨2052, 3, .units 2048 11⟩ (by simp [hptrs])).handsBack
  · exact (hsound ⟨4096, 5000, .pages 2 1⟩ (by simp [hptrs])).handsBack

end OperatingSystems.Slob
