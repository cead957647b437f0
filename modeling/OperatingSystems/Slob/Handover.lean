import Mathlib.Algebra.Order.Ring.Int
import OperatingSystems.Slob.Kmalloc

namespace OperatingSystems.Slob

open Library

section Headers

variable {g : Config} {A : MinAlign g} {cell cell' : ℕ → ℤ} {h : Heap} {m v size : ℕ}

/-- An `unsigned int` takes four bytes. -/
theorem readUInt_congr (hsame : ∀ u, m ≤ u → u < m + 4 / g.slobUnit → cell' u = cell u) :
    readUInt g cell' m = readUInt g cell m := by
  rcases g.sizes.1 with hunit | hunit
  · rw [hunit] at hsame
    rw [readUInt, readUInt, hsame m le_rfl (by omega), hsame (m + 1) (by omega) (by omega)]
  · rw [hunit] at hsame
    rw [readUInt, readUInt, if_neg (by omega), if_neg (by omega), hsame m le_rfl (by omega)]

theorem toIdx_emod (x : ℤ) : g.toIdx x % (2 ^ g.idxBits : ℕ) = x % (2 ^ g.idxBits : ℕ) :=
  Int.bmod_emod

theorem idxBits_eq : g.slobUnit = 2 ∧ g.idxBits = 16 ∨ g.slobUnit = 4 ∧ g.idxBits = 32 := by
  unfold Config.slobUnit Config.idxBits
  split_ifs <;> simp

/-- What was written is read back. -/
theorem readUInt_writeUInt (hv : v < 2 ^ 32) : readUInt g (h.writeUInt g m v).mem.cell m = v := by
  have hidx := fun x : ℤ => toIdx_emod (g := g) x
  rcases idxBits_eq (g := g) with ⟨hunit, hbits⟩ | ⟨hunit, hbits⟩
  · norm_num [hbits] at hidx
    simp [readUInt, Heap.writeUInt, uintStores, hunit, Heap.store, hidx]
    omega
  · norm_num [hbits] at hidx
    simp [readUInt, Heap.writeUInt, uintStores, hunit, Heap.store, hidx]
    omega

/-- The stores of a header stay in its four bytes. -/
theorem mem_uintStores {x : ℕ × ℤ} (hx : x ∈ uintStores g m v) :
    m ≤ x.1 ∧ x.1 < m + 4 / g.slobUnit := by
  rcases g.sizes.1 with hunit | hunit <;> simp [uintStores, hunit] at hx
  · rcases hx with rfl | rfl <;> simp [hunit]
  · simp [hx, hunit]

/-- The alignment is a multiple of four bytes. -/
theorem MinAlign.four_dvd (A : MinAlign g) : 4 ∣ A.bytes := by
  have htwo : 2 ≤ A.bytes.log2 := (Nat.le_log2 (by have := A.four_le; omega)).mpr A.four_le
  rw [← A.pow]
  exact Nat.pow_dvd_pow 2 htwo

/-- The alignment is a whole number of units. -/
theorem MinAlign.bytes_eq (A : MinAlign g) : A.bytes = A.units * g.slobUnit := by
  have hfour := A.four_dvd
  rw [units]
  rcases g.sizes.1 with hunit | hunit <;> rw [hunit] <;> omega

theorem unitsOf_add (A : MinAlign g) (size : ℕ) :
    g.unitsOf (size + A.bytes) = g.unitsOf size + A.units := by
  have hbytes := A.bytes_eq
  rw [Config.unitsOf, Config.unitsOf]
  rcases g.sizes.1 with hunit | hunit <;> rw [hunit] at hbytes ⊢ <;> omega

/-- The header lies in front of the object. -/
theorem header_le (A : MinAlign g) : 4 / g.slobUnit ≤ A.units :=
  Nat.div_le_div_right A.four_le

theorem header_lt {u : ℕ} (A : MinAlign g) (hu : u < m + 4 / g.slobUnit) :
    u < m + g.unitsOf (size + A.bytes) := by
  have hunits := header_le A
  rw [unitsOf_add]
  omega

theorem le_unitsOf (size : ℕ) : size ≤ g.unitsOf size * g.slobUnit := by
  rw [Config.unitsOf]
  rcases g.sizes.1 with hunit | hunit <;> rw [hunit] <;> omega

theorem le_getOrder (size : ℕ) : size ≤ g.pageSize * 2 ^ g.getOrder size := by
  have hpos : 0 < g.pageSize := Nat.two_pow_pos _
  have hlt : (size - 1) / g.pageSize < 2 ^ g.getOrder size := Nat.lt_size_self _
  rw [Nat.div_lt_iff_lt_mul hpos, Nat.mul_comm] at hlt
  omega

end Headers

section Steps

variable {τ : Type*} [DecidableEq τ] {g : Config} {nid : ℕ → ℕ} {s s' : State τ} {e : Event τ}
  {ls : SizeClass → List ℕ} {runs : ℕ → List (ℕ × ℕ)} {t : τ} {b : Block} {sp : ℕ}

omit [DecidableEq τ] in
/-- The pages of live blocks are pages of the heap. -/
theorem Invariant.status_of_live {u : ℕ} (hi : Invariant g s) (hb : b ∈ s.live) (hu : b.Has g u) :
    s.status (g.pageOf u) = .heap := by
  obtain ⟨ls, runs, hl⟩ := hi.layout
  have hplaced := hl.placed b hb
  rw [hplaced.pageOf_eq hu]
  exact hplaced.onHeap

/-- `PageSlab` is set on the pages of the heap, and of the calls that bring or take them away. -/
def SlabFlags (s : State τ) : Prop := ∀ sp, (s.heap.page sp).slab = true ↔ s.status sp ≠ .outside

omit [DecidableEq τ] in
theorem SlabFlags.of_emptyHeap (h : EmptyHeap s) : SlabFlags s := by
  intro sp
  simp [h.slab, h.status]

omit [DecidableEq τ] in
/-- An operation within one page keeps the flags. -/
theorem SlabFlags.touches {S : Set ℕ} {h : Heap} (hf : SlabFlags s) (ht : Touches sp S s.heap h) (p : ℕ) :
    (h.page p).slab = true ↔ s.status p ≠ .outside := by
  by_cases hp : p = sp
  · rw [hp, ht.slab]
    exact hf sp
  · rw [ht.page p hp]
    exact hf p

theorem Does.slabFlags (hi : Invariant g s) (hl : Layout g s.heap s.status s.live ls runs)
    (hf : SlabFlags s) (hd : Does g nid ls runs s e s') : SlabFlags s' := by
  intro p
  cases hd with
  | allocs idle valid list eligible before served takes =>
    exact hf.touches ⟨takes.touches.mem, takes.touches.page, takes.touches.slab⟩ p
  | noRoom | noPages | store => exact hf p
  | @newPage t r sp point status =>
    by_cases hp : p = sp
    · simp [State.setStatus, Heap.setSlab, Heap.setPage, hp]
    · simpa [State.setStatus, Heap.setSlab, Heap.setPage, State.goto, hp] using hf p
  | @addPage t r sp h xs point manages covers touches =>
    have hstatus : s.status sp ≠ .outside := by
      rw [(hi.newPage t r sp point).1]
      decide
    by_cases hp : p = sp
    · have hslab := (hf.touches touches sp).mpr hstatus
      simpa [State.setStatus, hp] using hslab
    · simpa [State.setStatus, State.goto, hp] using hf.touches touches p
  | frees idle live page ne frees => exact hf.touches frees.touches p
  | @empties t b sp idle live page =>
    have hstatus : s.status sp ≠ .outside := by
      rw [page, (hl.placed b live).onHeap]
      decide
    have hkeep : ∀ q, ((if runs sp = [] then s.heap else s.heap.clearSlobPageFree sp).page q).slab =
        (s.heap.page q).slab := by
      intro q
      split_ifs
      · rfl
      · by_cases hq : q = sp <;> simp [Heap.clearSlobPageFree, Heap.setPage, hq]
    simp only [State.setStatus, State.goto, hkeep]
    by_cases hp : p = sp
    · simpa [hp, hstatus] using hf sp
    · simpa [hp] using hf p
  | @freePages t sp point =>
    by_cases hp : p = sp
    · simp [State.setStatus, Heap.setSlab, Heap.setPage, hp]
    · simpa [State.setStatus, Heap.setSlab, Heap.setPage, State.goto, hp] using hf p
  | @reuse sp page next prev status =>
    by_cases hp : p = sp
    · simpa [Heap.reuse, Heap.setPage, hp] using hf sp
    · simpa [Heap.reuse, Heap.setPage, hp] using hf p

/-- A page outside stays outside until `slob_new_pages` returns it. -/
theorem Does.outside (hi : Invariant g s) (hl : Layout g s.heap s.status s.live ls runs)
    (hd : Does g nid ls runs s e s') (hsp : s.status sp = .outside)
    (hnew : ∀ t, e ≠ .newPages t (some sp)) : s'.status sp = .outside := by
  have hother : ∀ {p st}, s.status p ≠ .outside → Function.update s.status p st sp = .outside := by
    intro p st hp
    rw [Function.update_of_ne ?_]
    · exact hsp
    · intro heq
      exact hp (heq ▸ hsp)
  cases hd with
  | allocs | noRoom | noPages | frees | store | reuse => exact hsp
  | @newPage t r p =>
    rw [← hsp]
    apply Function.update_of_ne
    intro heq
    exact hnew t (heq ▸ rfl)
  | @addPage t r p h xs point =>
    apply hother
    rw [(hi.newPage t r p point).1]
    nofun
  | @empties t b p idle live page =>
    apply hother
    rw [page, (hl.placed b live).onHeap]
    nofun
  | @freePages t p point =>
    apply hother
    rw [hi.claims.status_eq t p .leaving (by rw [point]; rfl)]
    nofun

/-- Given a live block by an idle thread, the locked section of `slob_free` is that of the heap. -/
theorem State.slobFree_eq (nid : ℕ → ℕ) (hidle : s.point t = .idle) (hb : b ∈ s.live) :
    s.slobFree g t b = step g nid s (.free t b) := by
  rw [State.slobFree, step, if_pos ⟨hidle, hb⟩]

/-- Stores to live blocks, one after the other. -/
theorem run_stores {xs : List (ℕ × ℤ)} (hlive : ∀ x ∈ xs, Live g s.live x.1) :
    (machine g nid).run s (xs.map fun x => .store x.1 x.2) =
      some { s with heap := xs.foldl (fun h x => h.store x.1 x.2) s.heap } := by
  induction xs generalizing s with
  | nil => rfl
  | cons x xs ih =>
    have hfirst : (machine g nid).step s (.store x.1 x.2) =
        some { s with heap := s.heap.store x.1 x.2 } :=
      if_pos (.inr (hlive x List.mem_cons_self))
    have hrest := ih (s := { s with heap := s.heap.store x.1 x.2 })
      fun y hy => hlive y (List.mem_cons_of_mem x hy)
    rw [List.map_cons, Machine.run_cons hfirst]
    exact hrest

/-- A run keeps the heap in order, and the flags. -/
theorem Invariant.run {es : List (Event τ)} (hi : Invariant g s) (hf : SlabFlags s)
    (hr : (machine g nid).run s es = some s') : Invariant g s' ∧ SlabFlags s' := by
  apply Machine.run_invariant (I := fun s => Invariant g s ∧ SlabFlags s) _ ⟨hi, hf⟩ hr
  rintro s e t ⟨hi, hf⟩ hs
  obtain ⟨ls, runs, hl⟩ := hi.layout
  exact ⟨hi.step hs, (step_does hl hi.newPage hs).slabFlags hi hl hf⟩

/-- A page stays outside in a run that does not bring it in. -/
theorem Invariant.run_outside {es : List (Event τ)} (hi : Invariant g s)
    (hr : (machine g nid).run s es = some s') (hsp : s.status sp = .outside)
    (hnew : ∀ t, .newPages t (some sp) ∉ es) : s'.status sp = .outside := by
  induction es generalizing s with
  | nil => exact Option.some.inj hr ▸ hsp
  | cons e es ih =>
    obtain ⟨u, hu, hr⟩ := Machine.run_cons_eq_some.mp hr
    obtain ⟨ls, runs, hl⟩ := hi.layout
    have hfirst := (step_does hl hi.newPage hu).outside hi hl hsp
      fun t heq => hnew t (heq ▸ List.mem_cons_self)
    exact ih (hi.step hu) hr hfirst fun t ht => hnew t (List.mem_cons_of_mem e ht)

end Steps

end OperatingSystems.Slob
