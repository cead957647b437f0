import OperatingSystems.Slob.InOrder

namespace OperatingSystems.Slob

open Library

section Branch

variable (g : Config)

/-- The original first-fit algorithm, which changes the list as soon as it has found a block. -/
def firstFit (h : Heap) (sp units align : ℕ) : ℕ → Option ℕ → ℕ → Option (Heap × Option ℕ)
  | 0, _, _ => none
  | fuel + 1, prev, cur =>
    let avail := slobUnits h.mem.cell cur
    let (aligned, delta) := alignBlock g align cur
    if avail ≥ units + delta then
      let (h, prev, cur, avail) :=
        if delta ≠ 0 then
          let next := slobNext g h.mem.cell cur
          let h := h.setSlob g aligned (avail - delta) next
          let h := h.setSlob g cur delta aligned
          (h, some cur, aligned, slobUnits h.mem.cell aligned)
        else (h, prev, cur, avail)
      let next := slobNext g h.mem.cell cur
      let h :=
        if avail = units then h.linkAfter g sp prev next
        else (h.linkAfter g sp prev (cur + units)).setSlob g (cur + units) (avail - units) next
      let h := h.setUnits sp ((h.page sp).units - units)
      some (if (h.page sp).units = 0 then h.clearSlobPageFree sp else h, some cur)
    else if slobLast g h.mem.cell cur then some (h, none)
    else firstFit h sp units align fuel (some cur) (slobNext g h.mem.cell cur)

/-- `slob_page_alloc` when `USE_BEST_FIT` is 0. -/
def slobPageAllocFirstFit (h : Heap) (sp size align : ℕ) : Option (Heap × Option ℕ) :=
  firstFit g h sp (g.unitsOf size) align (g.pageUnits + 1) none (h.page sp).freelist

end Branch

variable {g : Config} {h : Heap} {cell : ℕ → ℤ} {sp units align a p : ℕ} {x : ℕ × ℕ}
  {xs ys : List (ℕ × ℕ)} {b b' : BestFit}

/-- The splice of the first-fit branch is that of the best-fit branch. -/
theorem firstFit_eq (fuel : ℕ) (prev : Option ℕ) (cur : ℕ) :
    firstFit g h sp units align fuel prev cur =
      (firstFitScan g h.mem.cell units align fuel prev cur).map fun found => match found with
        | some b => ((takeUnits g h sp units b).1, some (takeUnits g h sp units b).2)
        | none => (h, none) := by
  induction fuel generalizing prev cur with
  | zero => rfl
  | succ fuel ih =>
    rw [firstFit, firstFitScan]
    dsimp only
    by_cases hroom : slobUnits h.mem.cell cur ≥ units + (alignBlock g align cur).2
    · rw [if_pos hroom, if_pos hroom]
      rfl
    rw [if_neg hroom, if_neg hroom]
    by_cases hlast : slobLast g h.mem.cell cur = true
    · rw [if_pos hlast, if_pos hlast]
      rfl
    · rw [if_neg hlast, if_neg hlast]
      exact ih _ _

/-- The first-fit scan stops at the first block that fits. -/
theorem firstFitScan_spec {fuel : ℕ} (hpage : OnPage g 0 sp (xs ++ ys))
    (hblocks : Blocks g cell p ys ((sp + 1) * g.pageUnits)) (hne : ys ≠ []) (hfuel : ys.length ≤ fuel) :
    (firstFitScan g cell units align fuel (lastOf xs) p = some none ∧
      ∀ x ∈ ys, slack g units align x < 0) ∨
    ∃ b, firstFitScan g cell units align fuel (lastOf xs) p = some (some b) ∧
      Picks g units align (xs ++ ys) b := by
  induction ys generalizing xs p fuel with
  | nil => exact absurd rfl hne
  | cons x ys ih =>
    obtain ⟨rfl, r, hr, hys⟩ := hblocks
    obtain ⟨fuel, rfl⟩ : ∃ f, fuel = f + 1 := ⟨fuel - 1, by rw [List.length_cons] at hfuel; omega⟩
    have hlast := hr.slobLast_iff
    rw [hpage.base_eq, ← Nat.succ_mul, Nat.succ_eq_add_one] at hlast
    rw [firstFitScan, hr.slobUnits_eq, hr.slobNext_eq]
    dsimp only
    by_cases hroom : (x.2 : ℤ) ≥ units + (alignBlock g align x.1).2
    · rw [if_pos hroom]
      refine .inr ⟨_, rfl, ⟨xs, x.2, ys, rfl, rfl, rfl⟩, rfl, ?_⟩
      exact Int.sub_nonneg_of_le hroom
    · rw [if_neg hroom]
      have hx : slack g units align x < 0 := by
        rw [slack]
        omega
      cases ys with
      | nil =>
        rw [if_pos (hlast.mpr hys)]
        refine .inl ⟨rfl, ?_⟩
        intro y hy
        rw [List.mem_singleton.mp hy]
        exact hx
      | cons y ys =>
        have hy := hpage.split.2.2.2.1
        have hry : r = y.1 := hys.1
        have hprev : lastOf (xs ++ [x]) = some x.1 := lastOf_append
        rw [if_neg (hlast.not.mpr (by omega)), ← hprev]
        rw [List.append_cons xs x (y :: ys)] at hpage ⊢
        rcases ih hpage hys (List.cons_ne_nil y ys) (Nat.le_of_succ_le_succ hfuel) with
          ⟨hscan, hnone⟩ | hfound
        · exact .inl ⟨hscan, List.forall_mem_cons.mpr ⟨hx, hnone⟩⟩
        · exact .inr hfound

/-- The first-fit scan of a page. -/
theorem Manages.firstFitScan (hm : Manages g h sp xs) (hne : xs ≠ []) (units align : ℕ) :
    (firstFitScan g h.mem.cell units align (g.pageUnits + 1) none (h.page sp).freelist = some none ∧
      ∀ x ∈ xs, slack g units align x < 0) ∨
    ∃ b, firstFitScan g h.mem.cell units align (g.pageUnits + 1) none (h.page sp).freelist =
      some (some b) ∧ Picks g units align xs b := by
  have hstart : OnPage g 0 sp ([] ++ xs) := hm.onPage.weaken
  exact firstFitScan_spec hstart (hm.blocks hne) hne (Nat.le_succ_of_le hm.length_le)

/-- A block of `size` bytes was taken from the page, at the unit `b`. -/
def Allocated (g : Config) (sp size : ℕ) (xs : List (ℕ × ℕ)) (h h' : Heap) (b : ℕ) : Prop :=
  (∃ xs', Takes g sp b (g.unitsOf size) xs xs' h h') ∧
    (h'.page sp).units = (h.page sp).units - g.unitsOf size

theorem Picks.allocated {size : ℕ} (hb : Picks g (g.unitsOf size) align xs b) (hm : Manages g h sp xs)
    (hsize : 0 < size) : Allocated g sp size xs h (takeUnits g h sp (g.unitsOf size) b).1
      (takeUnits g h sp (g.unitsOf size) b).2 := by
  have hpos := g.unitsOf_pos hsize
  obtain ⟨ys, n, zs, rfl, -, -, hfit, hcur, hcarves⟩ := hb.carves hm hpos
  obtain ⟨-, -, hcount⟩ := hm.onPage.carve hpos hpos hfit
  rw [hcur]
  refine ⟨⟨_, hcarves.takes hm hpos hfit⟩, ?_⟩
  rw [hcarves.manages.units, hm.units]
  omega

theorem Picks.exists_fits (hb : Picks g units align xs b) : ∃ x ∈ xs, 0 ≤ slack g units align x := by
  obtain ⟨ys, n, zs, rfl, -, hdiff⟩ := hb.split
  exact ⟨_, List.mem_append_right _ List.mem_cons_self, hdiff ▸ hb.fits⟩

/-- There is only one way to choose a block when only one of them fits. -/
theorem Picks.unique (hpage : OnPage g 0 sp xs) (hb : Picks g units align xs b)
    (hb' : Picks g units align xs b') (hone : ∀ x ∈ xs, ∀ y ∈ xs, 0 ≤ slack g units align x →
      0 ≤ slack g units align y → x = y) : b = b' := by
  obtain ⟨⟨ys, n, zs, rfl, hprev, hdiff⟩, halign, hfits⟩ := hb
  obtain ⟨⟨ys', n', zs', hsplit, hprev', hdiff'⟩, halign', hfits'⟩ := hb'
  have hmem : (b.cur, n) ∈ ys ++ (b.cur, n) :: zs := by simp
  have hmem' : (b'.cur, n') ∈ ys ++ (b.cur, n) :: zs := by simp [hsplit]
  have heq : (b.cur, n) = (b'.cur, n') :=
    hone _ hmem _ hmem' (hdiff ▸ hfits) (hdiff' ▸ hfits')
  obtain ⟨hbefore, hafter⟩ := hpage.outside
  have hpos : 0 < n := (hpage.of_mem hmem).2.1
  have hnotBefore : (b'.cur, n') ∉ ys := by
    intro hin
    rw [← heq] at hin
    exact absurd (hbefore b.cur ⟨_, hin, le_rfl, Nat.lt_add_of_pos_right hpos⟩) (lt_irrefl _)
  have hnotAfter : (b'.cur, n') ∉ zs := by
    intro hin
    rw [← heq] at hin
    have hle := hafter b.cur ⟨_, hin, le_rfl, Nat.lt_add_of_pos_right hpos⟩
    simp only at hle
    omega
  obtain ⟨rfl, -, -⟩ := (List.append_cons_inj_of_notMem hnotBefore hnotAfter).mp hsplit
  obtain ⟨hcur, rfl⟩ := Prod.mk.inj heq
  obtain ⟨prev, cur, aligned, delta, diff⟩ := b
  obtain ⟨prev', cur', aligned', delta', diff'⟩ := b'
  simp only at hcur hprev hprev' hdiff hdiff' halign halign'
  subst hcur
  obtain ⟨rfl, rfl⟩ := Prod.mk.inj (halign.trans halign'.symm)
  rw [hprev, hprev', hdiff, hdiff']

/-- The best-fit and the first-fit branch serve the same requests, each from the free units of the
page; where only one free block has room they do the same. The size, below that of a page, fits in
`units`, an `int`. -/
theorem branches_agree (h : Heap) (sp : ℕ) (xs : List (ℕ × ℕ)) (hm : Manages g h sp xs)
    (hunits : 0 < (h.page sp).units) {size align : ℕ} (_hsize : size < g.pageSize)
    (_halign : ValidAlign align) :
    ∃ best first, slobPageAlloc g h sp size align = some best ∧
      slobPageAllocFirstFit g h sp size align = some first ∧ (best.2 = none ↔ first.2 = none) ∧
      (∀ b b', 0 < size → best.2 = some b → first.2 = some b' →
        Allocated g sp size xs h best.1 b ∧ Allocated g sp size xs h first.1 b') ∧
      ((∀ x ∈ xs, ∀ y ∈ xs, 0 ≤ slack g (g.unitsOf size) align x →
        0 ≤ slack g (g.unitsOf size) align y → x = y) → best = first) := by
  have hne : xs ≠ [] := by
    intro hnil
    rw [hm.units, hnil, runsSize_nil] at hunits
    exact absurd hunits (lt_irrefl _)
  obtain ⟨best, hbest, hscanned⟩ := hm.bestFitScan hne (g.unitsOf size) align
  rw [slobPageAlloc, useBestFit, if_pos rfl, hbest, slobPageAllocFirstFit, firstFit_eq]
  rcases hm.firstFitScan hne (g.unitsOf size) align with ⟨hfirst, hnone⟩ | ⟨b', hfirst, hpicks'⟩
  · rw [hfirst]
    cases hb : best with
    | none =>
      refine ⟨_, _, rfl, rfl, Iff.rfl, fun _ _ _ hnull => ?_, fun _ => rfl⟩
      exact absurd hnull.symm (Option.some_ne_none _)
    | some b =>
      obtain ⟨x, hx, hfits⟩ := (hscanned.picks b hb).exists_fits
      exact absurd (hnone x hx) (not_lt.mpr hfits)
  · rw [hfirst]
    cases hb : best with
    | none =>
      obtain ⟨x, hx, hfits⟩ := hpicks'.exists_fits
      exact absurd (hscanned.none hb x hx) (not_lt.mpr hfits)
    | some b =>
      have hpicks := hscanned.picks b hb
      refine ⟨_, _, rfl, rfl, ?_, ?_, ?_⟩
      · exact iff_of_false (Option.some_ne_none _) (Option.some_ne_none _)
      · rintro c c' hsize ⟨⟩ ⟨⟩
        exact ⟨hpicks.allocated hm hsize, hpicks'.allocated hm hsize⟩
      · intro hone
        rw [hpicks.unique hm.onPage.weaken hpicks' hone]

/-- After the four blocks the branches choose different blocks, and each leaves the page in order. -/
theorem branches_agree_after_fourBlocks : ∃ s best first,
    (machine smallConfig fun _ => 0).run emptyState fourBlocks = some s ∧
      slobPageAlloc smallConfig s.heap 2 20 0 = some best ∧
      slobPageAllocFirstFit smallConfig s.heap 2 20 0 = some first ∧ best.2 = some 4147 ∧
      first.2 = some 4096 ∧ ∃ xs, Allocated smallConfig 2 20 xs s.heap best.1 4147 ∧
        Allocated smallConfig 2 20 xs s.heap first.1 4096 := by
  obtain ⟨s, best, first, hr, hbest, hfirst, hb, hf, hstatus, hunits⟩ : ∃ s best first,
      (machine smallConfig fun _ => 0).run emptyState fourBlocks = some s ∧
        slobPageAlloc smallConfig s.heap 2 20 0 = some best ∧
        slobPageAllocFirstFit smallConfig s.heap 2 20 0 = some first ∧ best.2 = some 4147 ∧
        first.2 = some 4096 ∧ s.status 2 = .heap ∧ (s.heap.page 2).units = 2028 :=
    ⟨_, _, _, rfl, rfl, rfl, rfl, rfl, rfl, rfl⟩
  obtain ⟨ls, runs, hl⟩ := (invariant ⟨emptyState, _, emptyState_emptyHeap, hr⟩).layout
  obtain ⟨best', first', hbest', hfirst', -, hallocated, -⟩ := branches_agree s.heap 2 (runs 2)
    (hl.manages 2 hstatus) (by rw [hunits]; decide) (show 20 < smallConfig.pageSize by decide)
    (.inl rfl : ValidAlign 0)
  obtain rfl := Option.some.inj (hbest.symm.trans hbest')
  obtain rfl := Option.some.inj (hfirst.symm.trans hfirst')
  exact ⟨s, best, first, hr, hbest, hfirst, hb, hf, runs 2, hallocated _ _ (by decide) hb hf⟩

end OperatingSystems.Slob
