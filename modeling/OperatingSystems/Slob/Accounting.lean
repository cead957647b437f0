import Mathlib.Algebra.BigOperators.Ring.Finset
import OperatingSystems.Slob.InOrder

namespace OperatingSystems.Slob

open Library

section Calls

variable (g : Config)

def addUpBody (amount : ℕ → ℤ) (sum : ℤ) : Entry → Links.Flow ℤ
  | .lru sp => .next (sum + amount sp)
  | _ => .done sum -- the loop ends before it reaches a list head

/-- `list_for_each_entry(sp, slob_list, lru)` with a body that adds an amount for each page. -/
def addUp (h : Heap) (amount : ℕ → ℤ) (c : SizeClass) (sum : ℤ) : Option ℤ :=
  (Links.listForEach (fun _ : ℤ => h.links) (.list c) (addUpBody amount) (g.frames + 1)
    (h.links.next (.list c)) sum).map Prod.snd

/-- `sys_get_slob_amt_total`; the units of a machine's memory fit in a `long`. -/
def sysGetSlobAmtTotal (h : Heap) : Option ℤ := do
  let numPages ← addUp g h (fun _ => 1) .small 0
  let numPages ← addUp g h (fun _ => 1) .medium numPages
  let numPages ← addUp g h (fun _ => 1) .large numPages
  return numPages * g.pageUnits

/-- `sys_get_slob_amt_free` -/
def sysGetSlobAmtFree (h : Heap) : Option ℤ := do
  let memFree ← addUp g h (fun sp => (h.page sp).units) .small 0
  let memFree ← addUp g h (fun sp => (h.page sp).units) .medium memFree
  addUp g h (fun sp => (h.page sp).units) .large memFree

/-- The units of all pages. -/
def allUnits : Finset ℕ := Finset.range (g.frames * g.pageUnits)

end Calls

variable {g : Config} {h : Heap} {status : ℕ → Status} {live : List Block}
  {ls : SizeClass → List ℕ} {runs : ℕ → List (ℕ × ℕ)}

theorem scan_addUp (amount : ℕ → ℤ) (c : SizeClass) (pages : List ℕ) (sum : ℤ) :
    Links.scan (Entry.list c) (addUpBody amount) (pages.map .lru) sum =
      (.list c, sum + (pages.map amount).sum) := by
  induction pages generalizing sum with
  | nil => simp [Links.scan]
  | cons sp pages ih =>
    rw [List.map_cons, Links.scan]
    simp only [addUpBody, ih, List.map_cons, List.sum_cons, add_assoc]

namespace Layout

theorem addUp_eq (hl : Layout g h status live ls runs) (amount : ℕ → ℤ) (c : SizeClass) (sum : ℤ) :
    addUp g h amount c sum = some (sum + ((ls c).map amount).sum) := by
  have hlen : ((ls c).map Entry.lru).length < g.frames + 1 := by
    rw [List.length_map]
    exact Nat.lt_succ_of_le (hl.length_le c)
  have hloop : Links.listForEach (fun _ : ℤ => h.links) (.list c) (addUpBody amount) (g.frames + 1)
      (h.links.next (.list c)) sum =
        some (Links.scan (.list c) (addUpBody amount) ((ls c).map .lru) sum) := by
    refine (hl.lists.ring c).forEach ?_ (fun _ _ _ _ _ => rfl) hlen
    rfl
  rw [addUp, hloop, scan_addUp]
  rfl

/-- The pages that the two calls visit. -/
def visited (ls : SizeClass → List ℕ) : List ℕ := ls .small ++ (ls .medium ++ ls .large)

theorem mem_visited {sp : ℕ} : sp ∈ visited ls ↔ ∃ c, sp ∈ ls c := by
  simp only [visited, List.mem_append]
  constructor
  · rintro (h | h | h) <;> exact ⟨_, h⟩
  · rintro ⟨c, h⟩
    cases c <;> simp [h]

theorem visited_nodup (hl : Layout g h status live ls runs) : (visited ls).Nodup := by
  have hnodup : ∀ c, (ls c).Nodup := fun c =>
    ((List.nodup_cons.mp (hl.lists.ring c).nodup).2).of_map
  have hdisjoint : ∀ c c', c ≠ c' → List.Disjoint (ls c) (ls c') :=
    fun c c' hne sp hsp hsp' => hne (hl.lists.unique c c' sp hsp hsp')
  refine List.Nodup.append (hnodup _) (List.Nodup.append (hnodup _) (hnodup _) ?_) ?_
  · exact hdisjoint _ _ (by decide)
  · rw [List.disjoint_append_right]
    exact ⟨hdisjoint _ _ (by decide), hdisjoint _ _ (by decide)⟩

/-- The pages of the heap. -/
def pages (g : Config) (status : ℕ → Status) : Finset ℕ :=
  (Finset.range g.frames).filter fun sp => status sp = .heap

theorem mem_pages (hl : Layout g h status live ls runs) {sp : ℕ} :
    sp ∈ pages g status ↔ status sp = .heap := by
  rw [pages, Finset.mem_filter, Finset.mem_range]
  refine and_iff_right_of_imp fun hsp => hl.frames sp ?_
  rw [hsp]
  decide

theorem visited_toFinset (hl : Layout g h status live ls runs) :
    (visited ls).toFinset = (pages g status).filter fun sp => runs sp ≠ [] := by
  ext sp
  rw [List.mem_toFinset, mem_visited, hl.mem_iff, Finset.mem_filter, hl.mem_pages]

/-- Counting the units of the heap page by page. -/
theorem card_heapUnits (hl : Layout g h status live ls runs) (P : ℕ → Prop) [DecidablePred P] :
    ((allUnits g).filter fun u => status (g.pageOf u) = .heap ∧ P u).card =
      ∑ sp ∈ pages g status,
        ((Finset.Ico (sp * g.pageUnits) ((sp + 1) * g.pageUnits)).filter P).card := by
  rw [Finset.card_eq_sum_card_fiberwise (f := g.pageOf) (t := pages g status)]
  · refine Finset.sum_congr rfl fun sp hsp => congrArg Finset.card ?_
    have hheap := hl.mem_pages.mp hsp
    have hframe := hl.frames sp (by rw [hheap]; decide)
    have hle : (sp + 1) * g.pageUnits ≤ g.frames * g.pageUnits := Nat.mul_le_mul_right _ hframe
    ext u
    simp only [allUnits, Finset.mem_filter, Finset.mem_range, Finset.mem_Ico]
    constructor
    · rintro ⟨⟨-, -, hp⟩, hu⟩
      exact ⟨Config.pageOf_eq_iff.mp hu, hp⟩
    · rintro ⟨hu, hp⟩
      have hpage := Config.pageOf_eq_iff.mpr hu
      exact ⟨⟨lt_of_lt_of_le hu.2 hle, by rw [hpage]; exact hheap, hp⟩, hpage⟩
  · intro u hu
    rw [Finset.mem_coe, Finset.mem_filter] at hu
    exact hl.mem_pages.mpr hu.2.1

theorem card_free (hl : Layout g h status live ls runs) :
    ((allUnits g).filter fun u => status (g.pageOf u) = .heap ∧ ¬ Live g live u).card =
      ∑ sp ∈ pages g status, runsSize (runs sp) := by
  rw [hl.card_heapUnits]
  refine Finset.sum_congr rfl fun sp hsp => ?_
  have hheap := hl.mem_pages.mp hsp
  exact (hl.manages sp hheap).onPage.card_filter (hl.covers_iff hheap)

theorem card_live_add_free (hl : Layout g h status live ls runs) :
    ((allUnits g).filter fun u => Live g live u).card +
      ((allUnits g).filter fun u => status (g.pageOf u) = .heap ∧ ¬ Live g live u).card =
        (pages g status).card * g.pageUnits := by
  have hall := hl.card_heapUnits fun _ => True
  simp only [and_true, Finset.filter_true, Nat.card_Ico, ← Nat.sub_mul, Nat.add_sub_cancel_left,
    Nat.one_mul] at hall
  rw [Finset.sum_const_nat fun _ _ => rfl] at hall
  rw [← hall, ← Finset.card_filter_add_card_filter_not (s := (allUnits g).filter fun u =>
    status (g.pageOf u) = .heap) (fun u => Live g live u), Finset.filter_filter, Finset.filter_filter]
  congr 2
  refine Finset.filter_congr fun u _ => (and_iff_right_of_imp fun hu => ?_).symm
  by_contra hnot
  exact hl.not_live hnot hu

/-- The blocks do not overlap, so their units add up. -/
theorem card_live (hl : Layout g h status live ls runs) :
    ((allUnits g).filter fun u => Live g live u).card =
      (live.map fun b => g.unitsOf b.size).sum := by
  have hin : ∀ b ∈ live, b.start + g.unitsOf b.size ≤ g.frames * g.pageUnits := by
    intro b hb
    have hplaced := hl.placed b hb
    have hframe := hl.frames _ (by rw [hplaced.onHeap]; decide)
    exact hplaced.bounds.2.trans (Nat.mul_le_mul_right _ hframe)
  have hdisjoint := hl.disjoint
  clear hl
  induction live with
  | nil => simp [Live]
  | cons b live ih =>
    obtain ⟨hb, hlive⟩ := List.pairwise_cons.mp hdisjoint
    have hblock := hin b List.mem_cons_self
    have hunion : ((allUnits g).filter fun u => Live g (b :: live) u) =
        Finset.Ico b.start (b.start + g.unitsOf b.size) ∪
          (allUnits g).filter fun u => Live g live u := by
      ext u
      simp only [allUnits, Finset.mem_filter, Finset.mem_range, live_cons, Finset.mem_union,
        Finset.mem_Ico, Block.Has]
      constructor
      · rintro ⟨hu, hor⟩
        exact hor.imp id fun hlive => ⟨hu, hlive⟩
      · rintro (hu | ⟨hu, hlive⟩)
        · exact ⟨by omega, .inl hu⟩
        · exact ⟨hu, .inr hlive⟩
    have hapart : Disjoint (Finset.Ico b.start (b.start + g.unitsOf b.size))
        ((allUnits g).filter fun u => Live g live u) := by
      rw [Finset.disjoint_left]
      intro u hu hu'
      obtain ⟨b', hb', hbu⟩ := (Finset.mem_filter.mp hu').2
      exact hb b' hb' u (Finset.mem_Ico.mp hu) hbu
    rw [hunion, Finset.card_union_of_disjoint hapart, Nat.card_Ico, Nat.add_sub_cancel_left,
      ih (fun b' hb' => hin b' (List.mem_cons_of_mem b hb')) hlive, List.map_cons, List.sum_cons]

theorem sysGetSlobAmtTotal_eq (hl : Layout g h status live ls runs) :
    sysGetSlobAmtTotal g h =
      some ((((pages g status).filter fun sp => runs sp ≠ []).card * g.pageUnits : ℕ) : ℤ) := by
  have hcount : ∀ pages : List ℕ, (pages.map fun _ => (1 : ℤ)).sum = pages.length := by
    intro pages
    simp
  rw [← hl.visited_toFinset, List.toFinset_card_of_nodup hl.visited_nodup]
  simp only [sysGetSlobAmtTotal, hl.addUp_eq, hcount, visited, List.length_append, Nat.cast_mul,
    Nat.cast_add, zero_add, ← add_assoc]
  rfl

theorem sysGetSlobAmtFree_eq (hl : Layout g h status live ls runs) :
    sysGetSlobAmtFree g h = some (∑ sp ∈ pages g status, runsSize (runs sp) : ℕ) := by
  have hunits : ∀ c, ((ls c).map fun sp => (h.page sp).units).sum =
      (((ls c).map fun sp => runsSize (runs sp)).sum : ℕ) := by
    intro c
    rw [Nat.cast_list_sum, List.map_map]
    exact congrArg List.sum (List.map_congr_left fun sp hsp =>
      (hl.manages sp (hl.heap_of_mem hsp)).units)
  have hvisited : ((visited ls).map fun sp => runsSize (runs sp)).sum =
      ∑ sp ∈ pages g status, runsSize (runs sp) := by
    rw [← List.sum_toFinset _ hl.visited_nodup, hl.visited_toFinset]
    refine Finset.sum_filter_of_ne fun sp _ hne hnil => hne ?_
    rw [hnil, runsSize_nil]
  rw [← hvisited]
  simp only [sysGetSlobAmtFree, hl.addUp_eq, hunits, visited, List.map_append, List.sum_append,
    zero_add, ← add_assoc]
  rfl

/-- A page without free runs is a page without free units. -/
theorem runs_ne_nil_iff (hl : Layout g h status live ls runs) {sp : ℕ} (hsp : status sp = .heap) :
    runs sp ≠ [] ↔ ∃ u, g.pageOf u = sp ∧ ¬ Live g live u := by
  have hm := hl.manages sp hsp
  constructor
  · intro hne
    obtain ⟨x, xs, hruns⟩ := List.exists_cons_of_ne_nil hne
    have hx : x ∈ runs sp := hruns ▸ List.mem_cons_self
    have hcov : Covers (runs sp) x.1 :=
      ⟨x, hx, le_rfl, Nat.lt_add_of_pos_right (hm.onPage.of_mem hx).2.1⟩
    have hpage := hm.onPage.pageOf_eq hcov
    rw [← hpage] at hcov hsp
    exact ⟨x.1, hpage, (hl.covers x.1 hsp).mp hcov⟩
  · rintro ⟨u, rfl, hu⟩ hnil
    have hcov := (hl.covers u hsp).mpr hu
    rw [hnil] at hcov
    exact covers_nil hcov

end Layout

variable {τ : Type*} [DecidableEq τ] {nid : ℕ → ℕ}

/-- In every reachable state the second system call counts the free units of the heap; the difference
between the two counts the live units exactly when no page of the heap is full. -/
theorem accounting (s : State τ) (hs : (machine g nid).Reachable s) :
    ∃ total free : ℤ, sysGetSlobAmtTotal g s.heap = some total ∧
      sysGetSlobAmtFree g s.heap = some free ∧
      free = ((allUnits g).filter fun u =>
        s.status (g.pageOf u) = .heap ∧ ¬ Live g s.live u).card ∧
      (total - free = (s.live.map fun b => g.unitsOf b.size).sum ↔
        ∀ sp, s.status sp = .heap → ∃ u, g.pageOf u = sp ∧ ¬ Live g s.live u) := by
  obtain ⟨ls, runs, hl⟩ := (invariant hs).layout
  refine ⟨_, _, hl.sysGetSlobAmtTotal_eq, hl.sysGetSlobAmtFree_eq, by rw [hl.card_free], ?_⟩
  have hsum := hl.card_live_add_free
  rw [hl.card_free, hl.card_live] at hsum
  have hsub : (Layout.pages g s.status).filter (fun sp => runs sp ≠ []) ⊆ Layout.pages g s.status :=
    Finset.filter_subset _ _
  have hpos := g.pageUnits_pos
  calc _ ↔ ((Layout.pages g s.status).filter fun sp => runs sp ≠ []).card * g.pageUnits =
        (Layout.pages g s.status).card * g.pageUnits := by omega
    _ ↔ ((Layout.pages g s.status).filter fun sp => runs sp ≠ []) = Layout.pages g s.status := by
        rw [Nat.mul_left_inj hpos.ne']
        exact ⟨fun hcard => Finset.eq_of_subset_of_card_le hsub hcard.ge, fun heq => by rw [heq]⟩
    _ ↔ ∀ sp, s.status sp = .heap → ∃ u, g.pageOf u = sp ∧ ¬ Live g s.live u := by
        rw [Finset.filter_eq_self]
        refine forall_congr' fun sp => ?_
        rw [hl.mem_pages]
        exact imp_congr_right fun hsp => hl.runs_ne_nil_iff hsp

/-- A call that takes a whole page: its page is on no list, so that both system calls report 0. -/
def wholePage : List (Event ℕ) := [.alloc 0 ⟨4095, 0, none⟩, .newPages 0 (some 1), .addPage 0]

/-- After the four blocks no page is full, and the difference is the number of live units. -/
theorem accounting_after_fourBlocks : ∃ s total free,
    (machine smallConfig fun _ => 0).run emptyState fourBlocks = some s ∧
      sysGetSlobAmtTotal smallConfig s.heap = some total ∧
      sysGetSlobAmtFree smallConfig s.heap = some free ∧ total = 2048 ∧ free = 2028 ∧
      free = ((allUnits smallConfig).filter fun u =>
        s.status (smallConfig.pageOf u) = .heap ∧ ¬ Live smallConfig s.live u).card := by
  obtain ⟨s, hr, htotal, hfree⟩ : ∃ s,
      (machine smallConfig fun _ => 0).run emptyState fourBlocks = some s ∧
        sysGetSlobAmtTotal smallConfig s.heap = some 2048 ∧
        sysGetSlobAmtFree smallConfig s.heap = some 2028 := ⟨_, rfl, rfl, rfl⟩
  obtain ⟨total, free, ht, hf, hcount, -⟩ := accounting s ⟨emptyState, _, emptyState_emptyHeap, hr⟩
  obtain rfl := Option.some.inj (htotal.symm.trans ht)
  obtain rfl := Option.some.inj (hfree.symm.trans hf)
  exact ⟨s, 2048, 2028, hr, htotal, hfree, rfl, rfl, hcount⟩

/-- A full page: 2048 units are live, and the system calls report none of them. -/
theorem full_page_not_counted : ∃ s,
    (machine smallConfig fun _ => 0).run emptyState wholePage = some s ∧
      sysGetSlobAmtTotal smallConfig s.heap = some 0 ∧ sysGetSlobAmtFree smallConfig s.heap = some 0 ∧
      (s.live.map fun b => smallConfig.unitsOf b.size).sum = 2048 :=
  ⟨_, rfl, rfl, rfl, rfl⟩

end OperatingSystems.Slob
