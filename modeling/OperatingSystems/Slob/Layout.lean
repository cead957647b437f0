import OperatingSystems.Slob.Calls
import OperatingSystems.Slob.Search

namespace OperatingSystems.Slob

open Library

/-- A live block lies on one page of the heap, where it was asked for. -/
structure Placed (g : Config) (status : ℕ → Status) (b : Block) : Prop where
  onHeap : status (g.pageOf b.start) = .heap
  inPage : b.start + g.unitsOf b.size ≤ g.base b.start + g.pageUnits
  aligned : b.align ≠ 0 → b.align ∣ b.start * g.slobUnit
  size_pos : 0 < b.size

/-- The heap: the partial lists hold the pages `ls`, the free runs of page `sp` are `runs sp`, and
all the other units of its pages belong to the live blocks. -/
structure Layout (g : Config) (h : Heap) (status : ℕ → Status) (live : List Block)
    (ls : SizeClass → List ℕ) (runs : ℕ → List (ℕ × ℕ)) : Prop where
  lists : PartialLists h.links ls
  mem_iff : ∀ sp, (∃ c, sp ∈ ls c) ↔ status sp = .heap ∧ runs sp ≠ []
  manages : ∀ sp, status sp = .heap → Manages g h sp (runs sp)
  covers : ∀ u, status (g.pageOf u) = .heap → (Covers (runs (g.pageOf u)) u ↔ ¬ Live g live u)
  frames : ∀ sp, status sp ≠ .outside → sp < g.frames
  placed : ∀ b ∈ live, Placed g status b
  disjoint : live.Pairwise fun a b => ∀ u, a.Has g u → ¬ b.Has g u

variable {g : Config} {h h' : Heap} {status status' : ℕ → Status} {live live' : List Block}
  {ls ls' : SizeClass → List ℕ} {runs : ℕ → List (ℕ × ℕ)} {c : SizeClass} {b : Block}
  {sp p u : ℕ} {as bs pages : List ℕ} {xs xs' : List (ℕ × ℕ)} {S : Set ℕ}

@[simp] theorem live_cons : Live g (b :: live) u ↔ b.Has g u ∨ Live g live u := by
  simp [Live]

theorem Live.perm (h : live.Perm live') : Live g live u ↔ Live g live' u := by
  simp only [Live, h.mem_iff]

theorem OnPage.pageOf_eq (h : OnPage g 1 sp xs) (hu : Covers xs u) : g.pageOf u = sp :=
  Config.pageOf_eq_iff.mpr (h.bounds hu)

theorem Placed.pageOf_eq (h : Placed g status b) (hu : b.Has g u) : g.pageOf u = g.pageOf b.start := by
  have hin := h.inPage
  apply Config.pageOf_eq (Config.base_le.trans hu.1)
  rw [Nat.succ_mul]
  exact lt_of_lt_of_le hu.2 hin

/-- The blocks of a page are inside it. -/
theorem Placed.bounds (h : Placed g status b) : g.pageOf b.start * g.pageUnits ≤ b.start ∧
    b.start + g.unitsOf b.size ≤ (g.pageOf b.start + 1) * g.pageUnits := by
  refine ⟨Config.base_le, ?_⟩
  rw [Nat.succ_mul]
  exact h.inPage

/-- An operation on page `sp` leaves the other pages alone. -/
theorem Manages.other (hm : Manages g h p xs) (ht : Touches sp S h h') (hne : p ≠ sp)
    (hS : ∀ u ∈ S, g.pageOf u = sp) : Manages g h' p xs := by
  have hpage := ht.page p hne
  refine ⟨hm.onPage, hpage ▸ hm.units, hpage ▸ hm.slobFree, fun hne' => ?_⟩
  rw [hpage]
  refine Blocks.congr (hm.blocks hne') fun u hu => ht.mem.cell u fun hin => ?_
  exact hne ((hm.onPage.pageOf_eq hu).symm.trans (hS u hin))

theorem mem_update_of_iff (hp : p ∈ pages ↔ p ∈ ls c) :
    (∃ c', p ∈ Function.update ls c pages c') ↔ ∃ c', p ∈ ls c' := by
  refine exists_congr fun c' => ?_
  by_cases hc : c' = c
  · subst hc
    rw [Function.update_self, hp]
  · rw [Function.update_of_ne hc]

theorem mem_update_of_not (hp : ∀ c', c' ≠ c → p ∉ ls c') :
    (∃ c', p ∈ Function.update ls c pages c') ↔ p ∈ pages := by
  refine ⟨fun ⟨c', hmem⟩ => ?_, fun hmem => ⟨c, by rwa [Function.update_self]⟩⟩
  by_cases hc : c' = c
  · subst hc
    rwa [Function.update_self] at hmem
  · rw [Function.update_of_ne hc] at hmem
    exact absurd hmem (hp c' hc)

theorem mem_update {c' : SizeClass} (hp : p ∈ Function.update ls c pages c') :
    c' = c ∧ p ∈ pages ∨ p ∈ ls c' := by
  by_cases hc : c' = c
  · subst hc
    rw [Function.update_self] at hp
    exact .inl ⟨rfl, hp⟩
  · rw [Function.update_of_ne hc] at hp
    exact .inr hp

namespace Layout

/-- An operation that works on page `sp`. -/
theorem replace (hl : Layout g h status live ls runs) (ht : Touches sp S h h')
    (hS : ∀ u ∈ S, g.pageOf u = sp) (hlists : PartialLists h'.links ls')
    (hothers : ∀ p, p ≠ sp → status' p = status p ∧ ((∃ c, p ∈ ls' c) ↔ ∃ c, p ∈ ls c))
    (hmem : (∃ c, sp ∈ ls' c) ↔ status' sp = .heap ∧ xs' ≠ [])
    (hm : status' sp = .heap → Manages g h' sp xs')
    (hcovers : status' sp = .heap → ∀ u, g.pageOf u = sp → (Covers xs' u ↔ ¬ Live g live' u))
    (hlive : ∀ u, g.pageOf u ≠ sp → (Live g live' u ↔ Live g live u)) (hframes : sp < g.frames)
    (hplaced : ∀ b ∈ live', Placed g status' b)
    (hdisjoint : live'.Pairwise fun a b => ∀ u, a.Has g u → ¬ b.Has g u) :
    Layout g h' status' live' ls' (Function.update runs sp xs') := by
  refine ⟨hlists, fun p => ?_, fun p hp => ?_, fun u hu => ?_, fun p hp => ?_, hplaced, hdisjoint⟩
  · by_cases hps : p = sp
    · subst hps
      rw [Function.update_self]
      exact hmem
    · rw [Function.update_of_ne hps, (hothers p hps).1, (hothers p hps).2]
      exact hl.mem_iff p
  · by_cases hps : p = sp
    · subst hps
      rw [Function.update_self]
      exact hm hp
    · rw [Function.update_of_ne hps]
      rw [(hothers p hps).1] at hp
      exact (hl.manages p hp).other ht hps hS
  · by_cases hps : g.pageOf u = sp
    · rw [hps, Function.update_self]
      exact hcovers (hps ▸ hu) u hps
    · rw [Function.update_of_ne hps, hlive u hps]
      rw [(hothers _ hps).1] at hu
      exact hl.covers u hu
  · by_cases hps : p = sp
    · exact hps ▸ hframes
    · exact hl.frames p ((hothers p hps).1 ▸ hp)

theorem heap_of_mem (hl : Layout g h status live ls runs) (hsp : sp ∈ ls c) : status sp = .heap :=
  ((hl.mem_iff sp).mp ⟨c, hsp⟩).1

/-- A page outside the heap is on no list. -/
theorem not_mem_of_status (hl : Layout g h status live ls runs) (hsp : status sp ≠ .heap) :
    ∀ c, sp ∉ ls c :=
  fun _ hmem => hsp (hl.heap_of_mem hmem)

/-- There are no live blocks outside the heap. -/
theorem not_live (hl : Layout g h status live ls runs) (hu : status (g.pageOf u) ≠ .heap) :
    ¬ Live g live u := by
  rintro ⟨b, hb, hbu⟩
  have hplaced := hl.placed b hb
  exact hu (hplaced.pageOf_eq hbu ▸ hplaced.onHeap)

/-- What happens outside the heap does not matter. -/
theorem congr (hl : Layout g h status live ls runs) (hheap : ∀ p, status' p = .heap ↔ status p = .heap)
    (hframes : ∀ p, status' p ≠ .outside → p < g.frames) (hlists : PartialLists h'.links ls)
    (hpage : ∀ p, status p = .heap → h'.page p = h.page p)
    (hcell : ∀ u, status (g.pageOf u) = .heap → ¬ Live g live u → h'.mem.cell u = h.mem.cell u) :
    Layout g h' status' live ls runs := by
  refine ⟨hlists, fun p => ?_, fun p hp => ?_, fun u hu => hl.covers u ((hheap _).mp hu), hframes,
    fun b hb => ?_, hl.disjoint⟩
  · rw [hheap]
    exact hl.mem_iff p
  · rw [hheap] at hp
    have hm := hl.manages p hp
    refine ⟨hm.onPage, hpage p hp ▸ hm.units, hpage p hp ▸ hm.slobFree, fun hne => ?_⟩
    rw [hpage p hp]
    refine Blocks.congr (hm.blocks hne) fun u hu => ?_
    have hup := hm.onPage.pageOf_eq hu
    rw [← hup] at hp hu
    exact hcell u hp ((hl.covers u hp).mp hu)
  · have hb := hl.placed b hb
    exact ⟨(hheap _).mpr hb.onHeap, hb.inPage, hb.aligned, hb.size_pos⟩

/-- A page changes hands outside the heap. -/
theorem setSlab {slab : Bool} {st : Status} (hl : Layout g h status live ls runs)
    (hold : status sp ≠ .heap) (hnew : st ≠ .heap) (hframe : st ≠ .outside → sp < g.frames) :
    Layout g (h.setSlab sp slab) (Function.update status sp st) live ls runs := by
  refine hl.congr (fun p => ?_) (fun p hp => ?_) hl.lists (fun p hp => ?_) fun _ _ _ => rfl
  · by_cases hps : p = sp
    · rw [hps, Function.update_self]
      exact iff_of_false hnew hold
    · rw [Function.update_of_ne hps]
  · by_cases hps : p = sp
    · rw [hps, Function.update_self] at hp
      exact hps ▸ hframe hp
    · rw [Function.update_of_ne hps] at hp
      exact hl.frames p hp
  · exact Function.update_of_ne (fun hps => hold ((congrArg status hps).symm.trans hp)) _ _

/-- Owners write to their blocks and to pages outside the heap. -/
theorem store {a : ℕ} {v : ℤ} (hl : Layout g h status live ls runs)
    (hown : status (g.pageOf a) = .outside ∨ Live g live a) :
    Layout g (h.store a v) status live ls runs := by
  refine hl.congr (fun _ => Iff.rfl) hl.frames hl.lists (fun _ _ => rfl) fun u hu hlive => ?_
  refine Function.update_of_ne (fun hua => ?_) _ _
  subst hua
  rw [hu] at hown
  exact hown.elim nofun hlive

/-- The owner of a page outside the heap uses its `struct page`. -/
theorem reuse {page : Page} {next prev : Entry} (hl : Layout g h status live ls runs)
    (hstatus : status sp = .outside) : Layout g (h.reuse sp page next prev) status live ls runs := by
  have hnot : ∀ c, sp ∉ ls c := hl.not_mem_of_status (by rw [hstatus]; nofun)
  refine hl.congr (fun _ => Iff.rfl) hl.frames (hl.lists.other hnot fun e he => ?_) (fun p hp => ?_)
    fun _ _ _ => rfl
  · have hne : e ≠ .lru sp := fun hes => he (List.mem_singleton.mpr hes)
    exact ⟨Function.update_of_ne hne _ _, Function.update_of_ne hne _ _⟩
  · refine Function.update_of_ne (fun hps => ?_) _ _
    rw [hps, hstatus] at hp
    cases hp

/-- The order of the live blocks does not matter. -/
theorem perm (hl : Layout g h status live ls runs) (hp : live.Perm live') :
    Layout g h status live' ls runs := by
  refine ⟨hl.lists, hl.mem_iff, hl.manages, fun u hu => ?_, hl.frames,
    fun b hb => hl.placed b (hp.mem_iff.mpr hb), ?_⟩
  · rw [hl.covers u hu, Live.perm hp]
  · exact (hp.pairwise_iff fun hab u hb ha => hab u ha hb).mp hl.disjoint

theorem not_mem_of_ne (hl : Layout g h status live ls runs) (hsp : sp ∈ ls c) :
    ∀ c', c' ≠ c → sp ∉ ls c' :=
  fun c' hc hmem => hc (hl.lists.unique c' c sp hmem hsp)

/-- A list is no longer than there are pages. -/
theorem length_le (hl : Layout g h status live ls runs) (c : SizeClass) :
    (ls c).length ≤ g.frames := by
  refine hl.lists.length_le fun sp hsp => hl.frames sp ?_
  rw [hl.heap_of_mem hsp]
  nofun

/-- A block is allocated on a page of a partial list, which is moved to the front of its list, or
off it when it is full. -/
theorem alloc {r : Request} {a : ℕ} {h₁ : Heap} {links : Links Entry}
    (hl : Layout g h status live ls runs) (hc : ls c = as ++ sp :: bs)
    (ht : Takes g sp a (g.unitsOf r.size) (runs sp) xs' h h₁)
    (hlists : PartialLists links
      (Function.update ls c (if xs' = [] then bs ++ as else sp :: bs ++ as)))
    (halign : r.align ≠ 0 → r.align ∣ a * g.slobUnit) (hsize : 0 < r.size) :
    Layout g { h₁ with links := links } status (⟨a, r.size, r.align⟩ :: live)
      (Function.update ls c (if xs' = [] then bs ++ as else sp :: bs ++ as))
      (Function.update runs sp xs') := by
  have hsp : sp ∈ ls c := by rw [hc]; simp
  have hheap := hl.heap_of_mem hsp
  have hm := hl.manages sp hheap
  have hnot : sp ∉ bs ++ as := fun hmem =>
    hl.lists.not_mem hc (List.mem_append.mpr (List.mem_append.mp hmem).symm)
  have hpos := g.unitsOf_pos hsize
  have hpage : ∀ u, a ≤ u → u < a + g.unitsOf r.size → g.pageOf u = sp :=
    fun u hle hlt => hm.onPage.pageOf_eq (ht.inside u hle hlt)
  have ha := hpage a le_rfl (by omega)
  have hnew : Placed g status ⟨a, r.size, r.align⟩ := by
    refine ⟨ha.symm ▸ hheap, ?_, halign, hsize⟩
    have hend := hpage (a + g.unitsOf r.size - 1) (by omega) (by omega)
    have hlt := (Config.pageOf_eq_iff.mp hend).2
    change a + g.unitsOf r.size ≤ g.pageOf a * g.pageUnits + g.pageUnits
    rw [ha, ← Nat.succ_mul, Nat.succ_eq_add_one]
    omega
  refine hl.replace ⟨ht.touches.mem, ht.touches.page, ht.touches.slab⟩
    (fun u hu => hm.onPage.pageOf_eq hu) hlists (fun p hp => ⟨rfl, mem_update_of_iff ?_⟩) ?_
    (fun _ => ⟨ht.manages.onPage, ht.manages.units, ht.manages.slobFree, ht.manages.blocks⟩)
    (fun _ u hu => ?_) (fun u hu => ?_) (hl.frames sp (by rw [hheap]; nofun))
    (List.forall_mem_cons.mpr ⟨hnew, hl.placed⟩) (List.pairwise_cons.mpr ⟨fun b hb u hu hbu => ?_,
      hl.disjoint⟩)
  · rw [hc]
    split_ifs <;> simp [hp, or_comm]
  · rw [mem_update_of_not (hl.not_mem_of_ne hsp)]
    split_ifs with hnil
    · exact iff_of_false hnot fun hand => hand.2 hnil
    · exact iff_of_true List.mem_cons_self ⟨hheap, hnil⟩
  · have hold := hl.covers u (hu.symm ▸ hheap)
    rw [hu] at hold
    rw [ht.covers, hold, live_cons, not_or, and_comm]
    rfl
  · rw [live_cons]
    exact or_iff_right fun hblock => hu (hpage u hblock.1 hblock.2)
  · have hcov := ht.inside u hu.1 hu.2
    have hup := hpage u hu.1 hu.2
    have hold := hl.covers u (hup.symm ▸ hheap)
    rw [hup] at hold
    exact hold.mp hcov ⟨b, hb, hbu⟩

/-- A new page enters the heap, with its first block. -/
theorem add {r : Request} (hl : Layout g h status live ls runs) (hstatus : status sp = .taken)
    (hm : Manages g h' sp xs')
    (hcovers : ∀ u, Covers xs' u ↔ Covers [(sp * g.pageUnits, g.pageUnits)] u ∧
      ¬ (sp * g.pageUnits ≤ u ∧ u < sp * g.pageUnits + g.unitsOf r.size))
    (ht : Touches sp {u | Covers [(sp * g.pageUnits, g.pageUnits)] u} h h')
    (hlists : PartialLists h'.links
      (Function.update ls c (if xs' = [] then ls c else sp :: ls c)))
    (halign : r.align ≠ 0 → r.align ∣ sp * g.pageUnits * g.slobUnit) (hsize : 0 < r.size)
    (hlt : r.size < g.pageSize) :
    Layout g h' (Function.update status sp .heap) (⟨sp * g.pageUnits, r.size, r.align⟩ :: live)
      (Function.update ls c (if xs' = [] then ls c else sp :: ls c)) (Function.update runs sp xs') := by
  have hnot : ∀ c, sp ∉ ls c := hl.not_mem_of_status (by rw [hstatus]; nofun)
  have hunits : g.unitsOf r.size ≤ g.pageUnits := Nat.div_le_div_right (by omega)
  have hpos := g.unitsOf_pos hsize
  have hpage : ∀ u, g.pageOf u = sp ↔ Covers [(sp * g.pageUnits, g.pageUnits)] u := by
    intro u
    rw [Config.pageOf_eq_iff, Nat.succ_mul, covers_cons, or_iff_left covers_nil]
  have hblock : ∀ u, (⟨sp * g.pageUnits, r.size, r.align⟩ : Block).Has g u → g.pageOf u = sp :=
    fun u hu => (hpage u).mpr (covers_cons.mpr (.inl
      ⟨hu.1, lt_of_lt_of_le hu.2 (Nat.add_le_add_left hunits _)⟩))
  have hstart : g.pageOf (sp * g.pageUnits) = sp :=
    hblock _ ⟨le_rfl, Nat.lt_add_of_pos_right hpos⟩
  have hfree : ∀ b ∈ live, g.pageOf b.start ≠ sp := by
    intro b hb hbsp
    have := (hl.placed b hb).onHeap
    rw [hbsp, hstatus] at this
    cases this
  have hdead : ∀ u, g.pageOf u = sp → ¬ Live g live u :=
    fun u hu => hl.not_live (by rw [hu, hstatus]; nofun)
  refine hl.replace ht (fun u hu => (hpage u).mpr hu) hlists (fun p hp => ⟨Function.update_of_ne hp _ _,
    mem_update_of_iff ?_⟩) ?_ (fun _ => hm) (fun _ u hu => ?_) (fun u hu => ?_)
    (hl.frames sp (by rw [hstatus]; nofun)) (List.forall_mem_cons.mpr ⟨⟨?_, ?_, halign, hsize⟩,
      fun b hb => ?_⟩) (List.pairwise_cons.mpr ⟨fun b hb u hu hbu => ?_, hl.disjoint⟩)
  · split_ifs <;> simp [hp]
  · rw [mem_update_of_not fun c' _ => hnot c', Function.update_self]
    split_ifs with hnil
    · exact iff_of_false (hnot c) fun hand => hand.2 hnil
    · exact iff_of_true List.mem_cons_self ⟨rfl, hnil⟩
  · rw [hcovers, live_cons, not_or]
    exact ⟨fun hu' => ⟨hu'.2, hdead u hu⟩, fun hu' => ⟨(hpage u).mp hu, hu'.1⟩⟩
  · rw [live_cons]
    exact or_iff_right fun hu' => hu (hblock u hu')
  · change Function.update status sp .heap (g.pageOf (sp * g.pageUnits)) = .heap
    rw [hstart, Function.update_self]
  · change sp * g.pageUnits + g.unitsOf r.size ≤ g.pageOf (sp * g.pageUnits) * g.pageUnits + g.pageUnits
    rw [hstart]
    omega
  · have hb' := hl.placed b hb
    refine ⟨?_, hb'.inPage, hb'.aligned, hb'.size_pos⟩
    rw [Function.update_of_ne (hfree b hb)]
    exact hb'.onHeap
  · exact hdead u (hblock u hu) ⟨b, hb, hbu⟩

theorem disjoint_cons (hl : Layout g h status (b :: live) ls runs) (hu : b.Has g u) :
    ¬ Live g live u := by
  rintro ⟨b', hb', hu'⟩
  exact (List.pairwise_cons.mp hl.disjoint).1 b' hb' u hu hu'

/-- The units of a live block are not free. -/
theorem not_covers (hl : Layout g h status (b :: live) ls runs) (hu : b.Has g u) :
    ¬ Covers (runs (g.pageOf b.start)) u := by
  have hb := hl.placed b List.mem_cons_self
  rw [← hb.pageOf_eq hu, hl.covers u (hb.pageOf_eq hu ▸ hb.onHeap), not_not]
  exact ⟨b, List.mem_cons_self, hu⟩

/-- What `slob_free` does with a live block. -/
theorem slobFree_eq (hl : Layout g h status live ls runs) (hmem : b ∈ live) :
    (runsSize (runs (g.pageOf b.start)) + g.unitsOf b.size = g.pageUnits ∧
      slobFree g h b.start b.size = some (if runs (g.pageOf b.start) = [] then h
        else h.clearSlobPageFree (g.pageOf b.start), true)) ∨
    runsSize (runs (g.pageOf b.start)) + g.unitsOf b.size ≠ g.pageUnits ∧
      ∃ h' xs', slobFree g h b.start b.size = some (h', false) ∧ xs' ≠ [] ∧
        Frees g (g.pageOf b.start) b.start (g.unitsOf b.size) (slobList b.size)
          (runs (g.pageOf b.start)) xs' h h' := by
  have hb := hl.placed b hmem
  obtain ⟨hlo, hhi⟩ := hb.bounds
  apply slobFree_spec (hl.manages _ hb.onHeap) hb.size_pos hlo hhi
  intro u hle hlt
  exact (hl.perm (List.perm_cons_erase hmem)).not_covers ⟨hle, hlt⟩

/-- A block is freed on a page that has other blocks; if the page was full, it comes on a list. -/
theorem free (hl : Layout g h status (b :: live) ls runs) (hsp : sp = g.pageOf b.start)
    (hne : xs' ≠ []) (hf : Frees g sp b.start (g.unitsOf b.size) c (runs sp) xs' h h') :
    ∃ ls', Layout g h' status live ls' (Function.update runs sp xs') ∧
      ∀ c' p, p ∈ ls' c' → p ∈ ls c' ∨ p = sp ∧ c' = c := by
  have hb := hl.placed b List.mem_cons_self
  have hheap : status sp = .heap := hsp ▸ hb.onHeap
  have hm := hl.manages sp hheap
  have hlists : ∃ ls', PartialLists h'.links ls' ∧ (∃ c, sp ∈ ls' c) ∧
      (∀ p, p ≠ sp → ((∃ c, p ∈ ls' c) ↔ ∃ c, p ∈ ls c)) ∧
      ∀ c' p, p ∈ ls' c' → p ∈ ls c' ∨ p = sp ∧ c' = c := by
    rw [hf.links]
    split_ifs with hnil
    · have hnot : ∀ c, sp ∉ ls c := fun c hmem => ((hl.mem_iff sp).mp ⟨c, hmem⟩).2 hnil
      refine ⟨_, hl.lists.listAdd hnot, ⟨c, ?_⟩, fun p hp => mem_update_of_iff ?_, ?_⟩
      · rw [Function.update_self]
        exact List.mem_cons_self
      · simp [hp]
      · intro c' p hp
        rcases mem_update hp with ⟨rfl, hin⟩ | hold
        · exact (List.mem_cons.mp hin).symm.imp_right fun heq => ⟨heq, rfl⟩
        · exact .inl hold
    · exact ⟨ls, hl.lists, (hl.mem_iff sp).mpr ⟨hheap, hnil⟩, fun _ _ => Iff.rfl, fun _ _ => .inl⟩
  obtain ⟨ls', hls', hmem, hothers, hfrom⟩ := hlists
  refine ⟨ls', hl.replace hf.touches (fun u hu => hf.manages.onPage.pageOf_eq hu) hls'
    (fun p hp => ⟨rfl, hothers p hp⟩) (iff_of_true hmem ⟨hheap, hne⟩) (fun _ => hf.manages)
    (fun _ u hu => ?_) (fun u hu => ?_) (hl.frames sp (by rw [hheap]; nofun))
    (List.forall_mem_cons.mp hl.placed).2 (List.pairwise_cons.mp hl.disjoint).2, hfrom⟩
  · have hold := hl.covers u (hu.symm ▸ hheap)
    rw [hu, live_cons, not_or] at hold
    rw [hf.covers, hold]
    refine ⟨fun hor => hor.elim hl.disjoint_cons And.right, fun hnot => ?_⟩
    exact or_iff_not_imp_left.mpr fun hblock => ⟨hblock, hnot⟩
  · rw [live_cons]
    exact (or_iff_right fun hblock => hu ((hb.pageOf_eq hblock).trans hsp.symm)).symm

/-- A page whose free units and one block add up to its size has no other block. -/
theorem no_others (hl : Layout g h status (b :: live) ls runs) (hsp : sp = g.pageOf b.start)
    (hsize : runsSize (runs sp) + g.unitsOf b.size = g.pageUnits) :
    ∀ b' ∈ live, g.pageOf b'.start ≠ sp := by
  have hb := hl.placed b List.mem_cons_self
  have hheap : status sp = .heap := hsp ▸ hb.onHeap
  have hm := hl.manages sp hheap
  have hbounds := hb.bounds
  rw [← hsp] at hbounds
  intro b' hb' hpage
  have hplaced := hl.placed b' (List.mem_cons_of_mem b hb')
  have hstart : b'.Has g b'.start :=
    ⟨le_rfl, Nat.lt_add_of_pos_right (g.unitsOf_pos hplaced.size_pos)⟩
  have hrange := Config.pageOf_eq_iff.mp hpage
  rcases hm.onPage.covers_of_size hbounds.1 hbounds.2
    (fun u hle hlt => hsp ▸ hl.not_covers ⟨hle, hlt⟩)
    (by rw [← Nat.sub_mul, Nat.add_sub_cancel_left, Nat.one_mul]; exact hsize) hrange.1 hrange.2 with
    hcov | hblock
  · have hold := hl.covers b'.start (hpage.symm ▸ hheap)
    rw [hpage] at hold
    exact hold.mp hcov ⟨b', List.mem_cons_of_mem b hb', hstart⟩
  · exact hl.disjoint_cons hblock ⟨b', hb', hstart⟩

/-- The last block of a page is freed, and the page leaves the heap. -/
theorem leave (hl : Layout g h status (b :: live) ls runs) (hsp : sp = g.pageOf b.start)
    (hsize : runsSize (runs sp) + g.unitsOf b.size = g.pageUnits) : ∃ ls',
      Layout g (if runs sp = [] then h else h.clearSlobPageFree sp)
        (Function.update status sp .leaving) live ls' runs ∧ ∀ c p, p ∈ ls' c → p ∈ ls c := by
  have hb := hl.placed b List.mem_cons_self
  have hheap : status sp = .heap := hsp ▸ hb.onHeap
  have hothers := hl.no_others hsp hsize
  have hlists : ∃ ls', PartialLists (if runs sp = [] then h else h.clearSlobPageFree sp).links ls' ∧
      (∀ c, sp ∉ ls' c) ∧ (∀ p, p ≠ sp → ((∃ c, p ∈ ls' c) ↔ ∃ c, p ∈ ls c)) ∧
      ∀ c p, p ∈ ls' c → p ∈ ls c := by
    split_ifs with hnil
    · exact ⟨ls, hl.lists, fun c hmem => ((hl.mem_iff sp).mp ⟨c, hmem⟩).2 hnil, fun _ _ => Iff.rfl,
        fun _ _ => id⟩
    · obtain ⟨c, hmem⟩ := (hl.mem_iff sp).mpr ⟨hheap, hnil⟩
      obtain ⟨as, bs, hc⟩ := List.append_of_mem hmem
      refine ⟨_, hl.lists.listDel hc, fun c' hmem' => ?_, fun p hp => mem_update_of_iff ?_,
        fun c' p hp => ?_⟩
      · have hin := (mem_update_of_not (hl.not_mem_of_ne hmem)).mp ⟨c', hmem'⟩
        exact hl.lists.not_mem hc hin
      · rw [hc]
        simp [hp]
      · rcases mem_update hp with ⟨rfl, hin⟩ | hold
        · rw [hc, List.mem_append, List.mem_cons]
          exact (List.mem_append.mp hin).imp_right .inr
        · exact hold
  obtain ⟨ls', hls', hnot, hiff, hfrom⟩ := hlists
  have ht : Touches sp ∅ h (if runs sp = [] then h else h.clearSlobPageFree sp) := by
    split_ifs
    · exact ⟨.refl _, fun _ _ => rfl, rfl⟩
    · refine ⟨.refl _, fun p hp => ?_, ?_⟩
      · simp [Heap.clearSlobPageFree, Heap.setPage, hp]
      · simp [Heap.clearSlobPageFree, Heap.setPage]
  have hgone : Function.update status sp .leaving sp ≠ .heap := by
    rw [Function.update_self]
    decide
  have hreplace : Layout g (if runs sp = [] then h else h.clearSlobPageFree sp)
      (Function.update status sp .leaving) live ls' (Function.update runs sp (runs sp)) := by
    refine hl.replace ht (fun u hu => hu.elim) hls'
      (fun p hp => ⟨Function.update_of_ne hp _ _, hiff p hp⟩)
      (iff_of_false (not_exists.mpr hnot) fun hand => hgone hand.1) (fun hsp => absurd hsp hgone)
      (fun hsp => absurd hsp hgone) (fun u hu => ?_) (hl.frames sp (by rw [hheap]; decide))
      (fun b' hb' => ?_) (List.pairwise_cons.mp hl.disjoint).2
    · rw [live_cons]
      exact (or_iff_right fun hblock => hu ((hb.pageOf_eq hblock).trans hsp.symm)).symm
    · have hplaced := hl.placed b' (List.mem_cons_of_mem b hb')
      refine ⟨?_, hplaced.inPage, hplaced.aligned, hplaced.size_pos⟩
      rw [Function.update_of_ne (hothers b' hb')]
      exact hplaced.onHeap
  rw [Function.update_eq_self] at hreplace
  exact ⟨ls', hreplace, hfrom⟩

end Layout

end OperatingSystems.Slob
