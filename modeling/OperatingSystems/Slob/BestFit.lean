import OperatingSystems.Slob.InOrder

namespace OperatingSystems.Slob

open Library

variable {τ : Type*} {g : Config} {nid : ℕ → ℕ} {s s' : State τ} {ls : SizeClass → List ℕ}
  {runs : ℕ → List (ℕ × ℕ)} {r : Request} {b sp : ℕ} {x : ℕ × ℕ}

/-- The pages of a partial list, read from its head on. -/
def pagesOf (g : Config) (h : Heap) (c : SizeClass) : List ℕ :=
  (listed g h.links c).filterMap fun
    | .lru sp => some sp
    | _ => none

/-- The free blocks of a page, read from its free list. -/
def freeRuns (g : Config) (h : Heap) (sp : ℕ) : List (ℕ × ℕ) :=
  (freeBlocks g h.mem.cell g.pageUnits (h.page sp).freelist).getD []

/-- A free block with room for the request. -/
def Fits (g : Config) (r : Request) (x : ℕ × ℕ) : Prop := 0 ≤ slack g (g.unitsOf r.size) r.align x

instance (g : Config) (r : Request) (x : ℕ × ℕ) : Decidable (Fits g r x) :=
  inferInstanceAs (Decidable (0 ≤ _))

/-- An eligible page of the list that the request looks through, with a fitting free block. -/
structure Candidate (g : Config) (nid : ℕ → ℕ) (h : Heap) (r : Request) (sp : ℕ) (x : ℕ × ℕ) :
    Prop where
  listed : sp ∈ pagesOf g h (slobList r.size)
  eligible : Eligible nid r sp
  free : x ∈ freeRuns g h sp
  fits : Fits g r x

/-- The new block of `s'` was carved from a free block of `s` that has the least slack of all. -/
def BestOverPages (g : Config) (nid : ℕ → ℕ) (s s' : State τ) (r : Request) : Prop :=
  ∃ b sp x, s'.live = ⟨b, r.size, r.align⟩ :: s.live ∧ Candidate g nid s.heap r sp x ∧
    x.1 ≤ b ∧ b < x.1 + x.2 ∧
    ∀ sp' y, Candidate g nid s.heap r sp' y →
      slack g (g.unitsOf r.size) r.align x ≤ slack g (g.unitsOf r.size) r.align y

/-- The first page with a fitting block has one whose slack no page behind it beats. -/
def FirstPageBest (g : Config) (nid : ℕ → ℕ) (h : Heap) (r : Request) : Prop :=
  ∃ as sp bs x, pagesOf g h (slobList r.size) = as ++ sp :: bs ∧
    (∀ sp' ∈ as, ∀ y, ¬ Candidate g nid h r sp' y) ∧ Candidate g nid h r sp x ∧
    ∀ sp' ∈ bs, ∀ y, Candidate g nid h r sp' y →
      slack g (g.unitsOf r.size) r.align x ≤ slack g (g.unitsOf r.size) r.align y

namespace Layout

variable {h : Heap} {status : ℕ → Status} {live : List Block}

theorem pagesOf_eq (hl : Layout g h status live ls runs) (c : SizeClass) : pagesOf g h c = ls c := by
  rw [pagesOf, hl.listed_eq, List.filterMap_map]
  exact List.filterMap_some

theorem freeRuns_eq (hl : Layout g h status live ls runs) {c : SizeClass} (hsp : sp ∈ ls c) :
    freeRuns g h sp = runs sp := by
  obtain ⟨hheap, hne⟩ := (hl.mem_iff sp).mp ⟨c, hsp⟩
  rw [freeRuns, (hl.manages sp hheap).freeBlocks hne]
  rfl

theorem candidate_iff (hl : Layout g h status live ls runs) :
    Candidate g nid h r sp x ↔
      sp ∈ ls (slobList r.size) ∧ Eligible nid r sp ∧ x ∈ runs sp ∧ Fits g r x := by
  constructor
  · intro hc
    have hsp := hc.listed
    rw [hl.pagesOf_eq] at hsp
    have hx := hc.free
    rw [hl.freeRuns_eq hsp] at hx
    exact ⟨hsp, hc.eligible, hx, hc.fits⟩
  · rintro ⟨hsp, helig, hx, hfits⟩
    exact ⟨by rwa [hl.pagesOf_eq], helig, by rwa [hl.freeRuns_eq hsp], hfits⟩

end Layout

/-- The free blocks of a page do not overlap. -/
theorem Manages.eq_of_mem {h : Heap} {xs : List (ℕ × ℕ)} {y : ℕ × ℕ} {u : ℕ}
    (hm : Manages g h sp xs) (hx : x ∈ xs) (hy : y ∈ xs) (hux : x.1 ≤ u ∧ u < x.1 + x.2)
    (huy : y.1 ≤ u ∧ u < y.1 + y.2) : x = y := by
  have hmax : ∀ z, z ∈ xs ↔ MaximalRun (Covers xs) (sp * g.pageUnits) ((sp + 1) * g.pageUnits) z :=
    fun _ => hm.onPage.mem_iff_maximalRun fun _ _ _ => Iff.rfl
  exact ((hmax x).mp hx).eq ((hmax y).mp hy) hux huy

/-- A list has one first element with a given property. -/
theorem first_unique {α : Type*} {P : α → Prop} {as bs as' bs' : List α} {a a' : α}
    (heq : as ++ a :: bs = as' ++ a' :: bs') (ha : P a) (ha' : P a') (has : ∀ x ∈ as, ¬ P x)
    (has' : ∀ x ∈ as', ¬ P x) : as = as' ∧ a = a' ∧ bs = bs' := by
  induction as generalizing as' with
  | nil =>
    cases as' with
    | nil => simpa using heq
    | cons y ys =>
      obtain ⟨rfl, -⟩ := List.cons.inj heq
      exact absurd ha (has' _ List.mem_cons_self)
  | cons x xs ih =>
    cases as' with
    | nil =>
      obtain ⟨rfl, -⟩ := List.cons.inj heq
      exact absurd ha' (has _ List.mem_cons_self)
    | cons y ys =>
      rw [List.cons_append, List.cons_append] at heq
      obtain ⟨rfl, htail⟩ := List.cons.inj heq
      obtain ⟨rfl, h⟩ := ih htail (fun z hz => has z (List.mem_cons_of_mem _ hz))
        fun z hz => has' z (List.mem_cons_of_mem _ hz)
      exact ⟨rfl, h⟩

/-- The block at `b` is carved from `x`, which has the least slack on the first page with room. -/
structure CarvedFrom (g : Config) (nid : ℕ → ℕ) (h : Heap) (r : Request) (as : List ℕ) (sp : ℕ)
    (bs : List ℕ) (x : ℕ × ℕ) (b : ℕ) : Prop where
  pages : pagesOf g h (slobList r.size) = as ++ sp :: bs
  before : ∀ sp' ∈ as, ∀ y, ¬ Candidate g nid h r sp' y
  candidate : Candidate g nid h r sp x
  least : ∀ y, Candidate g nid h r sp y →
    slack g (g.unitsOf r.size) r.align x ≤ slack g (g.unitsOf r.size) r.align y
  inside : x.1 ≤ b ∧ b < x.1 + x.2

namespace CarvedFrom

variable {as bs : List ℕ}

/-- There is one free block that contains the unit `b`. -/
theorem eq_of_inside {h : Heap} {status : ℕ → Status} {live : List Block} {sp' : ℕ} {y : ℕ × ℕ}
    (hl : Layout g h status live ls runs) (hf : CarvedFrom g nid h r as sp bs x b)
    (hy : Candidate g nid h r sp' y) (hb : y.1 ≤ b ∧ b < y.1 + y.2) : sp = sp' ∧ x = y := by
  obtain ⟨hsp, -, hx, -⟩ := hl.candidate_iff.mp hf.candidate
  obtain ⟨hsp', -, hy, -⟩ := hl.candidate_iff.mp hy
  have hm := hl.manages sp (hl.heap_of_mem hsp)
  have hm' := hl.manages sp' (hl.heap_of_mem hsp')
  have hpage : sp = sp' :=
    (hm.onPage.pageOf_eq ⟨x, hx, hf.inside⟩).symm.trans (hm'.onPage.pageOf_eq ⟨y, hy, hb⟩)
  subst hpage
  exact ⟨rfl, hm.eq_of_mem hx hy hf.inside hb⟩

theorem firstPageBest {h : Heap} (hf : CarvedFrom g nid h r as sp bs x b)
    (hbest : ∀ sp' y, Candidate g nid h r sp' y →
      slack g (g.unitsOf r.size) r.align x ≤ slack g (g.unitsOf r.size) r.align y) :
    FirstPageBest g nid h r :=
  ⟨as, sp, bs, x, hf.pages, hf.before, hf.candidate, fun sp' _ y hy => hbest sp' y hy⟩

/-- Where no page behind the first one has a better block, the block is the best of all. -/
theorem best {h : Heap} (hf : CarvedFrom g nid h r as sp bs x b) (hfirst : FirstPageBest g nid h r)
    {sp' : ℕ} {y : ℕ × ℕ} (hy : Candidate g nid h r sp' y) :
    slack g (g.unitsOf r.size) r.align x ≤ slack g (g.unitsOf r.size) r.align y := by
  obtain ⟨as', p, bs', z, hpages, hbefore, hz, hbehind⟩ := hfirst
  have hnone : ∀ sp' ∈ as, ¬ ∃ y, Candidate g nid h r sp' y :=
    fun sp' hsp' => not_exists.mpr (hf.before sp' hsp')
  have hnone' : ∀ sp' ∈ as', ¬ ∃ y, Candidate g nid h r sp' y :=
    fun sp' hsp' => not_exists.mpr (hbefore sp' hsp')
  obtain ⟨rfl, rfl, rfl⟩ := first_unique (hf.pages.symm.trans hpages) ⟨x, hf.candidate⟩ ⟨z, hz⟩
    hnone hnone'
  have hsp' := hy.listed
  rw [hf.pages, List.mem_append, List.mem_cons] at hsp'
  rcases hsp' with hsp' | rfl | hsp'
  · exact absurd hy (hf.before sp' hsp' y)
  · exact hf.least y hy
  · calc slack g (g.unitsOf r.size) r.align x ≤ slack g (g.unitsOf r.size) r.align z := hf.least z hz
      _ ≤ slack g (g.unitsOf r.size) r.align y := hbehind sp' hsp' y hy

end CarvedFrom

variable [DecidableEq τ]

/-- A call that some page has room for carves its block from the first such page. -/
theorem alloc_carves {t : τ} (hl : Layout g s.heap s.status s.live ls runs) (nid : ℕ → ℕ)
    (hidle : s.point t = .idle) (hvalid : r.Valid g)
    (hroom : ∃ sp x, Candidate g nid s.heap r sp x) :
    ∃ s' as sp bs x b, step g nid s (.alloc t r) = some s' ∧
      s'.live = ⟨b, r.size, r.align⟩ :: s.live ∧ CarvedFrom g nid s.heap r as sp bs x b := by
  obtain ⟨s', hstep, hd⟩ := alloc_does hl nid hidle hvalid
  cases hd with
  | noRoom idle valid none =>
    obtain ⟨sp, x, hc⟩ := hroom
    obtain ⟨hsp, helig, hx, hfits⟩ := hl.candidate_iff.mp hc
    exact absurd hfits (not_le.mpr (none sp hsp helig x hx))
  | @allocs _ _ sp as bs h links b xs idle valid list eligible before served takes aligned lists =>
    obtain ⟨ys, x, zs, d, hruns, hd, hb, hfits, hleast, -⟩ := served
    refine ⟨_, as, sp, bs, x, b, hstep, rfl, ?_, ?_, ?_, ?_, ?_⟩
    · rw [hl.pagesOf_eq, list]
    · intro sp' hsp' y hy
      obtain ⟨-, helig, hy, hfitsy⟩ := hl.candidate_iff.mp hy
      exact absurd hfitsy (not_le.mpr (before sp' hsp' helig y hy))
    · apply hl.candidate_iff.mpr
      refine ⟨?_, eligible, ?_, hfits⟩
      · rw [list]
        exact List.mem_append_right _ List.mem_cons_self
      · rw [hruns]
        exact List.mem_append_right _ List.mem_cons_self
    · intro y hy
      obtain ⟨-, -, hy, hfitsy⟩ := hl.candidate_iff.mp hy
      exact (hleast y hy hfitsy).1
    · have hpos := g.unitsOf_pos hvalid.1
      rw [slack, ← hd] at hfits
      omega

/-- The block is carved from the best free block of all eligible pages exactly when the first page with
room has it. -/
theorem best_over_pages_iff (s : State τ) (hs : (machine g nid).Reachable s) (t : τ) (r : Request)
    (hidle : s.point t = .idle) (hvalid : r.Valid g)
    (hroom : ∃ sp x, Candidate g nid s.heap r sp x) :
    ∃ s', step g nid s (.alloc t r) = some s' ∧
      (BestOverPages g nid s s' r ↔ FirstPageBest g nid s.heap r) := by
  obtain ⟨ls, runs, hl⟩ := (invariant hs).layout
  obtain ⟨s', as, sp, bs, x, b, hstep, hlive, hf⟩ := alloc_carves hl nid hidle hvalid hroom
  refine ⟨s', hstep, ?_⟩
  constructor
  · rintro ⟨b', sp', x', hlive', hc, hle, hlt, hbest⟩
    rw [hlive] at hlive'
    obtain rfl : b = b' := congrArg Block.start (List.cons.inj hlive').1
    obtain ⟨rfl, rfl⟩ := hf.eq_of_inside hl hc ⟨hle, hlt⟩
    exact hf.firstPageBest hbest
  · intro hfirst
    exact ⟨b, sp, x, hlive, hf.candidate, hf.inside.1, hf.inside.2, fun _ _ hy => hf.best hfirst hy⟩

/-- Two pages with one free block each; the longer one is on the page that comes first in the list. -/
def twoPages : List (Event ℕ) :=
  [.alloc 0 ⟨3000, 0, none⟩, .newPages 0 (some 1), .addPage 0, .alloc 0 ⟨2000, 0, none⟩,
    .newPages 0 (some 2), .addPage 0]

/-- A request that only the first page has room for gets the best block. -/
theorem best_of_twoPages : ∃ s s',
    (machine smallConfig fun _ => 0).run emptyState twoPages = some s ∧
      step smallConfig (fun _ => 0) s (.alloc 0 ⟨1500, 0, none⟩) = some s' ∧
      BestOverPages smallConfig (fun _ => 0) s s' ⟨1500, 0, none⟩ := by
  obtain ⟨s, hr, hidle, hpages, hfirst, hsecond⟩ : ∃ s,
      (machine smallConfig fun _ => 0).run emptyState twoPages = some s ∧ s.point 0 = .idle ∧
        pagesOf smallConfig s.heap .large = [2, 1] ∧
        freeRuns smallConfig s.heap 2 = [(5096, 1048)] ∧
        freeRuns smallConfig s.heap 1 = [(3548, 548)] := ⟨_, rfl, rfl, rfl, rfl, rfl⟩
  have hc : Candidate smallConfig (fun _ => 0) s.heap ⟨1500, 0, none⟩ 2 (5096, 1048) := by
    refine ⟨?_, fun _ h => absurd h.symm (Option.some_ne_none _), ?_, by decide⟩
    · exact hpages.symm ▸ List.mem_cons_self
    · rw [hfirst]
      exact List.mem_singleton_self _
  obtain ⟨s', hstep, hiff⟩ := best_over_pages_iff s ⟨emptyState, _, emptyState_emptyHeap, hr⟩ 0
    ⟨1500, 0, none⟩ hidle (by decide) ⟨2, _, hc⟩
  refine ⟨s, s', hr, hstep, hiff.mpr ⟨[], 2, [1], _, hpages, ?_, hc, ?_⟩⟩
  · exact fun _ h => absurd h List.not_mem_nil
  · intro sp' hsp' y hy
    obtain rfl := List.mem_singleton.mp hsp'
    have hfree := hy.free
    rw [hsecond, List.mem_singleton] at hfree
    subst hfree
    exact absurd hy.fits (by decide)

/-- A request that both pages have room for is served from the first one, although a block of the
second one fits better. -/
theorem better_page_passed_over : ∃ s s',
    (machine smallConfig fun _ => 0).run emptyState twoPages = some s ∧
      step smallConfig (fun _ => 0) s (.alloc 0 ⟨1024, 0, none⟩) = some s' ∧
      (∃ sp x, Candidate smallConfig (fun _ => 0) s.heap ⟨1024, 0, none⟩ sp x) ∧
      ¬ BestOverPages smallConfig (fun _ => 0) s s' ⟨1024, 0, none⟩ := by
  obtain ⟨s, s', hr, hstep, hpages, hfirst, hsecond, hlive⟩ : ∃ s s',
      (machine smallConfig fun _ => 0).run emptyState twoPages = some s ∧
        step smallConfig (fun _ => 0) s (.alloc 0 ⟨1024, 0, none⟩) = some s' ∧
        pagesOf smallConfig s.heap .large = [2, 1] ∧
        freeRuns smallConfig s.heap 2 = [(5096, 1048)] ∧
        freeRuns smallConfig s.heap 1 = [(3548, 548)] ∧
        s'.live.map Block.start = 5096 :: s.live.map Block.start :=
    ⟨_, _, rfl, rfl, rfl, rfl, rfl, rfl⟩
  have hc : Candidate smallConfig (fun _ => 0) s.heap ⟨1024, 0, none⟩ 1 (3548, 548) := by
    refine ⟨?_, fun _ h => absurd h.symm (Option.some_ne_none _), ?_, by decide⟩
    · exact hpages.symm ▸ List.mem_cons_of_mem _ List.mem_cons_self
    · rw [hsecond]
      exact List.mem_singleton_self _
  refine ⟨s, s', hr, hstep, ⟨1, _, hc⟩, ?_⟩
  rintro ⟨b, sp, x, hnew, hcx, -, hlt, hbest⟩
  have hb : b = 5096 := by
    rw [hnew, List.map_cons] at hlive
    exact (List.cons.inj hlive).1
  have hmem : sp ∈ [2, 1] := hpages ▸ hcx.listed
  have hfree := hcx.free
  rw [List.mem_cons, List.mem_singleton] at hmem
  rcases hmem with rfl | rfl
  · -- the block that was taken has 536 units left over, the other one would have 36
    rw [hfirst, List.mem_singleton] at hfree
    subst hfree
    exact absurd (hbest 1 _ hc) (by decide)
  · rw [hsecond, List.mem_singleton] at hfree
    subst hfree
    simp only at hlt
    omega

end OperatingSystems.Slob
