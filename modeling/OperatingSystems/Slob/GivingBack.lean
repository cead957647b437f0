import OperatingSystems.Library.Simulation
import OperatingSystems.Slob.InOrder

namespace OperatingSystems.Slob

open Library

variable {τ : Type*} {g : Config} {nid : ℕ → ℕ} {s s' : State τ} {e : Event τ}
  {ls : SizeClass → List ℕ} {runs : ℕ → List (ℕ × ℕ)} {status : ℕ → Status} {point : τ → Point}
  {h : Heap} {live : List Block} {b : Block}

/-- A call that moves a page between the page allocator and `slob_alloc` or `slob_free`. -/
inductive PageCall where
  | newPages (sp : ℕ)
  | freePages (sp : ℕ)
  deriving DecidableEq

def pageCalls (s : State τ) : Event τ → List PageCall
  | .newPages _ (some sp) => [.newPages sp]
  | .freePages t => match s.point t with
    | .pageEmpty sp => [.freePages sp]
    | _ => []
  | _ => []

/-- No other live block is on the page of `b`. -/
def LastOnPage (g : Config) (live : List Block) (b : Block) : Prop :=
  ∀ b' ∈ live.erase b, g.pageOf b'.start ≠ g.pageOf b.start

/-- In the step `slob_free` takes the page `sp` out of the heap, with its last live block, or the page
stays in the heap and its last live block is not freed. -/
def LeavesWithLast (g : Config) (s : State τ) (e : Event τ) (s' : State τ) (sp : ℕ) : Prop :=
  (s'.status sp = .leaving ∧ ∃ t b, e = .free t b ∧ s'.point t = .pageEmpty sp ∧
    g.pageOf b.start = sp ∧ LastOnPage g s.live b) ∨
  (s'.status sp = .heap ∧ ∀ t b, e = .free t b → g.pageOf b.start = sp → ¬ LastOnPage g s.live b)

/-- Every page on its way into the heap or out of it is in the hands of a call. -/
def Claimed (point : τ → Point) (status : ℕ → Status) : Prop :=
  ∀ sp, status sp = .taken ∨ status sp = .leaving → ∃ t, (point t).claim = some (sp, status sp)

/-- Every page of the heap has a live block. -/
def Occupied (g : Config) (s : State τ) : Prop :=
  ∀ sp, s.status sp = .heap → ∃ b ∈ s.live, g.pageOf b.start = sp

/-- Where a page has one block only, its free units and those of the block add up to its size. -/
theorem Layout.size_of_last (hl : Layout g h status (b :: live) ls runs)
    (hlast : ∀ b' ∈ live, g.pageOf b'.start ≠ g.pageOf b.start) :
    runsSize (runs (g.pageOf b.start)) + g.unitsOf b.size = g.pageUnits := by
  obtain ⟨sp, hsp⟩ : ∃ sp, sp = g.pageOf b.start := ⟨_, rfl⟩
  have hb := hl.placed b List.mem_cons_self
  have hheap : status sp = .heap := hsp ▸ hb.onHeap
  obtain ⟨hlo, hhi⟩ := hb.bounds
  rw [← hsp] at hlo hhi hlast ⊢
  have hfree : (Finset.Ico (sp * g.pageUnits) ((sp + 1) * g.pageUnits)).filter
      (fun u => ¬ Live g (b :: live) u) = Finset.Ico (sp * g.pageUnits) ((sp + 1) * g.pageUnits) \
        Finset.Ico b.start (b.start + g.unitsOf b.size) := by
    ext u
    rw [Finset.mem_filter, Finset.mem_sdiff, Finset.mem_Ico, Finset.mem_Ico]
    refine and_congr_right fun hu => not_congr ?_
    rw [live_cons]
    refine or_iff_left ?_
    rintro ⟨b', hb', hbu⟩
    apply hlast b' hb'
    have hplaced := hl.placed b' (List.mem_cons_of_mem b hb')
    rw [← hplaced.pageOf_eq hbu]
    exact Config.pageOf_eq hu.1 hu.2
  rw [← (hl.manages sp hheap).onPage.card_filter (hl.covers_iff hheap), hfree,
    Finset.card_sdiff_of_subset (Finset.Ico_subset_Ico hlo hhi), Nat.card_Ico, Nat.card_Ico]
  rw [Nat.succ_mul] at hhi ⊢
  omega

section Claimed

variable [DecidableEq τ] {t : τ} {p : Point} {sp : ℕ} {st : Status}

theorem Claimed.goto (hc : Claimed point status) (hnone : (point t).claim = none) :
    Claimed (Function.update point t p) status := by
  intro sp hsp
  obtain ⟨t', ht'⟩ := hc sp hsp
  refine ⟨t', ?_⟩
  rw [Function.update_of_ne ?_]
  · exact ht'
  · intro heq
    rw [heq, hnone] at ht'
    exact absurd ht'.symm (Option.some_ne_none _)

theorem Claimed.update (hc : Claimed point status)
    (hold : ∀ sp' st', (point t).claim = some (sp', st') → sp' = sp)
    (hnew : st = .taken ∨ st = .leaving → p.claim = some (sp, st)) :
    Claimed (Function.update point t p) (Function.update status sp st) := by
  intro sp' hsp'
  by_cases hsame : sp' = sp
  · subst hsame
    rw [Function.update_self] at hsp' ⊢
    refine ⟨t, ?_⟩
    rw [Function.update_self]
    exact hnew hsp'
  · rw [Function.update_of_ne hsame] at hsp' ⊢
    obtain ⟨t', ht'⟩ := hc sp' hsp'
    refine ⟨t', ?_⟩
    rw [Function.update_of_ne ?_]
    · exact ht'
    · intro heq
      rw [heq] at ht'
      exact hsame (hold sp' _ ht')

theorem Does.claimed (hc : Claimed s.point s.status) (hd : Does g nid ls runs s e s') :
    Claimed s'.point s'.status := by
  cases hd with
  | allocs | frees | store | reuse => exact hc
  | noRoom idle =>
    apply hc.goto
    simp [idle, Point.claim]
  | noPages point =>
    apply hc.goto
    simp [point, Point.claim]
  | newPage point =>
    apply hc.update
    · simp [point, Point.claim]
    · exact fun _ => rfl
  | addPage point =>
    apply hc.update
    · simp [point, Point.claim, eq_comm]
    · simp
  | empties idle =>
    apply hc.update
    · simp [idle, Point.claim]
    · exact fun _ => rfl
  | freePages point =>
    apply hc.update
    · simp [point, Point.claim, eq_comm]
    · simp

end Claimed

variable [DecidableEq τ]

/-- `slob_free` takes the page out of the heap exactly when it frees the last live block of it. -/
theorem free_step {t : τ} (hl : Layout g s.heap s.status s.live ls runs) (nid : ℕ → ℕ)
    (hidle : s.point t = .idle) (hmem : b ∈ s.live) :
    ∃ h, (LastOnPage g s.live b ∧ step g nid s (.free t b) =
        some ((State.goto { s with heap := h, live := s.live.erase b } t
          (.pageEmpty (g.pageOf b.start))).setStatus (g.pageOf b.start) .leaving)) ∨
      (¬ LastOnPage g s.live b ∧
        step g nid s (.free t b) = some { s with heap := h, live := s.live.erase b }) := by
  have hl' := hl.perm (List.perm_cons_erase hmem)
  rw [step, if_pos ⟨hidle, hmem⟩]
  rcases hl.slobFree_eq hmem with ⟨hsize, hfree⟩ | ⟨hsize, h, xs, hfree, -⟩
  · rw [hfree]
    exact ⟨_, .inl ⟨hl'.no_others rfl hsize, rfl⟩⟩
  · rw [hfree]
    exact ⟨h, .inr ⟨fun hlast => hsize (hl'.size_of_last hlast), rfl⟩⟩

theorem Occupied.step (hi : Invariant g s) (ho : Occupied g s) (hs : step g nid s e = some s') :
    Occupied g s' := by
  obtain ⟨ls, runs, hl⟩ := hi.layout
  have hchange : ∀ {sp st}, st ≠ .heap → ∀ p, Function.update s.status sp st p = .heap →
      p ≠ sp ∧ s.status p = .heap := by
    intro sp st hst p hp
    by_cases hsame : p = sp
    · subst hsame
      rw [Function.update_self] at hp
      exact absurd hp hst
    · rw [Function.update_of_ne hsame] at hp
      exact ⟨hsame, hp⟩
  cases step_does hl hi.newPage hs with
  | allocs =>
    intro p hp
    obtain ⟨b, hb, hpage⟩ := ho p hp
    exact ⟨b, List.mem_cons_of_mem _ hb, hpage⟩
  | noRoom | noPages | store | reuse => exact ho
  | newPage => exact fun p hp => ho p (hchange (by decide) p hp).2
  | freePages => exact fun p hp => ho p (hchange (by decide) p hp).2
  | @addPage t r sp h xs =>
    intro p hp
    by_cases hsame : p = sp
    · subst hsame
      refine ⟨_, List.mem_cons_self, Config.pageOf_eq le_rfl ?_⟩
      rw [Nat.succ_mul]
      exact Nat.lt_add_of_pos_right g.pageUnits_pos
    · change Function.update s.status sp .heap p = .heap at hp
      rw [Function.update_of_ne hsame] at hp
      obtain ⟨b, hb, hpage⟩ := ho p hp
      exact ⟨b, List.mem_cons_of_mem _ hb, hpage⟩
  | @frees t b sp h xs idle live =>
    obtain ⟨h, ⟨-, hstep⟩ | ⟨hothers, -⟩⟩ := free_step hl nid idle live
    · have hstatus := congrArg (fun s => s.status (g.pageOf b.start))
        (Option.some.inj (hs.symm.trans hstep))
      have hheap : s.status (g.pageOf b.start) = .leaving :=
        hstatus.trans (Function.update_self ..)
      rw [(hl.placed b live).onHeap] at hheap
      cases hheap
    · intro p hp
      obtain ⟨b₀, hb₀, hpage⟩ := ho p hp
      by_cases hsame : b₀ = b
      · subst hsame
        simp only [LastOnPage, not_forall, not_not] at hothers
        obtain ⟨b', hb', hpage'⟩ := hothers
        exact ⟨b', hb', hpage'.trans hpage⟩
      · exact ⟨b₀, (List.mem_erase_of_ne hsame).mpr hb₀, hpage⟩
  | @empties t b sp idle live page =>
    intro p hp
    obtain ⟨hne, hheap⟩ := hchange (by decide) p hp
    obtain ⟨b₀, hb₀, hpage⟩ := ho p hheap
    refine ⟨b₀, (List.mem_erase_of_ne ?_).mpr hb₀, hpage⟩
    intro heq
    subst heq
    exact hne (hpage.symm.trans page.symm)

/-- The pages are where they belong in every reachable state. -/
theorem occupied_and_claimed (hs : (machine g nid).Reachable s) :
    Occupied g s ∧ Claimed s.point s.status := by
  have hall := hs.invariant
    (I := fun s => Invariant g s ∧ Occupied g s ∧ Claimed s.point s.status) ?_ ?_
  · exact hall.2
  · intro s hs
    refine ⟨.of_emptyHeap hs, fun sp hsp => ?_, fun sp hsp => ?_⟩
    · rw [hs.status] at hsp
      cases hsp
    · rw [hs.status] at hsp
      rcases hsp with hsp | hsp <;> cases hsp
  · rintro s e t ⟨hi, ho, hc⟩ hstep
    obtain ⟨ls, runs, hl⟩ := hi.layout
    exact ⟨hi.step hstep, ho.step hi hstep, (step_does hl hi.newPage hstep).claimed hc⟩

/-- 1 for a page that was obtained and not given back yet. -/
def heldPages (status : ℕ → Status) (sp : ℕ) : ℕ := if status sp = .outside then 0 else 1

/-- Every step that obtains or gives back a page changes its owner. -/
theorem Does.count_pageCalls (hc : Claims s.point s.status)
    (hheap : ∀ b ∈ s.live, s.status (g.pageOf b.start) = .heap) (hd : Does g nid ls runs s e s')
    (sp : ℕ) : (pageCalls s e).count (.newPages sp) + heldPages s.status sp =
      (pageCalls s e).count (.freePages sp) + heldPages s'.status sp := by
  have hupdate : ∀ {p st}, s.status p ≠ .outside → st ≠ .outside →
      heldPages (Function.update s.status p st) sp = heldPages s.status sp := by
    intro p st hold hnew
    by_cases hsame : sp = p
    · subst hsame
      rw [heldPages, heldPages, Function.update_self, if_neg hold, if_neg hnew]
    · rw [heldPages, heldPages, Function.update_of_ne hsame]
  cases hd with
  | allocs | noRoom | noPages | frees | store | reuse => rfl
  | @newPage t r p point status =>
    by_cases hsame : sp = p
    · subst hsame
      simp [pageCalls, heldPages, State.setStatus, State.goto, status]
    · have hne : ¬ p = sp := fun h => hsame h.symm
      simp [pageCalls, heldPages, State.setStatus, State.goto, hsame, hne]
  | @addPage t r p h xs point =>
    have htaken := hc.status_eq t p .taken (by rw [point]; rfl)
    exact congrArg (0 + ·) (hupdate (by rw [htaken]; decide) (by decide)).symm
  | @empties t b p idle live page =>
    have hp := page ▸ hheap b live
    exact congrArg (0 + ·) (hupdate (by rw [hp]; decide) (by decide)).symm
  | @freePages t p point =>
    have hleaving := hc.status_eq t p .leaving (by rw [point]; rfl)
    by_cases hsame : sp = p
    · subst hsame
      simp [pageCalls, heldPages, State.setStatus, State.goto, point, hleaving]
    · have hne : ¬ p = sp := fun h => hsame h.symm
      simp [pageCalls, heldPages, State.setStatus, State.goto, point, hsame, hne]

/-- The pages are given back in order: `calls` lists the calls of the page allocator so far. -/
structure GivenBack (g : Config) (nid : ℕ → ℕ) (calls : List PageCall) (s : State τ) : Prop where
  once : ∀ sp, calls.count (.newPages sp) =
    calls.count (.freePages sp) + if s.status sp = .outside then 0 else 1
  leaves : ∀ e s', step g nid s e = some s' → ∀ sp, s.status sp = .heap → LeavesWithLast g s e s' sp
  leaving : ∀ sp, s.status sp = .leaving ↔ ∃ t, s.point t = .pageEmpty sp
  returned : ∀ t sp, s.point t = .pageEmpty sp → (∀ b ∈ s.live, g.pageOf b.start ≠ sp) ∧
    (∀ c, .lru sp ∉ listed g s.heap.links c) ∧ ∃ s', step g nid s (.freePages t) = some s' ∧
      s'.status sp = .outside ∧ (s'.heap.page sp).slab = false
  allFreed : s.live = [] →
    (∀ c, s.heap.links.listEmpty (.list c) = true) ∧ ∀ sp, s.status sp ≠ .heap
  noneHeld : s.live = [] → (∀ t, s.point t = .idle) → ∀ sp, s.status sp = .outside

theorem leaves_with_last (hi : Invariant g s) (hs : step g nid s e = some s') {sp : ℕ}
    (hsp : s.status sp = .heap) : LeavesWithLast g s e s' sp := by
  obtain ⟨ls, runs, hl⟩ := hi.layout
  have hother : ∀ {p st}, s.status p ≠ .heap → Function.update s.status p st sp = .heap := by
    intro p st hp
    rw [Function.update_of_ne ?_]
    · exact hsp
    · intro heq
      subst heq
      exact hp hsp
  have hfree : ∀ t b, e = .free t b → s.point t = .idle → b ∈ s.live →
      LeavesWithLast g s e s' sp := by
    rintro t b rfl hidle hmem
    obtain ⟨h, ⟨hlast, hstep⟩ | ⟨hothers, hstep⟩⟩ := free_step hl nid hidle hmem
    · obtain rfl := Option.some.inj (hs.symm.trans hstep)
      by_cases hpage : g.pageOf b.start = sp
      · subst hpage
        exact .inl ⟨Function.update_self .., t, b, rfl, Function.update_self .., rfl, hlast⟩
      · refine .inr ⟨(Function.update_of_ne (Ne.symm hpage) _ _).trans hsp, ?_⟩
        rintro t' b' ⟨⟩ heq
        exact absurd heq hpage
    · obtain rfl := Option.some.inj (hs.symm.trans hstep)
      refine .inr ⟨hsp, ?_⟩
      rintro t' b' ⟨⟩ -
      exact hothers
  cases step_does hl hi.newPage hs with
  | allocs | noRoom | noPages | store | reuse => exact .inr ⟨hsp, nofun⟩
  | newPage point status =>
    refine .inr ⟨hother ?_, nofun⟩
    rw [status]
    decide
  | @addPage t r p h xs point =>
    refine .inr ⟨hother ?_, nofun⟩
    rw [hi.claims.status_eq t p .taken (by rw [point]; rfl)]
    decide
  | @freePages t p point =>
    refine .inr ⟨hother ?_, nofun⟩
    rw [hi.claims.status_eq t p .leaving (by rw [point]; rfl)]
    decide
  | frees idle live => exact hfree _ _ rfl idle live
  | empties idle live => exact hfree _ _ rfl idle live

theorem count_pageCalls {s₀ : State τ} {es : List (Event τ)} (hs₀ : EmptyHeap s₀)
    (hr : (machine g nid).run s₀ es = some s) (sp : ℕ) :
    ((machine g nid).trace pageCalls s₀ es).count (.newPages sp) =
      ((machine g nid).trace pageCalls s₀ es).count (.freePages sp) + heldPages s.status sp := by
  have hcount : ((machine g nid).trace pageCalls s₀ es).count (.newPages sp) +
        heldPages s₀.status sp =
      ((machine g nid).trace pageCalls s₀ es).count (.freePages sp) + heldPages s.status sp := by
    apply Machine.trace_count (I := Invariant g) (f := fun s => heldPages s.status sp) _ _
      (.of_emptyHeap hs₀) hr
    · intro s e t hi hstep
      exact hi.step hstep
    · intro s e t hi hstep
      obtain ⟨ls, runs, hl⟩ := hi.layout
      exact (step_does hl hi.newPage hstep).count_pageCalls hi.claims
        (fun b hb => (hl.placed b hb).onHeap) sp
  simpa [heldPages, hs₀.status] using hcount

omit [DecidableEq τ] in
theorem leaving_iff (hi : Invariant g s) (hc : Claimed s.point s.status) (sp : ℕ) :
    s.status sp = .leaving ↔ ∃ t, s.point t = .pageEmpty sp := by
  constructor
  · intro hsp
    obtain ⟨t, ht⟩ := hc sp (.inr hsp)
    rw [hsp] at ht
    cases hpoint : s.point t with
    | idle | noRoom | newPage => simp [hpoint, Point.claim] at ht
    | pageEmpty p =>
      simp only [hpoint, Point.claim, Option.some.injEq, Prod.mk.injEq, and_true] at ht
      exact ⟨t, by rw [hpoint, ht]⟩
  · rintro ⟨t, ht⟩
    apply hi.claims.status_eq t sp .leaving
    rw [ht]
    rfl

/-- A page outside the heap is on no partial list. -/
theorem Layout.notMem_listed (hl : Layout g h status live ls runs) {sp : ℕ} (hsp : status sp ≠ .heap)
    (c : SizeClass) : .lru sp ∉ listed g h.links c := by
  intro hmem
  rw [hl.listed_eq] at hmem
  obtain ⟨p, hp, hlru⟩ := List.mem_map.mp hmem
  obtain rfl := Entry.lru.inj hlru
  exact hsp (hl.heap_of_mem hp)

theorem Layout.listEmpty (hl : Layout g h status live ls runs) (hnone : ∀ sp, status sp ≠ .heap)
    (c : SizeClass) : h.links.listEmpty (.list c) = true := by
  rw [Links.listEmpty, decide_eq_true_iff, (hl.lists.ring c).empty_iff, List.map_eq_nil_iff]
  apply List.eq_nil_iff_forall_not_mem.mpr
  intro sp hsp
  exact hnone sp (hl.heap_of_mem hsp)

/-- A page that a call obtains is given back exactly once, by the call that frees its last live block. -/
theorem pages_given_back {s₀ : State τ} {es : List (Event τ)} (hs₀ : EmptyHeap s₀)
    (hr : (machine g nid).run s₀ es = some s) :
    GivenBack g nid ((machine g nid).trace pageCalls s₀ es) s := by
  have hs : (machine g nid).Reachable s := ⟨s₀, es, hs₀, hr⟩
  have hi := invariant hs
  obtain ⟨ho, hc⟩ := occupied_and_claimed hs
  obtain ⟨ls, runs, hl⟩ := hi.layout
  have hnone : s.live = [] → ∀ sp, s.status sp ≠ .heap := by
    intro hlive sp hsp
    obtain ⟨b, hb, -⟩ := ho sp hsp
    rw [hlive] at hb
    exact List.not_mem_nil hb
  refine ⟨fun sp => count_pageCalls hs₀ hr sp, fun e s' hstep sp hsp => leaves_with_last hi hstep hsp,
    fun sp => leaving_iff hi hc sp, fun t sp ht => ?_, fun hlive => ⟨hl.listEmpty (hnone hlive), hnone hlive⟩,
    fun hlive hidle sp => ?_⟩
  · have hst := (leaving_iff hi hc sp).mpr ⟨t, ht⟩
    have hout : s.status sp ≠ .heap := by
      rw [hst]
      decide
    refine ⟨fun b hb hpage => ?_, hl.notMem_listed hout, _, by rw [step, ht],
      Function.update_self .., ?_⟩
    · exact hout (hpage ▸ (hl.placed b hb).onHeap)
    · simp [Heap.setSlab, Heap.setPage]
  · have hunclaimed : ¬ (s.status sp = .taken ∨ s.status sp = .leaving) := by
      intro hsp
      obtain ⟨t, ht⟩ := hc sp hsp
      rw [hidle t] at ht
      cases ht
    have hheap := hnone hlive sp
    cases hst : s.status sp <;> simp_all

/-- Two blocks share a page, which is given back when both of them are free. -/
theorem page_given_back : ∃ s, (machine smallConfig fun _ => 0).run emptyState
      [.alloc 0 ⟨100, 0, none⟩, .newPages 0 (some 2), .addPage 0, .alloc 1 ⟨7, 64, none⟩,
        .free 0 ⟨4096, 100, 0⟩, .free 0 ⟨4160, 7, 64⟩, .freePages 0] = some s ∧
    s.live = [] ∧ s.status 2 = .outside ∧
    GivenBack smallConfig (fun _ => 0) [.newPages 2, .freePages 2] s := by
  obtain ⟨s, hr, hlive, hstatus⟩ : ∃ s, (machine smallConfig fun _ => 0).run emptyState
        [.alloc 0 ⟨100, 0, none⟩, .newPages 0 (some 2), .addPage 0, .alloc 1 ⟨7, 64, none⟩,
          .free 0 ⟨4096, 100, 0⟩, .free 0 ⟨4160, 7, 64⟩, .freePages 0] = some s ∧
      s.live = [] ∧ s.status 2 = .outside := ⟨_, rfl, rfl, rfl⟩
  exact ⟨s, hr, hlive, hstatus, pages_given_back emptyState_emptyHeap hr⟩

end OperatingSystems.Slob
