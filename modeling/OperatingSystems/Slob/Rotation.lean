import OperatingSystems.Slob.BestFit

namespace OperatingSystems.Slob

open Library

variable {g : Config} {nid : ℕ → ℕ} {h h₁ : Heap} {ls : SizeClass → List ℕ} {r : Request}
  {sp units size align b : ℕ} {as bs : List ℕ}

@[simp] theorem Heap.linkAfter_links (h : Heap) (g : Config) (sp : ℕ) (prev : Option ℕ) (next : ℕ) :
    (h.linkAfter g sp prev next).links = h.links := by
  cases prev <;> rfl

theorem splitHead_links (h : Heap) (best : BestFit) : (splitHead g h best).1.links = h.links := by
  rw [splitHead]
  split_ifs <;> rfl

/-- Only a page that has become full is unlinked. -/
theorem takeUnits_links (h : Heap) (best : BestFit) :
    (takeUnits g h sp units best).1.links =
      if ((takeUnits g h sp units best).1.page sp).units = 0 then
        h.links.listDel (.lru sp) .poison1 .poison2
      else h.links := by
  rw [← splitHead_links (g := g) h best, takeUnits]
  obtain ⟨⟨h', prev, cur, avail⟩, hsplit⟩ : ∃ x, x = splitHead g h best := ⟨_, rfl⟩
  rw [← hsplit]
  obtain ⟨h₂, hh₂⟩ : ∃ h₂, h₂ = (if avail = units then
      h'.linkAfter g sp prev (slobNext g h'.mem.cell cur)
    else (h'.linkAfter g sp prev (cur + units)).setSlob g (cur + units) (avail - units)
      (slobNext g h'.mem.cell cur)) := ⟨_, rfl⟩
  have hlinks : h₂.links = h'.links := by
    rw [hh₂]
    split_ifs
    · exact h'.linkAfter_links ..
    · exact h'.linkAfter_links ..
  simp only [← hh₂, ← hlinks]
  split_ifs with hzero hclear
  · rfl
  · exact absurd (by simpa [Heap.clearSlobPageFree, Heap.setPage] using hzero) hclear
  · rfl

theorem slobPageAlloc_links (halloc : slobPageAlloc g h sp size align = some (h₁, some b)) :
    h₁.links = if (h₁.page sp).units = 0 then h.links.listDel (.lru sp) .poison1 .poison2
      else h.links := by
  rw [slobPageAlloc, Option.map_eq_some_iff] at halloc
  obtain ⟨best, -, hbest⟩ := halloc
  cases best with
  | none => exact absurd (Prod.mk.inj hbest).2.symm (Option.some_ne_none _)
  | some best =>
    obtain ⟨rfl, -⟩ := Prod.mk.inj hbest
    exact takeUnits_links h best

/-- The search goes on behind the page `sp`: it may not be used, it has too few free units, or none of
its free blocks has room. -/
def PassedOver (g : Config) (nid : ℕ → ℕ) (h : Heap) (r : Request) (sp : ℕ) : Prop :=
  ¬ Eligible nid r sp ∨ (h.page sp).units < g.unitsOf r.size ∨
    slobPageAlloc g h sp r.size r.align = some (h, none)

theorem PassedOver.searchBody_eq (hp : PassedOver g nid h r sp) :
    searchBody g nid r ⟨h, none, false⟩ (.lru sp) = .next ⟨h, none, false⟩ := by
  rw [searchBody]
  by_cases helig : Eligible nid r sp
  · rw [if_neg (any_ne_iff.not.mpr (not_not.mpr helig))]
    by_cases hfew : (h.page sp).units < g.unitsOf r.size
    · rw [if_pos hfew]
    · have hnull := (hp.resolve_left (not_not.mpr helig)).resolve_left hfew
      rw [if_neg hfew, hnull]
  · rw [if_pos (any_ne_iff.mpr helig)]

/-- When a request is served from the page `sp` of a partial list, the list starts afterwards at `sp`,
or behind it when it has become full, and goes round once; the other lists are as they were. -/
theorem list_rotates (hl : PartialLists h.links ls)
    (hframes : ∀ p ∈ ls (slobList r.size), p < g.frames)
    (hlist : ls (slobList r.size) = as ++ sp :: bs) (hbefore : ∀ p ∈ as, PassedOver g nid h r p)
    (helig : Eligible nid r sp) (hunits : g.unitsOf r.size ≤ (h.page sp).units)
    (halloc : slobPageAlloc g h sp r.size r.align = some (h₁, some b)) :
    ∃ links, slobAllocSearch g nid h r = some ({ h₁ with links := links }, some b) ∧
      PartialLists links (Function.update ls (slobList r.size)
        (if (h₁.page sp).units = 0 then bs ++ as else sp :: bs ++ as)) := by
  obtain ⟨c, hc⟩ : ∃ c, c = slobList r.size := ⟨_, rfl⟩
  obtain ⟨w, hw⟩ : ∃ w : Search, w = ⟨h, none, false⟩ := ⟨_, rfl⟩
  rw [← hc] at hframes hlist ⊢
  have hserved : searchBody g nid r w (.lru sp) = .done { w with
      heap := { h₁ with links := rotated h₁.links c (h.links.prev (.lru sp)) }, b := some b } := by
    rw [hw, searchBody, if_neg (any_ne_iff.not.mpr (not_not.mpr helig)), if_neg (not_lt.mpr hunits),
      halloc, hc]
    rfl
  have hscan : Links.scan (.list c) (searchBody g nid r) ((ls c).map .lru) w = (.lru sp, { w with
      heap := { h₁ with links := rotated h₁.links c (h.links.prev (.lru sp)) }, b := some b }) := by
    rw [hlist, List.map_append, Links.scan_append, List.map_cons, Links.scan, hserved]
    intro e he
    obtain ⟨p, hp, rfl⟩ := List.mem_map.mp he
    rw [hw]
    exact (hbefore p hp).searchBody_eq
  have hloop : Links.listForEach (fun w : Search => w.heap.links) (.list c) (searchBody g nid r)
      (g.frames + 1) (h.links.next (.list c)) w =
        some (Links.scan (.list c) (searchBody g nid r) ((ls c).map .lru) w) := by
    refine (hl.ring c).forEach (by rw [hw]) (fun s x s' hs hb => ?_) ?_
    · rw [searchBody_next hb]
      exact hs
    · rw [List.length_map]
      exact Nat.lt_succ_of_le (hl.length_le hframes)
  refine ⟨rotated h₁.links c (h.links.prev (.lru sp)), ?_, ?_⟩
  · rw [slobAllocSearch, ← hc, ← hw, hloop, hscan, hw]
    rfl
  · have hring := hl.ring c
    rw [hlist, List.map_append, List.map_cons] at hring
    have hprev := (Links.path_append.mp hring.path).1.last
    rw [slobPageAlloc_links halloc]
    split_ifs with hfull
    · have hdel := (hl.listDel hlist).rotate (Function.update_self ..) hprev
      rwa [Function.update_idem] at hdel
    · exact hl.rotate hlist hprev

/-- The second of two pages becomes full, and the first one stays. -/
theorem list_rotates_past_full_page : ∃ (s : State ℕ) (h' : Heap) (links : Links Entry)
    (ls : SizeClass → List ℕ),
    (machine smallConfig id).run emptyState twoPages = some s ∧
      ls .large = [2, 1] ∧ PartialLists s.heap.links ls ∧
      slobAllocSearch smallConfig id s.heap ⟨1096, 0, some 1⟩ =
        some ({ h' with links := links }, some 3548) ∧ (h'.page 1).units = 0 ∧
      PartialLists links (Function.update ls .large [2]) := by
  obtain ⟨s, hr, hpages, h', halloc, hfull, hunits⟩ : ∃ s,
      (machine smallConfig id).run emptyState twoPages = some s ∧
        pagesOf smallConfig s.heap .large = [2, 1] ∧ ∃ h',
      slobPageAlloc smallConfig s.heap 1 1096 0 = some (h', some 3548) ∧ (h'.page 1).units = 0 ∧
        (smallConfig.unitsOf 1096 : ℤ) ≤ (s.heap.page 1).units :=
    ⟨_, rfl, rfl, _, rfl, by decide +kernel, by decide +kernel⟩
  obtain ⟨ls, runs, hl⟩ := (invariant ⟨emptyState, _, emptyState_emptyHeap, hr⟩).layout
  rw [hl.pagesOf_eq] at hpages
  have hframes : ∀ p ∈ ls .large, p < smallConfig.frames := by
    rw [hpages]
    decide
  have hlist : ls .large = [2] ++ 1 :: [] := hpages
  have hbefore : ∀ p ∈ [2], PassedOver smallConfig id s.heap ⟨1096, 0, some 1⟩ p := by
    intro p hp
    obtain rfl := List.mem_singleton.mp hp
    exact .inl fun helig => absurd (helig 1 rfl) (by decide)
  have helig : Eligible id ⟨1096, 0, some 1⟩ 1 := fun n hn => (Option.some.inj hn).symm
  obtain ⟨links, hsearch, hlists⟩ :=
    list_rotates (r := ⟨1096, 0, some 1⟩) hl.lists hframes hlist hbefore helig hunits halloc
  rw [if_pos hfull] at hlists
  exact ⟨s, h', links, ls, hr, hpages, hl.lists, hsearch, hfull, hlists⟩

end OperatingSystems.Slob
