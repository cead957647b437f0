import OperatingSystems.Slob.Lists

namespace OperatingSystems.Slob

open Library

variable {g : Config} {nid : ℕ → ℕ} {h h' : Heap} {ls : SizeClass → List ℕ}
  {runs : ℕ → List (ℕ × ℕ)} {sp size align : ℕ} {xs : List (ℕ × ℕ)} {r : Request}

/-- The pages that a call may allocate from. -/
def Eligible (nid : ℕ → ℕ) (r : Request) (sp : ℕ) : Prop := ∀ n, r.node = some n → n = nid sp

/-- No free block of the page has room for the request. -/
def NoRoom (g : Config) (r : Request) (xs : List (ℕ × ℕ)) : Prop :=
  ∀ x ∈ xs, slack g (g.unitsOf r.size) r.align x < 0

theorem slobPageAlloc_null (hnull : slobPageAlloc g h sp size align = some (h', none)) : h' = h := by
  rw [slobPageAlloc, Option.map_eq_some_iff] at hnull
  obtain ⟨best, -, hbest⟩ := hnull
  cases best with
  | none => exact (Prod.mk.inj hbest).1.symm
  | some b => exact absurd (Prod.mk.inj hbest).2 (Option.some_ne_none _)

/-- The search changes nothing before it has found a page. -/
theorem searchBody_next {w w' : Search} {e : Entry} (hnext : searchBody g nid r w e = .next w') :
    w' = w := by
  cases e with
  | lru sp =>
    rw [searchBody] at hnext
    split_ifs at hnext
    · exact (Links.Flow.next.inj hnext).symm
    · exact (Links.Flow.next.inj hnext).symm
    · split at hnext
      · cases hnext
      · rename_i heap hnull
        rw [← Links.Flow.next.inj hnext, slobPageAlloc_null hnull]
      · cases hnext
  | list c => cases hnext
  | poison1 => cases hnext
  | poison2 => cases hnext

theorem any_ne_iff : r.node.any (· ≠ nid sp) = true ↔ ¬ Eligible nid r sp := by
  cases hn : r.node <;> simp [Eligible, hn]

/-- What the search does with a page. -/
theorem searchBody_spec (nid : ℕ → ℕ) (w : Search) (hm : Manages g w.heap sp xs) (hne : xs ≠ [])
    (hsize : 0 < r.size) :
    (searchBody g nid r w (.lru sp) = .next w ∧ (Eligible nid r sp → NoRoom g r xs)) ∨
    (Eligible nid r sp ∧ ∃ h₁ b, Served g sp r.size r.align xs w.heap h₁ b ∧
      searchBody g nid r w (.lru sp) = .done { w with
        heap := { h₁ with links := rotated h₁.links (slobList r.size) (w.heap.links.prev (.lru sp)) }
        b := some b }) := by
  rw [searchBody]
  by_cases helig : Eligible nid r sp
  swap
  · rw [if_pos (any_ne_iff.mpr helig)]
    exact .inl ⟨rfl, fun he => absurd he helig⟩
  rw [if_neg (any_ne_iff.not.mpr (not_not.mpr helig))]
  by_cases hfew : (w.heap.page sp).units < g.unitsOf r.size
  · rw [if_pos hfew]
    refine .inl ⟨rfl, fun _ x hx => ?_⟩
    have hle : x.2 ≤ runsSize xs := by
      obtain ⟨ys, zs, rfl⟩ := List.append_of_mem hx
      simp only [runsSize_append, runsSize_cons]
      omega
    rw [hm.units] at hfew
    rw [slack]
    omega
  rw [if_neg hfew]
  rcases slobPageAlloc_spec hm hne hsize with ⟨hnull, hnone⟩ | ⟨h₁, b, halloc, hserved⟩
  · rw [hnull]
    exact .inl ⟨rfl, fun _ => hnone⟩
  · rw [halloc]
    exact .inr ⟨helig, h₁, b, hserved, rfl⟩

/-- The first locked section of `slob_alloc` serves the request from the first page that has room for
it, and makes the list start there; when no page has room it changes nothing. -/
theorem slobAllocSearch_spec (nid : ℕ → ℕ) (hl : PartialLists h.links ls)
    (hlen : (ls (slobList r.size)).length ≤ g.frames)
    (hpages : ∀ sp ∈ ls (slobList r.size), Manages g h sp (runs sp) ∧ runs sp ≠ [])
    (hsize : 0 < r.size) (halign : ValidAlign r.align) :
    (slobAllocSearch g nid h r = some (h, none) ∧
      ∀ sp ∈ ls (slobList r.size), Eligible nid r sp → NoRoom g r (runs sp)) ∨
    ∃ sp as bs h₁ links b xs', ls (slobList r.size) = as ++ sp :: bs ∧ Eligible nid r sp ∧
      (∀ sp' ∈ as, Eligible nid r sp' → NoRoom g r (runs sp')) ∧
      Served g sp r.size r.align (runs sp) h h₁ b ∧
      Takes g sp b (g.unitsOf r.size) (runs sp) xs' h h₁ ∧
      slobAllocSearch g nid h r = some ({ h₁ with links := links }, some b) ∧
      PartialLists links (Function.update ls (slobList r.size)
        (if xs' = [] then bs ++ as else sp :: bs ++ as)) := by
  obtain ⟨c, hc⟩ : ∃ c, c = slobList r.size := ⟨_, rfl⟩
  obtain ⟨w, hw⟩ : ∃ w : Search, w = ⟨h, none, false⟩ := ⟨_, rfl⟩
  have hheap : w.heap = h := by rw [hw]
  have hloop : Links.listForEach (fun w : Search => w.heap.links) (.list c) (searchBody g nid r)
      (g.frames + 1) (h.links.next (.list c)) w =
        some (Links.scan (.list c) (searchBody g nid r) ((ls c).map .lru) w) := by
    refine (hl.ring c).forEach (by rw [hw]) (fun s x s' hs hb => ?_) ?_
    · rw [searchBody_next hb]
      exact hs
    · rw [List.length_map, hc]
      omega
  have hsearch : ∀ pos w', Links.scan (.list c) (searchBody g nid r) ((ls c).map .lru) w = (pos, w') →
      w'.hangs = false → slobAllocSearch g nid h r = some (w'.heap, w'.b) := by
    intro pos w' hscan hhangs
    rw [hscan] at hloop
    simp only [slobAllocSearch, ← hc, ← hw, hloop, Option.bind_some, hhangs]
    rfl
  rw [← hc] at hpages ⊢
  have hbody := fun sp hsp => searchBody_spec nid w (hheap.symm ▸ (hpages sp hsp).1) (hpages sp hsp).2
    hsize
  rw [hheap] at hbody
  have hkeep : ∀ e ∈ (ls c).map Entry.lru, ∀ w', searchBody g nid r w e = .next w' → w' = w :=
    fun _ _ _ => searchBody_next
  rcases Links.scan_search hkeep with ⟨hall, hscan⟩ | ⟨es, e, fs, w', hsplit, hes, hdone, hscan⟩
  · refine .inl ⟨?_, fun sp hsp helig => ?_⟩
    · rw [hsearch _ _ hscan (by rw [hw]), hw]
    · rcases hbody sp hsp with ⟨-, hnone⟩ | ⟨-, h₁, b, -, hdone⟩
      · exact hnone helig
      · exact absurd ((hall _ (List.mem_map_of_mem hsp)).symm.trans hdone) nofun
  · obtain ⟨as, rest, hrest, rfl, hmap⟩ := List.map_eq_append_iff.mp hsplit
    obtain ⟨sp, bs, rfl, rfl, rfl⟩ := List.map_eq_cons_iff.mp hmap
    have hsp : sp ∈ ls c := by rw [hrest]; simp
    rcases hbody sp hsp with ⟨hnext, -⟩ | ⟨helig, h₁, b, hserved, hdone'⟩
    · exact absurd (hnext.symm.trans hdone) nofun
    obtain rfl := Links.Flow.done.inj (hdone.symm.trans hdone')
    obtain ⟨⟨xs', htakes⟩, -⟩ := hserved.takes (hpages sp hsp).1 hsize halign
    refine .inr ⟨sp, as, bs, h₁, _, b, xs', hrest, helig, fun sp' hsp' helig' => ?_, hserved, htakes,
      hsearch _ _ hscan (by rw [hw]), ?_⟩
    · rcases hbody sp' (hrest ▸ List.mem_append_left _ hsp') with ⟨-, hnone⟩ | ⟨-, h₂, b₂, -, hdone⟩
      · exact hnone helig'
      · exact absurd ((hes _ (List.mem_map_of_mem hsp')).symm.trans hdone) nofun
    · have hring := hl.ring c
      rw [hrest, List.map_append, List.map_cons] at hring
      have hprev := (Links.path_append.mp hring.path).1.last
      rw [htakes.links, ← hc]
      split_ifs with hnil
      · have hdel := (hl.listDel hrest).rotate (Function.update_self ..) hprev
        rwa [Function.update_idem] at hdel
      · exact hl.rotate hrest hprev

/-- The start of a page has every alignment that a caller may ask for. -/
theorem dvd_base (halign : ValidAlign align) (hle : align ≤ g.pageSize) (hne : align ≠ 0) :
    align ∣ sp * g.pageUnits * g.slobUnit := by
  obtain ⟨-, hpage, -⟩ := g.sizes
  obtain ⟨k, rfl⟩ := halign.resolve_left hne
  rw [Nat.mul_assoc, hpage]
  exact Dvd.dvd.mul_left (pow_dvd_pow 2 ((Nat.pow_le_pow_iff_right Nat.one_lt_two).mp hle)) sp

/-- The new page is one free block, and it is the first on its list. -/
theorem addPage_spec (hl : PartialLists h.links ls) (hsp : ∀ c, sp ∉ ls c) (c : SizeClass) :
    Manages g (addPage g h sp c) sp [(sp * g.pageUnits, g.pageUnits)] ∧
      Touches sp {u | Covers [(sp * g.pageUnits, g.pageUnits)] u} h (addPage g h sp c) ∧
      PartialLists (addPage g h sp c).links (Function.update ls c (sp :: ls c)) := by
  obtain ⟨b, hb⟩ : ∃ b, b = sp * g.pageUnits := ⟨_, rfl⟩
  have hpos := g.pageUnits_pos
  have hend : (sp + 1) * g.pageUnits = b + g.pageUnits := by rw [hb, Nat.succ_mul]
  have hbase : g.base b = b := by
    rw [Config.base_eq hb.ge (by omega), hb]
  obtain ⟨henc, hin⟩ := setSlob_spec (g := g) (m := h.mem) (a := b) hpos le_rfl (by rw [hbase])
  rw [addPage, ← hb]
  refine ⟨⟨⟨⟨hb.ge, hpos, hend.ge⟩, trivial⟩, ?_, ?_, fun _ => ?_⟩,
    ⟨hin.mono fun u hu => ⟨(b, g.pageUnits), List.mem_cons_self, hu⟩, fun p hp => ?_, ?_⟩, ?_⟩
  · simp [Heap.setSlobPageFree, Heap.setSlob, Heap.setPage]
  · simp [Heap.setSlobPageFree, Heap.setSlob, Heap.setPage]
  · rw [hend]
    refine ⟨?_, _, henc, rfl⟩
    simp [Heap.setSlobPageFree, Heap.setSlob, Heap.setPage]
  · simp [Heap.setSlobPageFree, Heap.setSlob, Heap.setPage, hp]
  · simp [Heap.setSlobPageFree, Heap.setSlob, Heap.setPage]
  · exact (hl.other hsp Links.initListHead_sameOutside).listAdd hsp

/-- The second locked section serves the request from the start of the new page, so that `BUG_ON`
does not fire. -/
theorem slobAllocNew_spec (hl : PartialLists h.links ls) (hsp : ∀ c, sp ∉ ls c) (hsize : 0 < r.size)
    (hlt : r.size < g.pageSize) (halign : ValidAlign r.align) (hle : r.align ≤ g.pageSize) :
    ∃ h' xs', slobAllocNew g h sp r = some (h', sp * g.pageUnits) ∧ Manages g h' sp xs' ∧
      (∀ u, Covers xs' u ↔ Covers [(sp * g.pageUnits, g.pageUnits)] u ∧
        ¬ (sp * g.pageUnits ≤ u ∧ u < sp * g.pageUnits + g.unitsOf r.size)) ∧
      Touches sp {u | Covers [(sp * g.pageUnits, g.pageUnits)] u} h h' ∧
      PartialLists h'.links (Function.update ls (slobList r.size)
        (if xs' = [] then ls (slobList r.size) else sp :: ls (slobList r.size))) := by
  obtain ⟨c, hc⟩ : ∃ c, c = slobList r.size := ⟨_, rfl⟩
  obtain ⟨hm, ht, hl₁⟩ := addPage_spec (g := g) hl hsp c
  obtain ⟨h₁, hh₁⟩ : ∃ h₁, h₁ = addPage g h sp c := ⟨_, rfl⟩
  obtain ⟨b, hb⟩ : ∃ b, b = sp * g.pageUnits := ⟨_, rfl⟩
  rw [← hh₁] at hm ht hl₁
  rw [← hb] at hm ht ⊢
  have hdelta : (alignBlock g r.align b).2 = 0 := by
    rcases Nat.eq_zero_or_pos r.align with hzero | hne
    · rw [hzero, alignBlock, if_pos rfl]
    · refine Nat.le_zero.mp ((alignBlock_spec halign).2.2 0 ?_)
      exact hb ▸ dvd_base halign hle hne.ne'
  have hunits : g.unitsOf r.size ≤ g.pageUnits := Nat.div_le_div_right (by omega)
  rcases slobPageAlloc_spec hm (List.cons_ne_nil _ _) hsize with
    ⟨-, hnone⟩ | ⟨h', b', halloc, hserved⟩
  · have hslack := hnone _ List.mem_cons_self
    rw [slack, hdelta] at hslack
    simp only at hslack
    omega
  · obtain ⟨⟨xs', htakes⟩, -⟩ := hserved.takes hm hsize halign
    obtain ⟨ys, x, zs, d, hsplit, hd, hb', -⟩ := hserved
    have hx : x ∈ [(b, g.pageUnits)] := by rw [hsplit]; simp
    rw [List.mem_singleton] at hx
    subst hx
    rw [hdelta] at hd
    subst hd
    simp only [Nat.add_zero] at hb'
    subst hb'
    refine ⟨h', xs', ?_, htakes.manages, htakes.covers, ht.trans htakes.touches, ?_⟩
    · rw [slobAllocNew, ← hc, ← hh₁, halloc]
      rfl
    · rw [htakes.links, ← hc]
      split_ifs with hnil
      · have hfirst : Function.update ls c (sp :: ls c) c = [] ++ sp :: ls c := Function.update_self ..
        have hdel := hl₁.listDel hfirst
        rwa [Function.update_idem] at hdel
      · exact hl₁

end OperatingSystems.Slob
