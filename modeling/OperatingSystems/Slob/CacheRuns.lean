import OperatingSystems.Slob.CacheFrees

namespace OperatingSystems.Slob

open Library

variable {τ : Type*} [DecidableEq τ] {g : Config} {nid : ℕ → ℕ} {w : PointerSize} {s s' : Caches τ}
  {o : Object} {t : τ} {x : Object × Stage τ} {c : Cache} {b : Block}

namespace Kept

section Steps

variable (hk : Kept g w s)
include hk

omit [DecidableEq τ] in
/-- A thread that is about to free a block is between the calls of the heap, and the block is live. -/
theorem free_ready (hcall : s.call t = .free b) : s.slob.point t = .idle ∧ b ∈ s.slob.live := by
  have hfits := hk.calls t
  rw [hcall] at hfits
  obtain ⟨hpoint, o, hmem, rfl⟩ := hfits
  have hfits : (Stage.leaving t).Fits g w s o := hk.stages _ hmem
  have hres : o.Reserved g s.slob.live s.held := hk.reserved _ hmem
  rw [Object.Reserved, if_pos hfits.2] at hres
  exact ⟨hpoint, hres⟩

theorem slobFree (hs : s.step g nid w (.slobFree t) = some s') : Kept g w s' := by
  cases hcall : s.call t with
  | free b =>
    simp only [Caches.step, hcall] at hs
    obtain ⟨hidle, hlive⟩ := hk.free_ready hcall
    rw [State.slobFree_eq nid hidle hlive] at hs
    obtain ⟨slob, hslob, rfl⟩ := Option.map_eq_some_iff.mp hs
    have hfits := hk.calls t
    rw [hcall] at hfits
    obtain ⟨-, o, hmem, hblock⟩ := hfits
    have hsub : s.objects.filter (fun x => x.2 ≠ .leaving t) ⊆ s.objects :=
      List.filter_sublist.subset
    have hne : ∀ x ∈ s.objects.filter (fun x => x.2 ≠ .leaving t), x ≠ (o, .leaving t) := by
      rintro x hx rfl
      simp at hx
    obtain ⟨hinv, hout, hpoint, hobjects⟩ := hk.heap_step _ hslob hsub
      (fun b' hb' x hx => by
        obtain rfl : b = b' := by simpa [Event.freed] using hb'
        rw [← hblock]
        exact hk.block_ne (hsub hx) hmem (hne x hx))
      (by simp [Event.page]) (by simp [Event.stored])
    refine hk.advance (some t) hinv hout rfl (fun _ => id) (fun t' hne => ?_) (fun t' hne _ => ?_)
      (fun t' heq => ?_) (fun x hx => .inl ?_) (fun x hx t' howner hne => ?_)
      (hk.disjoint.sublist List.filter_sublist)
    · exact Function.update_of_ne (fun heq => hne (congrArg some heq.symm)) _ _
    · exact hpoint t' hne
    · obtain rfl := Option.some.inj heq
      simp only [Caches.goto, Function.update_self]
      have hgoes : slob.point t = .idle ∨ ∃ sp, slob.point t = .pageEmpty sp := by
        obtain ⟨ls, runs, hl⟩ := hk.slob.layout
        cases step_does hl hk.slob.newPage hslob with
        | frees => exact .inl hidle
        | empties => exact .inr ⟨_, Function.update_self ..⟩
      rcases hgoes with hgo | ⟨sp, hgo⟩
      · rw [if_pos hgo]
        trivial
      · rw [if_neg (by simp [hgo])]
        exact ⟨sp, hgo⟩
    · obtain ⟨hres, hcell⟩ := hobjects x hx
      refine hk.stays (hsub hx) hres (fun t' howner heq => ?_) hcell
      exact hne x hx (hk.owner_unique (hsub hx) hmem (howner.trans heq.symm) rfl)
    · refine List.mem_filter.mpr ⟨hx, ?_⟩
      have hleaving : x.2 ≠ .leaving t := by
        intro hstage
        rw [hstage] at howner
        exact hne howner
      simpa using hleaving
  | _ => simp [Caches.step, hcall] at hs

theorem freePages (hs : s.step g nid w (.freePages t) = some s') : Kept g w s' := by
  cases hcall : s.call t with
  | freeing =>
    simp only [Caches.step, hcall] at hs
    obtain ⟨slob, hslob, rfl⟩ := Option.map_eq_some_iff.mp hs
    exact hk.call_step hslob rfl rfl rfl (by simp [Event.page]) (hk.not_owner (by simp [hcall])) trivial
  | _ => simp [Caches.step, hcall] at hs

theorem readLock (hs : s.step g nid w (.readLock t) = some s') : Kept g w s' := by
  simp only [Caches.step] at hs
  split_ifs at hs
  obtain rfl := Option.some.inj hs
  exact hk.advance none hk.slob hk.outside rfl (fun _ => List.mem_cons_of_mem t) (fun _ _ => rfl)
    (fun _ _ _ => rfl) (by simp)
    (fun x hx => .inl (hk.stays hx (hk.reserved x hx) (by simp) fun _ _ => rfl)) (fun x hx _ _ _ => hx)
    hk.disjoint

theorem readUnlock (hs : s.step g nid w (.readUnlock t) = some s') : Kept g w s' := by
  simp only [Caches.step] at hs
  split_ifs at hs
  obtain rfl := Option.some.inj hs
  refine ⟨hk.slob, hk.outside, hk.caches, fun x hx => ?_, fun x hx => ?_, ?_, fun x hx => ?_,
    fun t' => ?_⟩
  · obtain ⟨y, hy, rfl⟩ := List.mem_map.mp hx
    exact hk.valid y hy
  · obtain ⟨y, hy, rfl⟩ := List.mem_map.mp hx
    exact hk.reserved y hy
  · exact List.pairwise_map.mpr hk.disjoint
  · obtain ⟨⟨o, stage⟩, hy, rfl⟩ := List.mem_map.mp hx
    have hfits : stage.Fits g w s o := hk.stages _ hy
    cases stage with
    | fresh | inUse | leaving => exact hfits
    | queued head readers =>
      obtain ⟨hrcu, hhead, hread, hsub⟩ := hfits
      exact ⟨hrcu, hhead, hread, List.filter_subset _ hsub⟩
  · have hfits := hk.calls t'
    revert hfits
    show (s.call t').Fits g w s t' → (s.call t').Fits g w _ t'
    cases s.call t' with
    | idle | alloc | freeing => exact id
    | setUp o => exact fun h => ⟨h.1, List.mem_map.mpr ⟨_, h.2, rfl⟩⟩
    | free b =>
      rintro ⟨hpoint, o, hmem, hblock⟩
      exact ⟨hpoint, o, List.mem_map.mpr ⟨_, hmem, rfl⟩, hblock⟩

theorem other {e : Event τ} (hs : s.step g nid w (.other e) = some s') : Kept g w s' := by
  simp only [Caches.step] at hs
  split_ifs at hs with hforeign
  obtain ⟨hthread, hfreed, hpage, hstored⟩ := hforeign
  obtain ⟨slob, hslob, rfl⟩ := Option.map_eq_some_iff.mp hs
  obtain ⟨hinv, hout, hpoint, hobjects⟩ := hk.heap_step s.objects hslob (fun _ => id) hfreed
    hpage hstored
  refine hk.advance none hinv hout rfl (fun _ => id) (fun _ _ => rfl) (fun t _ hcall => ?_) (by simp)
    (fun x hx => .inl ?_) (fun x hx _ _ _ => hx) hk.disjoint
  · exact hpoint t fun ht => hcall (hthread t ht)
  · obtain ⟨hres, hcell⟩ := hobjects x hx
    exact hk.stays hx hres (by simp) hcell

theorem setUp {a v : ℕ} (hs : s.step g nid w (.setUp t a v) = some s') : Kept g w s' := by
  cases hcall : s.call t with
  | setUp o =>
    simp only [Caches.step, hcall] at hs
    split_ifs at hs with hrange
    obtain rfl := Option.some.inj hs
    have hfits := hk.calls t
    rw [hcall] at hfits
    exact hk.storeByte (x := (o, .fresh t)) hfits.2 hrange.1 hrange.2 (by simp [Stage.head?])
  | _ => simp [Caches.step, hcall] at hs

theorem write {a v : ℕ} (hs : s.step g nid w (.write a v) = some s') : Kept g w s' := by
  simp only [Caches.step] at hs
  split_ifs at hs with hshared
  obtain rfl := Option.some.inj hs
  obtain ⟨⟨o, stage⟩, hx, -, hlo, hhi⟩ := hshared
  have hvalid : o.cache.Valid g w := hk.valid _ hx
  have hsize := hvalid.size_eq
  have hbelow : o.addr * g.slobUnit + o.cache.objectSize ≤ o.addr * g.slobUnit + o.cache.size := by
    omega
  refine hk.storeByte hx hlo (lt_of_lt_of_le hhi hbelow) fun head hhead => ?_
  cases stage with
  | queued head' readers =>
    obtain rfl : head' = head := Option.some.inj hhead
    have hinside := (hk.field_inside hx).1
    simp only at hhi
    omega
  | fresh | inUse | leaving => cases hhead

theorem writeHead {a v : ℕ} (hs : s.step g nid w (.writeHead a v) = some s') : Kept g w s' := by
  simp only [Caches.step] at hs
  split_ifs at hs with hqueued
  obtain rfl := Option.some.inj hs
  obtain ⟨⟨o, stage⟩, hx, head, hhead, hlo, hhi⟩ := hqueued
  cases stage with
  | queued head' readers =>
    obtain rfl : head' = head := Option.some.inj hhead
    obtain ⟨hbefore, hafter⟩ := hk.field_inside hx
    refine hk.storeByte hx ?_ ?_ fun h hh => ?_
    · simp only
      omega
    · simp only
      omega
    · obtain rfl : head' = h := Option.some.inj hh
      exact hhi
  | fresh | inUse | leaving => cases hhead

omit hk in
theorem kmemCacheCreate_valid {size align : ℕ} {destroyByRcu : Bool} (hpos : 0 < size)
    (hle : size ≤ 2 ^ 30) (halign : align = 0 ∨ 2 ^ align.log2 = align ∧ align ≤ g.pageSize) :
    (kmemCacheCreate w ⟨size, size, align, false⟩ destroyByRcu).Valid g w := by
  have hrcu : w.slobRcu ≤ 24 := by cases w <;> decide
  refine ⟨hpos, ?_, ?_, halign⟩
  · cases destroyByRcu <;> rfl
  · cases destroyByRcu
    · show size < 2 ^ 31
      omega
    · show size + w.slobRcu < 2 ^ 31
      omega

omit [DecidableEq τ] in
/-- The list of caches changes. -/
theorem recache {caches : List Cache} (hcaches : ∀ c ∈ caches, c.Valid g w) :
    Kept g w { s with caches := caches } := by
  refine ⟨hk.slob, hk.outside, hcaches, hk.valid, hk.reserved, hk.disjoint, fun x hx => ?_, fun t => ?_⟩
  · have hfits := hk.stages x hx
    revert hfits
    cases x.2 <;> exact id
  · have hfits := hk.calls t
    revert hfits
    show (s.call t).Fits g w s t → (s.call t).Fits g w _ t
    cases s.call t <;> exact id

theorem step {op : CacheOp τ} (hs : s.step g nid w op = some s') : Kept g w s' := by
  cases op with
  | create size align destroyByRcu =>
    simp only [Caches.step] at hs
    split_ifs at hs with hguard
    obtain rfl := Option.some.inj hs
    obtain ⟨hpos, hle, halign⟩ := hguard
    refine hk.recache fun c hc => ?_
    rcases List.mem_cons.mp hc with rfl | hc
    · exact kmemCacheCreate_valid hpos hle halign
    · exact hk.caches c hc
  | shutdown c =>
    obtain rfl := Option.some.inj hs
    exact hk.recache fun c' hc' => hk.caches c' (List.mem_of_mem_erase hc')
  | alloc => exact hk.alloc hs
  | newPages => exact hk.newPages hs
  | addPage => exact hk.addPage hs
  | setUp => exact hk.setUp hs
  | ret => exact hk.ret hs
  | free => exact hk.free hs
  | rcuFree => exact hk.rcuFree hs
  | slobFree => exact hk.slobFree hs
  | freePages => exact hk.freePages hs
  | readLock => exact hk.readLock hs
  | readUnlock => exact hk.readUnlock hs
  | write => exact hk.write hs
  | writeHead => exact hk.writeHead hs
  | other => exact hk.other hs

end Steps

theorem of_init (h : (slabCaches g nid w).init s) : Kept g w s := by
  obtain ⟨hempty, hcaches, hheld, hobjects, -, hcall⟩ := h
  refine ⟨.of_emptyHeap hempty, fun sp _ => hempty.status sp, ?_, ?_, ?_, ?_, ?_, fun t => ?_⟩
  · simp [hcaches]
  · simp [hobjects]
  · simp [hobjects]
  · simp [hobjects]
  · simp [hobjects]
  · rw [hcall t]
    trivial

theorem of_reachable (h : (slabCaches g nid w).Reachable s) : Kept g w s :=
  h.invariant (fun _ => of_init) fun _ _ _ hk hs => hk.step hs

end Kept

end OperatingSystems.Slob
