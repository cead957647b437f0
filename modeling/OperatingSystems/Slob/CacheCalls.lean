import OperatingSystems.Slob.CacheSteps

namespace OperatingSystems.Slob

open Library

variable {τ : Type*} [DecidableEq τ] {g : Config} {nid : ℕ → ℕ} {w : PointerSize} {s s' : Caches τ}
  {o : Object} {st : Stage τ} {t : τ} {x : Object × Stage τ} {c : Cache} {slob : State τ} {e : Event τ}

omit [DecidableEq τ] in
theorem Cache.Valid.request (h : c.Valid g w) (hsmall : c.size < g.pageSize) (node : Option ℕ) :
    (⟨c.size, c.align, node⟩ : Request).Valid g := by
  have hpos := h.pos
  have hsize := h.size_eq
  have hone : 1 ≤ c.size := by omega
  exact ⟨hone, hsmall, h.align⟩

namespace Kept

variable (hk : Kept g w s)
include hk

/-- A thread without an object takes a step of the heap, and goes on without one. -/
theorem call_step {cc : CacheCall} (hs : Slob.step g nid s.slob e = some slob) (ht : e.thread = some t)
    (hfreed : e.freed = none) (hstored : e.stored = none) (hpage : ∀ sp ∈ e.page, ¬ InLarge s.held sp)
    (hfree : ∀ x ∈ s.objects, x.2.owner ≠ some t)
    (hnow : cc.Fits g w { s.goto t cc with slob := slob } t) :
    Kept g w { s.goto t cc with slob := slob } := by
  obtain ⟨hinv, hout, hpoint, hobjects⟩ := hk.heap_step s.objects hs (fun _ => id)
    (by simp [hfreed]) hpage (by simp [hstored])
  refine hk.advance (some t) hinv hout rfl (fun _ => id) (fun t' hne => ?_) (fun t' hne _ => ?_)
    (fun t' heq => ?_) (fun x hx => .inl ?_) (fun x hx _ _ _ => hx) hk.disjoint
  · exact Function.update_of_ne (fun heq => hne (congrArg some heq.symm)) _ _
  · exact hpoint t' (ht ▸ hne)
  · obtain rfl := Option.some.inj heq
    simpa only [Caches.goto, Function.update_self] using hnow
  · obtain ⟨hres, hcell⟩ := hobjects x hx
    exact hk.stays hx hres (fun t' howner heq => hfree x hx (howner.trans heq.symm)) hcell

/-- The heap gives a block for a new object. -/
theorem take (hs : Slob.step g nid s.slob e = some slob) (ht : e.thread = some t)
    (hfreed : e.freed = none) (hstored : e.stored = none) (hpage : ∀ sp ∈ e.page, ¬ InLarge s.held sp)
    (hfree : ∀ x ∈ s.objects, x.2.owner ≠ some t) (hvalid : c.Valid g w) (hsmall : c.size < g.pageSize)
    (hpoint : slob.point t = .idle) (hlive : slob.live = ⟨slob.returned, c.size, c.align⟩ :: s.slob.live) :
    Kept g w { s.goto t (.setUp ⟨c, slob.returned⟩) with
      slob := slob, objects := (⟨c, slob.returned⟩, .fresh t) :: s.objects } := by
  obtain ⟨hinv, hout, hothers, hobjects⟩ := hk.heap_step s.objects hs (fun _ => id)
    (by simp [hfreed]) hpage (by simp [hstored])
  have hnew : Object.Reserved g slob.live s.held ⟨c, slob.returned⟩ := by
    rw [Object.Reserved, if_pos hsmall, hlive]
    exact List.mem_cons_self
  refine hk.advance (some t) hinv hout rfl (fun _ => id) (fun t' hne => ?_) (fun t' hne _ => ?_)
    (fun t' heq => ?_) (fun x hx => ?_) (fun x hx _ _ _ => List.mem_cons_of_mem _ hx) ?_
  · exact Function.update_of_ne (fun heq => hne (congrArg some heq.symm)) _ _
  · exact hothers t' (ht ▸ hne)
  · obtain rfl := Option.some.inj heq
    simp only [Caches.goto, Function.update_self]
    exact ⟨hpoint, List.mem_cons_self⟩
  · rcases List.mem_cons.mp hx with rfl | hx
    · exact .inr ⟨hvalid, hnew, Function.update_self ..⟩
    · obtain ⟨hres, hcell⟩ := hobjects x hx
      exact .inl (hk.stays hx hres (fun t' howner heq => hfree x hx (howner.trans heq.symm)) hcell)
  · refine List.pairwise_cons.mpr ⟨fun x hx => ?_, hk.disjoint⟩
    refine Object.apart_of_reserved hinv hout hnew (hobjects x hx).1 (fun _ heq => ?_)
      fun hlarge => absurd hsmall hlarge
    -- the block of an object was live before, or it is none
    have hfresh : (⟨slob.returned, c.size, c.align⟩ : Block) ∉ s.slob.live := hinv.not_mem_of_cons hlive
    have hsize : c.size = x.1.cache.size := congrArg Block.size heq
    have hres := hk.reserved x hx
    rw [Object.Reserved, if_pos (by omega), ← heq] at hres
    exact hfresh hres

/-- The page allocator gives the pages of a new object. -/
theorem takePages {sp : ℕ} (hidle : s.call t = .idle) (hpoint : s.slob.point t = .idle)
    (hvalid : c.Valid g w) (hlarge : ¬ c.size < g.pageSize) (hpages : s.PagesFree g sp (g.getOrder c.size)) :
    Kept g w { s.goto t (.setUp ⟨c, sp * g.pageUnits⟩) with
      held := (sp, g.getOrder c.size) :: s.held
      objects := (⟨c, sp * g.pageUnits⟩, .fresh t) :: s.objects } := by
  have hfree := hk.not_owner_of_idle hidle
  have hbase : g.pageOf (sp * g.pageUnits) = sp := by
    apply Config.pageOf_eq le_rfl
    rw [Nat.succ_mul]
    exact Nat.lt_add_of_pos_right g.pageUnits_pos
  have hnobody : ∀ p, sp ≤ p → p < sp + 2 ^ g.getOrder c.size →
      s.slob.status p = .outside ∧ ¬ InLarge s.held p := by
    intro p hlo hhi
    have hframe := (hpages (p - sp) (by omega)).2
    rwa [Nat.add_sub_cancel' hlo] at hframe
  have hout : ∀ p, InLarge ((sp, g.getOrder c.size) :: s.held) p → s.slob.status p = .outside := by
    rintro p ⟨y, hy, hlo, hhi⟩
    rcases List.mem_cons.mp hy with rfl | hy
    · exact (hnobody p hlo hhi).1
    · exact hk.outside p ⟨y, hy, hlo, hhi⟩
  have hnew : Object.Reserved g s.slob.live ((sp, g.getOrder c.size) :: s.held)
      ⟨c, sp * g.pageUnits⟩ := by
    rw [Object.Reserved, if_neg hlarge, Config.base, hbase]
    exact ⟨rfl, List.mem_cons_self⟩
  have hold : ∀ x ∈ s.objects, x.1.Reserved g s.slob.live ((sp, g.getOrder c.size) :: s.held) := by
    intro x hx
    have hres := hk.reserved x hx
    unfold Object.Reserved at hres ⊢
    split_ifs at hres ⊢
    · exact hres
    · exact ⟨hres.1, List.mem_cons_of_mem _ hres.2⟩
  refine hk.advance (some t) hk.slob hout rfl (fun _ => id) (fun t' hne => ?_) (fun _ _ _ => rfl)
    (fun t' heq => ?_) (fun x hx => ?_) (fun x hx _ _ _ => List.mem_cons_of_mem _ hx) ?_
  · exact Function.update_of_ne (fun heq => hne (congrArg some heq.symm)) _ _
  · obtain rfl := Option.some.inj heq
    simp only [Caches.goto, Function.update_self]
    exact ⟨hpoint, List.mem_cons_self⟩
  · rcases List.mem_cons.mp hx with rfl | hx
    · exact .inr ⟨hvalid, hnew, Function.update_self ..⟩
    · refine .inl (hk.stays hx (hold x hx) (fun t' howner heq => ?_) fun _ _ => rfl)
      exact hfree x hx (howner.trans heq.symm)
  · refine List.pairwise_cons.mpr ⟨fun x hx => ?_, hk.disjoint⟩
    refine Object.apart_of_reserved hk.slob hout hnew (hold x hx) (fun h => absurd h hlarge)
      fun _ hlarge' u hu hu' => ?_
    rw [Object.has_large hlarge hnew, hbase] at hu
    rcases (hk.reserved x hx).status hk.slob hk.outside hu' with ⟨hsmall, -⟩ | ⟨-, hin, -⟩
    · exact hlarge' hsmall
    · exact (hnobody _ hu.1 hu.2).2 hin

theorem alloc {node pages : Option ℕ} (hs : s.step g nid w (.alloc t c node pages) = some s') :
    Kept g w s' := by
  simp only [Caches.step] at hs
  split_ifs at hs with hguard hsmall
  · obtain ⟨hidle, -, hmem⟩ := hguard
    have hvalid := hk.caches c hmem
    have hfree := hk.not_owner_of_idle hidle
    obtain ⟨slob, hslob, rfl⟩ := Option.map_eq_some_iff.mp hs
    obtain ⟨ls, runs, hl⟩ := hk.slob.layout
    cases step_does hl hk.slob.newPage hslob with
    | allocs idle =>
      rw [if_pos idle]
      exact hk.take hslob rfl rfl rfl (by simp [Event.page]) hfree hvalid hsmall idle rfl
    | noRoom =>
      rw [if_neg (by simp [State.goto])]
      refine hk.call_step hslob rfl rfl rfl (by simp [Event.page]) hfree ⟨hvalid, hsmall, ?_⟩
      refine ⟨⟨c.size, c.align, node⟩, ?_, rfl, rfl⟩
      simp only [State.goto, Function.update_self]
      rfl
  · obtain ⟨hidle, hpoint, hmem⟩ := hguard
    cases pages with
    | none => exact Option.some.inj hs ▸ hk
    | some sp =>
      simp only at hs
      split_ifs at hs with hpages
      obtain rfl := Option.some.inj hs
      exact hk.takePages hidle hpoint (hk.caches c hmem) hsmall hpages

theorem newPages {sp : Option ℕ} (hs : s.step g nid w (.newPages t sp) = some s') : Kept g w s' := by
  cases hcall : s.call t with
  | alloc c =>
    simp only [Caches.step, hcall] at hs
    have hpage : ∀ p ∈ sp, ¬ InLarge s.held p := by
      by_contra hnot
      rw [if_neg hnot] at hs
      cases hs
    rw [if_pos hpage] at hs
    obtain ⟨slob, hslob, rfl⟩ := Option.map_eq_some_iff.mp hs
    have hfits := hk.calls t
    rw [hcall] at hfits
    obtain ⟨hvalid, hsmall, r, hr, hsize, halign⟩ := hfits
    have hfree := hk.not_owner (t := t) (by simp [hcall])
    refine hk.call_step hslob rfl rfl rfl hpage hfree ?_
    obtain ⟨ls, runs, hl⟩ := hk.slob.layout
    cases step_does hl hk.slob.newPage hslob with
    | noPages => trivial
    | newPage point =>
      refine ⟨hvalid, hsmall, r, ?_, hsize, halign⟩
      rw [point] at hr
      simpa [State.goto, State.setStatus, Point.request] using hr
  | _ => simp [Caches.step, hcall] at hs

theorem addPage (hs : s.step g nid w (.addPage t) = some s') : Kept g w s' := by
  cases hcall : s.call t with
  | alloc c =>
    simp only [Caches.step, hcall] at hs
    obtain ⟨slob, hslob, rfl⟩ := Option.map_eq_some_iff.mp hs
    have hfits := hk.calls t
    rw [hcall] at hfits
    obtain ⟨hvalid, hsmall, r, hr, hsize, halign⟩ := hfits
    have hfree := hk.not_owner (t := t) (by simp [hcall])
    have hgoes : slob.point t = .idle ∧
        slob.live = ⟨slob.returned, c.size, c.align⟩ :: s.slob.live := by
      obtain ⟨ls, runs, hl⟩ := hk.slob.layout
      cases step_does hl hk.slob.newPage hslob with
      | addPage point =>
        rw [point] at hr
        obtain rfl := Option.some.inj hr
        rw [← hsize, ← halign]
        exact ⟨Function.update_self .., rfl⟩
    exact hk.take hslob rfl rfl rfl (by simp [Event.page]) hfree hvalid hsmall hgoes.1 hgoes.2
  | _ => simp [Caches.step, hcall] at hs

end Kept

end OperatingSystems.Slob
