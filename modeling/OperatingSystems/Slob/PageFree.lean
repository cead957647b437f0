import OperatingSystems.Slob.PageAlloc

namespace OperatingSystems.Slob

open Library

variable {g : Config} {h : Heap} {m : Units} {cell : ℕ → ℤ} {sp a b k n p r e : ℕ} {x : ℕ × ℕ}
  {xs ws zs : List (ℕ × ℕ)}

/-- Linking a block in front of a list, and joining it to the first block where the two touch. -/
theorem setSlob_mergeRight (hzs : Blocks g m.cell r zs e) (hspaced : Spaced 0 e (b + k) zs)
    (hpos : 0 < k) (hbr : b + k ≤ r) (he : e = g.base b + g.pageUnits) {size : ℤ} {next : ℕ}
    (hset : (size, next) = if zs ≠ [] ∧ b + k = r then
      (k + slobUnits m.cell r, slobNext g m.cell r) else ((k : ℤ), r)) :
    Blocks g (m.setSlob g b size next).cell b (mergeRight (b, k) zs) e ∧
      WritesIn {u | Covers (mergeRight (b, k) zs) u} m (m.setSlob g b size next) := by
  have hle := hzs.le
  cases zs with
  | nil =>
    obtain rfl : r = e := hzs
    rw [if_neg (fun hjoin => hjoin.1 rfl)] at hset
    obtain ⟨rfl, rfl⟩ := Prod.mk.inj hset
    obtain ⟨henc, hin⟩ := setSlob_spec (m := m) hpos hbr he.le
    exact ⟨⟨rfl, _, henc, rfl⟩, hin.mono fun u hu => covers_cons.mpr (.inl hu)⟩
  | cons z zs =>
    obtain ⟨rfl, r, hr, hzs⟩ := hzs
    have hbefore := hr.before
    have hle' := Blocks.le hzs
    rw [mergeRight]
    by_cases hjoin : b + k = z.1
    · rw [if_pos ⟨List.cons_ne_nil z zs, hjoin⟩, hr.slobUnits_eq, hr.slobNext_eq] at hset
      obtain ⟨rfl, hnext⟩ := Prod.mk.inj hset
      rw [hnext, if_pos hjoin]
      obtain ⟨henc, hin⟩ := setSlob_spec (g := g) (m := m) (a := b) (n := k + z.2) (q := r)
        (by omega) (by omega) (by omega)
      rw [Nat.cast_add] at henc hin
      refine ⟨⟨rfl, _, henc, Blocks.congr hzs fun u hu => hin.cell u fun hu' => ?_⟩,
        hin.mono fun u hu => ⟨(b, k + z.2), List.mem_cons_self, hu⟩⟩
      have := hspaced.2.bounds hu
      have := hu'.2
      omega
    · rw [if_neg fun hj => hjoin hj.2] at hset
      obtain ⟨rfl, rfl⟩ := Prod.mk.inj hset
      rw [if_neg hjoin]
      obtain ⟨henc, hin⟩ := setSlob_spec (g := g) (m := m) hpos hbr (by omega)
      refine ⟨⟨rfl, _, henc, Blocks.congr ⟨rfl, r, hr, hzs⟩ fun u hu => hin.cell u fun hu' => ?_⟩,
        hin.mono fun u hu => covers_cons.mpr (.inl hu)⟩
      have := hspaced.bounds hu
      exact absurd hu'.2 (not_lt.mpr this.1)

/-- The search of `slob_free` stops at the last block below `b`. -/
theorem findPrev_spec {fuel : ℕ} (hblocks : Blocks g cell p (ws ++ (a, n) :: zs) e) (hab : a < b)
    (hbe : b < e) (hfree : ¬ Covers (ws ++ (a, n) :: zs) b) (hfuel : zs.length < fuel) :
    ∃ ws' x zs', ws ++ (a, n) :: zs = ws' ++ x :: zs' ∧ x.1 < b ∧ b < slobNext g cell x.1 ∧
      findPrev g cell b fuel a (slobNext g cell a) = some (x.1, slobNext g cell x.1) := by
  induction zs generalizing ws a n fuel with
  | nil =>
    obtain ⟨r, hr, -, rfl⟩ := hblocks.encodes
    obtain ⟨fuel, rfl⟩ := Nat.exists_eq_add_one_of_ne_zero (Nat.ne_zero_of_lt hfuel)
    refine ⟨ws, (a, n), [], rfl, hab, ?_, ?_⟩
    · exact hr.slobNext_eq ▸ hbe
    · rw [findPrev, hr.slobNext_eq, if_neg (not_lt.mpr hbe.le)]
  | cons z zs ih =>
    obtain ⟨r, hr, -, hrest⟩ := hblocks.encodes
    obtain ⟨fuel, rfl⟩ := Nat.exists_eq_add_one_of_ne_zero (Nat.ne_zero_of_lt hfuel)
    have hrz : r = z.1 := hrest.1
    by_cases hbr : b > r
    · rw [findPrev, hr.slobNext_eq, if_pos hbr, hrz]
      rw [List.append_cons] at hblocks hfree ⊢
      exact ih hblocks (hrz ▸ hbr) hfree (Nat.lt_of_succ_lt_succ hfuel)
    · have hpos : 0 < z.2 := by
        obtain ⟨-, r', hr', -⟩ := hrest
        exact hr'.pos
      have hne : b ≠ r := by
        intro heq
        subst heq
        refine hfree (covers_append.mpr (.inr (covers_cons.mpr (.inr (covers_cons.mpr (.inl ?_))))))
        omega
      refine ⟨ws, (a, n), z :: zs, rfl, hab, ?_, ?_⟩
      · rw [hr.slobNext_eq]
        omega
      · rw [findPrev, hr.slobNext_eq, if_neg hbr]

theorem Heap.setSlob_ite (c : Prop) [Decidable c] (s : ℕ) (size size' : ℤ) (next next' : ℕ) :
    (if c then h.setSlob g s size next else h.setSlob g s size' next') =
      h.setSlob g s (if c then (size, next) else (size', next')).1
        (if c then (size, next) else (size', next')).2 := by
  split_ifs <;> rfl

/-- Linking a block behind `x`, the last one below it, and joining it to its neighbours. -/
theorem setSlob_after (hpage : OnPage g 1 sp (ws ++ x :: zs))
    (hblocks : Blocks g m.cell p (ws ++ x :: zs) ((sp + 1) * g.pageUnits)) (hpos : 0 < k)
    (hxb : x.1 + x.2 ≤ b) (hzs : Spaced 1 ((sp + 1) * g.pageUnits) (b + k) zs)
    (hbr : b + k ≤ slobNext g m.cell x.1) {m₁ : Units} {v w : ℤ × ℕ}
    (hv : v = if slobLast g m.cell x.1 = false ∧ (b : ℤ) + k = slobNext g m.cell x.1 then
        (k + slobUnits m.cell (slobNext g m.cell x.1), slobNext g m.cell (slobNext g m.cell x.1))
      else ((k : ℤ), slobNext g m.cell x.1)) (hm₁ : m₁ = m.setSlob g b v.1 v.2)
    (hw : w = if (x.1 : ℤ) + slobUnits m₁.cell x.1 = b then
        (slobUnits m₁.cell b + slobUnits m₁.cell x.1, slobNext g m₁.cell b)
      else (slobUnits m₁.cell x.1, b)) : ∃ xs',
      OnPage g 1 sp xs' ∧ xs' ≠ [] ∧
      (∀ u, Covers xs' u ↔ (b ≤ u ∧ u < b + k) ∨ Covers (ws ++ x :: zs) u) ∧
      runsSize xs' = k + runsSize (ws ++ x :: zs) ∧
      Blocks g (m₁.setSlob g x.1 w.1 w.2).cell p xs' ((sp + 1) * g.pageUnits) ∧
      WritesIn {u | Covers xs' u} m (m₁.setSlob g x.1 w.1 w.2) := by
  obtain ⟨e, he⟩ : ∃ e, e = (sp + 1) * g.pageUnits := ⟨_, rfl⟩
  obtain ⟨r, hr, hws, htail⟩ := hblocks.encodes
  rw [hr.slobNext_eq] at hbr hv
  obtain ⟨-, -, hx, -⟩ := hpage.split
  have houtside := hpage.outside
  have hre := htail.le
  have hbasex := hpage.base_eq
  have hlast : slobLast g m.cell x.1 = false ↔ zs ≠ [] := by
    rw [← Bool.not_eq_true, hr.slobLast_iff, hbasex, ← Nat.succ_mul, Nat.succ_eq_add_one]
    refine not_congr ⟨fun hend => ?_, fun hnil => ?_⟩
    · refine Chain.nil_of_end (fun z hz => ?_) (hend ▸ htail)
      have := hzs.of_mem hz
      omega
    · subst hnil
      exact htail
  have hb : (sp + 1) * g.pageUnits = g.base b + g.pageUnits := by
    rw [Config.base_eq (p := sp) (by omega) (by omega), ← Nat.succ_mul]
  -- the block behind the new one
  obtain ⟨hus, hcovers, hsize⟩ := Spaced.mergeRight (x := (b, k)) hzs hpos (by omega)
  obtain ⟨hblocks₁, hin₁⟩ := setSlob_mergeRight htail hzs.weaken hpos hbr hb
    (hv.trans (if_congr (by rw [hlast]; refine and_congr_right' ?_; omega) rfl rfl))
  rw [← hm₁] at hblocks₁ hin₁
  obtain ⟨us, hus'⟩ : ∃ us, us = mergeRight (b, k) zs := ⟨_, rfl⟩
  rw [← hus'] at hus hcovers hsize hblocks₁ hin₁
  have hne : us ≠ [] := hus' ▸ mergeRight_ne_nil
  have hkeep : ∀ u, u < b → m₁.cell u = m.cell u := fun u hu =>
    hin₁.cell u fun hc => absurd (hus.bounds hc).1 (not_le.mpr hu)
  -- the block before it
  have hr₁ : Encodes g m₁.cell x r := hr.congr fun u _ hu => hkeep u (by omega)
  rw [hr₁.slobUnits_eq] at hw
  have hspaced : Spaced 1 ((sp + 1) * g.pageUnits) (x.1 + x.2) us := hus.mono_lo hxb
  obtain ⟨hxs, hcovers', hsize'⟩ := Spaced.mergeRight hspaced hx.2.1 hx.2.2
  obtain ⟨hblocks₂, hin₂⟩ := setSlob_mergeRight hblocks₁ hspaced.weaken hx.2.1 hxb
    (by rw [hbasex, ← Nat.succ_mul])
    (hw.trans (if_congr (by simp only [ne_eq, hne, not_false_iff, true_and]; omega)
      (by rw [add_comm]) rfl))
  refine ⟨ws ++ mergeRight x us, hpage.replace hxs, by simp [mergeRight_ne_nil], fun u => ?_, ?_,
    Chain.append (Blocks.congr hws fun u hu => ?_) hblocks₂,
    (hin₁.mono fun u hu => ?_).trans (hin₂.mono fun u hu => ?_)⟩
  · rw [covers_append, hcovers', hcovers, covers_append, covers_cons]
    exact (or_congr_right or_left_comm).trans or_left_comm
  · rw [runsSize_append, hsize', hsize, runsSize_append, runsSize_cons]
    omega
  · have hux := houtside.1 u hu
    refine (hin₂.cell u fun hc => ?_).trans (hkeep u (by omega))
    exact absurd (hxs.bounds hc).1 (not_le.mpr hux)
  · exact covers_append.mpr (.inr ((hcovers' u).mpr (.inr hu)))
  · exact covers_append.mpr (.inr hu)

/-- The list after the reinsertion of the block `(b, k)`, which is linked behind the last block below
it and joined to its neighbours on either side. -/
theorem reinsert_spec (hpage : OnPage g 1 sp xs) (hne : xs ≠ [])
    (hblocks : Blocks g h.mem.cell (h.page sp).freelist xs ((sp + 1) * g.pageUnits)) (hpos : 0 < k)
    (hlo : sp * g.pageUnits ≤ b) (hhi : b + k ≤ (sp + 1) * g.pageUnits)
    (hfree : ∀ u, b ≤ u → u < b + k → ¬ Covers xs u) : ∃ m f xs',
      reinsert g h sp b k =
        some ⟨m, Function.update h.page sp { h.page sp with freelist := f }, h.links⟩ ∧
      OnPage g 1 sp xs' ∧ xs' ≠ [] ∧ (∀ u, Covers xs' u ↔ (b ≤ u ∧ u < b + k) ∨ Covers xs u) ∧
      runsSize xs' = k + runsSize xs ∧ Blocks g m.cell f xs' ((sp + 1) * g.pageUnits) ∧
      WritesIn {u | Covers xs' u} h.mem m := by
  obtain ⟨y, ys, rfl⟩ := List.exists_cons_of_ne_nil hne
  have hb : g.base b + g.pageUnits = (sp + 1) * g.pageUnits := by
    rw [Config.base_eq (p := sp) hlo (by omega), ← Nat.succ_mul]
  have hfirst : (h.page sp).freelist = y.1 := hblocks.1
  have hy := hpage.1
  by_cases hbelow : b < (h.page sp).freelist
  · have hby : b + k ≤ y.1 := by
      by_contra hlt
      exact hfree y.1 (hfirst ▸ hbelow).le (not_le.mp hlt) (covers_cons.mpr (.inl ⟨le_rfl, by omega⟩))
    have hspaced : Spaced 1 ((sp + 1) * g.pageUnits) (b + k) (y :: ys) := ⟨⟨hby, hy.2⟩, hpage.2⟩
    obtain ⟨hspaced', hcovers, hsize⟩ := Spaced.mergeRight (x := (b, k)) hspaced hpos hhi
    obtain ⟨⟨size, next⟩, hpair⟩ : ∃ pair : ℤ × ℕ, pair = if (b : ℤ) + k = (h.page sp).freelist then
        ((k : ℤ) + slobUnits h.mem.cell (h.page sp).freelist, slobNext g h.mem.cell (h.page sp).freelist)
      else ((k : ℤ), (h.page sp).freelist) := ⟨_, rfl⟩
    obtain ⟨hblocks', hin⟩ := setSlob_mergeRight hblocks hspaced.weaken hpos (hfirst ▸ hby) hb.symm
      (hpair.trans (if_congr (by simp only [ne_eq, hne, not_false_iff, true_and]; omega) rfl rfl))
    refine ⟨_, b, _, ?_, hspaced'.mono_lo hlo, mergeRight_ne_nil, hcovers, hsize, hblocks', hin⟩
    simp only [reinsert, if_pos hbelow, ← hpair]
    rfl
  · have hyb : y.1 < b := by
      refine lt_of_le_of_ne (hfirst ▸ not_lt.mp hbelow) fun he => ?_
      exact hfree b le_rfl (by omega) (covers_cons.mpr (.inl ⟨he.le, by omega⟩))
    have hfuel := hpage.length_le
    rw [← Nat.sub_mul, Nat.add_sub_cancel_left, Nat.one_mul, List.length_cons] at hfuel
    have hstart : Blocks g h.mem.cell (h.page sp).freelist ([] ++ (y.1, y.2) :: ys)
        ((sp + 1) * g.pageUnits) := hblocks
    have hfuel' : ys.length < g.pageUnits + 1 := by omega
    obtain ⟨ws, x, zs, hsplit, hxb, hbr, hfind⟩ := findPrev_spec hstart hyb (by omega)
      (hfree b le_rfl (by omega)) hfuel'
    change y :: ys = ws ++ x :: zs at hsplit
    rw [hsplit] at hpage hblocks hfree ⊢
    obtain ⟨-, -, hx, hspaced⟩ := hpage.split
    have hxend : x.1 + x.2 ≤ b := by
      by_contra hlt
      exact hfree b le_rfl (by omega)
        (covers_append.mpr (.inr (covers_cons.mpr (.inl ⟨hxb.le, not_le.mp hlt⟩))))
    have hnext : Spaced 1 ((sp + 1) * g.pageUnits) (b + k) zs ∧ b + k ≤ slobNext g h.mem.cell x.1 := by
      obtain ⟨r, hr, -, hzs⟩ := hblocks.encodes
      rw [hr.slobNext_eq] at hbr ⊢
      cases zs with
      | nil => exact ⟨trivial, hzs ▸ hhi⟩
      | cons z zs =>
        have hrz : r = z.1 := hzs.1
        have hz := hspaced.1
        have hle : b + k ≤ z.1 := by
          by_contra hlt
          apply hfree z.1 (hrz ▸ hbr.le) (not_le.mp hlt)
          exact covers_append.mpr (.inr (covers_cons.mpr (.inr (covers_cons.mpr (.inl ⟨le_rfl, by omega⟩)))))
        exact ⟨⟨⟨hle, hz.2⟩, hspaced.2⟩, hrz ▸ hle⟩
    obtain ⟨v, hv⟩ : ∃ v : ℤ × ℕ, v =
        if slobLast g h.mem.cell x.1 = false ∧ (b : ℤ) + k = slobNext g h.mem.cell x.1 then
          (k + slobUnits h.mem.cell (slobNext g h.mem.cell x.1),
            slobNext g h.mem.cell (slobNext g h.mem.cell x.1))
        else ((k : ℤ), slobNext g h.mem.cell x.1) := ⟨_, rfl⟩
    obtain ⟨m, hm⟩ : ∃ m, m = h.mem.setSlob g b v.1 v.2 := ⟨_, rfl⟩
    obtain ⟨w, hw⟩ : ∃ w : ℤ × ℕ, w = if (x.1 : ℤ) + slobUnits m.cell x.1 = b then
        (slobUnits m.cell b + slobUnits m.cell x.1, slobNext g m.cell b)
      else (slobUnits m.cell x.1, b) := ⟨_, rfl⟩
    obtain ⟨xs', hspec⟩ := setSlob_after hpage hblocks hpos hxend hnext.1 hnext.2 hv hm hw
    refine ⟨_, (h.page sp).freelist, xs', ?_, hspec⟩
    have hheap : (if slobLast g h.mem.cell x.1 = false ∧ (b : ℤ) + k = slobNext g h.mem.cell x.1 then
          h.setSlob g b (k + slobUnits h.mem.cell (slobNext g h.mem.cell x.1))
            (slobNext g h.mem.cell (slobNext g h.mem.cell x.1))
        else h.setSlob g b k (slobNext g h.mem.cell x.1)) = ⟨m, h.page, h.links⟩ := by
      rw [Heap.setSlob_ite, ← hv, hm]
      rfl
    rw [← hfirst] at hfind
    rw [reinsert, if_neg hbelow, hfind, Option.map_some]
    simp only [hheap]
    rw [Heap.setSlob_ite, ← hw, Function.update_eq_self]
    rfl

/-- What `slob_free` makes of the page of the block `(b, k)`. -/
structure Frees (g : Config) (sp b k : ℕ) (c : SizeClass) (xs : List (ℕ × ℕ)) (xs' : List (ℕ × ℕ))
    (h h' : Heap) : Prop where
  manages : Manages g h' sp xs'
  covers : ∀ u, Covers xs' u ↔ (b ≤ u ∧ u < b + k) ∨ Covers xs u
  touches : Touches sp {u | Covers xs' u} h h'
  links : h'.links = if xs = [] then h.links.listAdd (.lru sp) (.list c) else h.links

theorem slobFree_spec {size : ℕ} (hm : Manages g h sp xs) (hpos : 0 < size)
    (hlo : sp * g.pageUnits ≤ b) (hhi : b + g.unitsOf size ≤ (sp + 1) * g.pageUnits)
    (hfree : ∀ u, b ≤ u → u < b + g.unitsOf size → ¬ Covers xs u) :
    (runsSize xs + g.unitsOf size = g.pageUnits ∧
      slobFree g h b size = some (if xs = [] then h else h.clearSlobPageFree sp, true)) ∨
    runsSize xs + g.unitsOf size ≠ g.pageUnits ∧
      ∃ h' xs', slobFree g h b size = some (h', false) ∧ xs' ≠ [] ∧
        Frees g sp b (g.unitsOf size) (slobList size) xs xs' h h' := by
  have hk := g.unitsOf_pos hpos
  obtain ⟨k, hkeq⟩ : ∃ k, k = g.unitsOf size := ⟨_, rfl⟩
  rw [← hkeq] at hk hhi hfree ⊢
  have hsp : g.pageOf b = sp := Config.pageOf_eq hlo (by omega)
  have hidx : g.toIdx k = k := by
    rw [Nat.succ_mul] at hhi
    exact Config.toIdx_eq (by omega) (by omega)
  have hfull : (h.page sp).units + k = g.pageUnits ↔ runsSize xs + k = g.pageUnits := by
    rw [hm.units]
    omega
  by_cases hall : runsSize xs + k = g.pageUnits
  · refine .inl ⟨hall, ?_⟩
    rw [slobFree, hsp, ← hkeq, hidx, if_pos (hfull.mpr hall)]
    by_cases hnil : xs = []
    · rw [if_neg (hm.slobFree.not.mpr (not_not.mpr hnil)), if_pos hnil]
    · rw [if_pos (hm.slobFree.mpr hnil), if_neg hnil]
  · refine .inr ⟨hall, ?_⟩
    by_cases hnil : xs = []
    · have hflag : (h.page sp).slobFree = false :=
        Bool.not_eq_true _ ▸ hm.slobFree.not.mpr (not_not.mpr hnil)
      have hend : g.base (b + g.pageUnits) = (sp + 1) * g.pageUnits := by
        apply Config.base_eq
        · rw [Nat.succ_mul]
          omega
        · rw [Nat.succ_mul (sp + 1)]
          omega
      obtain ⟨henc, hin⟩ := setSlob_spec (g := g) (m := h.mem) (q := (sp + 1) * g.pageUnits) hk hhi
        (by rw [Config.base_eq (p := sp) hlo (by omega), ← Nat.succ_mul])
      refine ⟨((h.setPage sp { h.page sp with units := k, freelist := b }).setSlob g b k
          ((sp + 1) * g.pageUnits)).setSlobPageFree sp (slobList size), [(b, k)], ?_,
        List.cons_ne_nil _ _, ⟨⟨?_, ?_, ?_, fun _ => ?_⟩, fun u => ?_, ⟨?_, fun p hp => ?_, ?_⟩, ?_⟩⟩
      · rw [slobFree, hsp, ← hkeq, hidx, if_neg (hfull.not.mpr hall), if_pos hflag, hend]
      · exact ⟨⟨hlo, hk, hhi⟩, trivial⟩
      · simp [Heap.setSlobPageFree, Heap.setSlob, Heap.setPage]
      · simp [Heap.setSlobPageFree, Heap.setSlob, Heap.setPage]
      · simpa [Heap.setSlobPageFree, Heap.setSlob, Heap.setPage] using henc
      · rw [covers_cons, hnil]
      · exact hin.mono fun u hu => ⟨(b, k), List.mem_cons_self, hu⟩
      · simp [Heap.setSlobPageFree, Heap.setSlob, Heap.setPage, hp]
      · simp [Heap.setSlobPageFree, Heap.setSlob, Heap.setPage]
      · rw [if_pos hnil]
        rfl
    · have hflag : (h.page sp).slobFree = true := hm.slobFree.mpr hnil
      obtain ⟨m, f, xs', hset, hpage, hne, hcovers, hsize, hblocks, hin⟩ :=
        reinsert_spec (h := h.setUnits sp ((h.page sp).units + k)) hm.onPage hnil
          (by simpa [Heap.setUnits, Heap.setPage] using hm.blocks hnil) hk hlo hhi hfree
      simp only [Heap.setUnits, Heap.setPage, Function.update_self, Function.update_idem] at hset
      refine ⟨⟨m, Function.update h.page sp
          { h.page sp with units := (h.page sp).units + k, freelist := f }, h.links⟩, xs', ?_, hne,
        ⟨⟨hpage, ?_, ?_, fun _ => ?_⟩, hcovers, ⟨hin, fun p hp => ?_, ?_⟩, ?_⟩⟩
      · rw [slobFree, hsp, ← hkeq, hidx, if_neg (hfull.not.mpr hall), if_neg (by simp [hflag])]
        simp only [Heap.setUnits, Heap.setPage, hset, Option.map_some]
      · simp [hm.units, hsize, add_comm]
      · simp [hflag, hne]
      · simpa using hblocks
      · simp [hp]
      · simp
      · rw [if_neg hnil]

end OperatingSystems.Slob
