import OperatingSystems.Slob.FreeList

namespace OperatingSystems.Slob

open Library

variable {g : Config} {h h' : Heap} {cell : ℕ → ℤ} {gap sp units align q r d n a : ℕ} {x : ℕ × ℕ}
  {xs ys zs : List (ℕ × ℕ)}

/-- The free list of page `sp` is `xs`, in ascending order. -/
structure FreeList (g : Config) (gap : ℕ) (h : Heap) (sp : ℕ) (xs : List (ℕ × ℕ)) : Prop where
  onPage : OnPage g gap sp xs
  blocks : Blocks g h.mem.cell (h.page sp).freelist xs ((sp + 1) * g.pageUnits)

/-- `h'` differs from `h` in the units of `S` and in the record of page `sp`. -/
structure Touches (sp : ℕ) (S : Set ℕ) (h h' : Heap) : Prop where
  mem : WritesIn S h.mem h'.mem
  page : ∀ p, p ≠ sp → h'.page p = h.page p
  slab : (h'.page sp).slab = (h.page sp).slab

theorem Touches.trans {S : Set ℕ} {h'' : Heap} (ht : Touches sp S h h') (ht' : Touches sp S h' h'') :
    Touches sp S h h'' :=
  ⟨ht.mem.trans ht'.mem, fun p hp => (ht'.page p hp).trans (ht.page p hp), ht'.slab.trans ht.slab⟩

section Splice

/-- Linking a list to another place keeps its blocks. -/
theorem linkAfter_spec (hpage : OnPage g 0 sp ys) (hblocks : Blocks g h.mem.cell (h.page sp).freelist ys r)
    (hrq : r ≤ q) (hq : q ≤ (sp + 1) * g.pageUnits) :
    ∃ m f, h.linkAfter g sp (lastOf ys) q =
        ⟨m, Function.update h.page sp { h.page sp with freelist := f }, h.links⟩ ∧
      Blocks g m.cell f ys q ∧ WritesIn {u | Covers ys u} h.mem m := by
  rcases List.eq_nil_or_concat ys with rfl | ⟨ws, z, rfl⟩
  · exact ⟨h.mem, q, rfl, rfl, .refl _⟩
  · rw [List.concat_eq_append] at hpage hblocks ⊢
    obtain ⟨r', hz, hws, rfl⟩ := hblocks.encodes
    have hbase := hpage.base_eq
    have hset := setSlob_spec (g := g) (m := h.mem) (a := z.1) (n := z.2) hz.pos
      (hz.before.trans hrq) (by rw [hbase, ← Nat.succ_mul]; exact hq)
    refine ⟨h.mem.setSlob g z.1 z.2 q, (h.page sp).freelist, ?_, ?_, ?_⟩
    · rw [lastOf_append, Heap.linkAfter, hz.slobUnits_eq, Function.update_eq_self]
      rfl
    · refine Chain.append (Blocks.congr hws fun u hu => hset.2.cell u ?_) ⟨rfl, q, hset.1, rfl⟩
      have := hpage.outside.1 u hu
      exact fun hin => absurd hin.1 (by omega)
    · refine hset.2.mono fun u hu => ?_
      exact covers_append.mpr (.inr (covers_cons.mpr (.inl hu)))

/-- Splitting the chosen block where the allocation has to begin. -/
theorem splitHead_spec {b : BestFit} (hlist : FreeList g 0 h sp (ys ++ (b.cur, n) :: zs))
    (hprev : b.prev = lastOf ys) (haligned : b.delta ≠ 0 → b.aligned = b.cur + b.delta)
    (hfit : b.delta < n) : ∃ m ws, ws = ys ++ (if b.delta = 0 then [] else [(b.cur, b.delta)]) ∧
      splitHead g h b = (⟨m, h.page, h.links⟩, lastOf ws, b.cur + b.delta, ((n - b.delta : ℕ) : ℤ)) ∧
      FreeList g 0 ⟨m, h.page, h.links⟩ sp (ws ++ (b.cur + b.delta, n - b.delta) :: zs) ∧
      WritesIn {u | b.cur ≤ u ∧ u < b.cur + n} h.mem m := by
  obtain ⟨r, hr, hys, hzs⟩ := hlist.blocks.encodes
  obtain ⟨-, -, hcur, hspaced⟩ := hlist.onPage.split
  have hbase := hlist.onPage.base_eq
  simp only at hcur hspaced hbase
  by_cases hd : b.delta = 0
  · refine ⟨h.mem, ys, by rw [if_pos hd, List.append_nil], ?_, ?_, .refl _⟩
    · rw [splitHead, if_neg (not_not.mpr hd), hr.slobUnits_eq, hprev, hd]
      rfl
    · rw [hd]
      exact hlist
  · have hle := hzs.le
    have hbefore := hr.before
    simp only at hbefore
    have hend : g.base (b.cur + b.delta) + g.pageUnits = (sp + 1) * g.pageUnits := by
      rw [Config.base_eq (p := sp) (by omega) (by omega), ← Nat.succ_mul]
    have hhead : g.base b.cur + g.pageUnits = (sp + 1) * g.pageUnits := by
      rw [hbase, ← Nat.succ_mul]
    obtain ⟨htail, hin⟩ := setSlob_spec (g := g) (m := h.mem) (a := b.cur + b.delta) (n := n - b.delta)
      (q := r) (by omega) (by omega) (by omega)
    obtain ⟨m, hm⟩ : ∃ m, m = h.mem.setSlob g (b.cur + b.delta) ((n - b.delta : ℕ) : ℤ) r := ⟨_, rfl⟩
    rw [← hm] at htail hin
    obtain ⟨hsplit, hin'⟩ := setSlob_spec (g := g) (m := m) (a := b.cur) (n := b.delta)
      (q := b.cur + b.delta) (by omega) le_rfl (by omega)
    obtain ⟨m', hm'⟩ : ∃ m', m' = m.setSlob g b.cur b.delta (b.cur + b.delta) := ⟨_, rfl⟩
    rw [← hm'] at hsplit hin'
    have htail' : Encodes g m'.cell (b.cur + b.delta, n - b.delta) r :=
      htail.congr fun u hle _ => hin'.cell u fun hu => absurd hu.2 (not_lt.mpr hle)
    have hwrites : WritesIn {u | b.cur ≤ u ∧ u < b.cur + n} h.mem m' := by
      refine WritesIn.trans (hin.mono ?_) (hin'.mono ?_)
      · rintro u ⟨hle, hlt⟩
        exact ⟨by omega, by omega⟩
      · rintro u ⟨hle, hlt⟩
        exact ⟨hle, by omega⟩
    have houtside := hlist.onPage.outside
    refine ⟨m', ys ++ [(b.cur, b.delta)], by rw [if_neg hd], ?_, ⟨?_, ?_⟩, hwrites⟩
    · rw [splitHead, if_pos hd, hr.slobUnits_eq, hr.slobNext_eq, haligned hd, lastOf_append]
      simp only [Heap.setSlob, ← Nat.cast_sub hfit.le, ← hm, ← hm', htail'.slobUnits_eq]
    · rw [List.append_assoc, List.singleton_append]
      exact hlist.onPage.replace ⟨⟨le_rfl, by omega, by omega⟩, ⟨by omega, by omega, by omega⟩,
        hspaced.mono_lo (by omega)⟩
    · rw [List.append_assoc, List.singleton_append]
      refine Chain.split_iff.mpr ⟨Blocks.congr hys fun u hu => hwrites.cell u fun hin => ?_,
        b.cur + b.delta, hsplit, rfl, r, htail', Blocks.congr hzs fun u hu => hwrites.cell u fun hin => ?_⟩
      · exact absurd hin.1 (not_le.mpr (houtside.1 u hu))
      · exact absurd hin.2 (not_lt.mpr (houtside.2 u hu))

/-- The splice takes the units from the chosen block and leaves the rest in the list. -/
theorem takeUnits_spec {b : BestFit} (hlist : FreeList g 0 h sp (ys ++ (b.cur, n) :: zs))
    (hprev : b.prev = lastOf ys) (haligned : b.delta ≠ 0 → b.aligned = b.cur + b.delta)
    (hpos : 0 < units) (hfit : b.delta + units ≤ n) : ∃ m f,
      takeUnits g h sp units b =
        (let left := (h.page sp).units - units
        let h := ⟨m, Function.update h.page sp { h.page sp with units := left, freelist := f }, h.links⟩
        if left = 0 then h.clearSlobPageFree sp else h, b.cur + b.delta) ∧
      Blocks g m.cell f (ys ++ (carve (b.cur, n) b.delta units ++ zs)) ((sp + 1) * g.pageUnits) ∧
      WritesIn {u | Covers (ys ++ (b.cur, n) :: zs) u} h.mem m := by
  obtain ⟨m, ws, hws, hsplit, hlist', hin⟩ := splitHead_spec hlist hprev haligned (by omega)
  obtain ⟨c, hc⟩ : ∃ c, c = b.cur + b.delta := ⟨_, rfl⟩
  rw [← hc] at hsplit hlist' ⊢
  obtain ⟨r, hr, hws', hzs⟩ := hlist'.blocks.encodes
  have hbefore := hr.before
  have hle := hzs.le
  obtain ⟨hpage, -, hcur, hspaced⟩ := hlist'.onPage.split
  have houtside := hlist'.onPage.outside
  simp only at hbefore hcur houtside
  have hwsPage : OnPage g 0 sp ws := by
    have hprefix : OnPage g 0 sp (ws ++ []) := hlist'.onPage.replace spaced_nil
    rwa [List.append_nil] at hprefix
  have hcarve : ys ++ (carve (b.cur, n) b.delta units ++ zs) =
      ws ++ ((if b.delta + units = n then [] else [(c + units, n - (b.delta + units))]) ++ zs) := by
    rw [carve, hws, hc, List.append_assoc, List.append_assoc]
  have hblock : {u | b.cur ≤ u ∧ u < b.cur + n} ⊆ {u | Covers (ys ++ (b.cur, n) :: zs) u} :=
    fun u hu => covers_append.mpr (.inr (covers_cons.mpr (.inl hu)))
  have hcover : {u | Covers ws u} ⊆ {u | Covers (ys ++ (b.cur, n) :: zs) u} := by
    intro u hu
    change Covers ws u at hu
    rw [hws, covers_append] at hu
    rcases hu with hu | hu
    · exact covers_append.mpr (.inl hu)
    · split_ifs at hu with hd
      · exact absurd hu covers_nil
      · have hu := (covers_cons.mp hu).resolve_right covers_nil
        exact hblock ⟨hu.1, by omega⟩
  rw [hcarve]
  by_cases hexact : b.delta + units = n
  · obtain ⟨m', f, hlink, hblocks, hin'⟩ := linkAfter_spec (r := c) (q := r) hwsPage hws' (by omega) hle
    refine ⟨m', f, ?_, ?_, (hin.mono hblock).trans (hin'.mono hcover)⟩
    · rw [takeUnits, hsplit]
      simp only [hr.slobNext_eq, if_pos (show ((n - b.delta : ℕ) : ℤ) = units by omega), hlink,
        Heap.setUnits, Heap.setPage, Function.update_self, Function.update_idem]
    · rw [if_pos hexact, List.nil_append]
      refine Chain.append hblocks (Blocks.congr hzs fun u hu => hin'.cell u fun hin => ?_)
      have := houtside.1 u hin
      have := houtside.2 u hu
      omega
  · obtain ⟨m₁, f, hlink, hblocks, hin₁⟩ :=
      linkAfter_spec (r := c) (q := c + units) hwsPage hws' (by omega) (by omega)
    have hend : g.base (c + units) + g.pageUnits = (sp + 1) * g.pageUnits := by
      rw [Config.base_eq (p := sp) (by omega) (by omega), ← Nat.succ_mul]
    obtain ⟨htail, hin₂⟩ := setSlob_spec (g := g) (m := m₁) (a := c + units) (n := n - (b.delta + units))
      (q := r) (by omega) (by omega) (by omega)
    have hin₂' : WritesIn {u | b.cur ≤ u ∧ u < b.cur + n} m₁
        (m₁.setSlob g (c + units) ((n - (b.delta + units) : ℕ) : ℤ) r) := by
      apply hin₂.mono
      rintro u ⟨hle, hlt⟩
      exact ⟨by omega, by omega⟩
    refine ⟨_, f, ?_, ?_, ((hin.mono hblock).trans (hin₁.mono hcover)).trans (hin₂'.mono hblock)⟩
    · rw [takeUnits, hsplit]
      simp only [hr.slobNext_eq, if_neg (show ¬ ((n - b.delta : ℕ) : ℤ) = units by omega), hlink,
        show ((n - b.delta : ℕ) : ℤ) - units = ((n - (b.delta + units) : ℕ) : ℤ) by omega,
        Heap.setSlob, Heap.setUnits, Heap.setPage, Function.update_self, Function.update_idem]
    · rw [if_neg hexact, List.singleton_append]
      refine Chain.split_iff.mpr ⟨Blocks.congr hblocks fun u hu => hin₂.cell u fun hin => ?_, r, htail,
        Blocks.congr hzs fun u hu => (hin₂.cell u fun hin => ?_).trans (hin₁.cell u fun hin => ?_)⟩
      · have := houtside.1 u hu
        have := hin.1
        omega
      · have := houtside.2 u hu
        have := hin.2
        omega
      · have := houtside.1 u hin
        have := houtside.2 u hu
        omega

end Splice

/-- The record of page `sp` describes the free runs `xs`, no two of which touch. -/
structure Manages (g : Config) (h : Heap) (sp : ℕ) (xs : List (ℕ × ℕ)) : Prop where
  onPage : OnPage g 1 sp xs
  units : (h.page sp).units = runsSize xs
  slobFree : (h.page sp).slobFree = true ↔ xs ≠ []
  blocks : xs ≠ [] → Blocks g h.mem.cell (h.page sp).freelist xs ((sp + 1) * g.pageUnits)

/-- The page after `units` units were taken from its free block `x`, from offset `d` on. -/
structure Carves (g : Config) (sp units d : ℕ) (ys : List (ℕ × ℕ)) (x : ℕ × ℕ) (zs : List (ℕ × ℕ))
    (h h' : Heap) : Prop where
  manages : Manages g h' sp (ys ++ (carve x d units ++ zs))
  touches : Touches sp {u | Covers (ys ++ x :: zs) u} h h'
  links : h'.links = if ys ++ (carve x d units ++ zs) = [] then
    h.links.listDel (.lru sp) .poison1 .poison2 else h.links

/-- The alignments that callers ask for. -/
def ValidAlign (align : ℕ) : Prop := align = 0 ∨ ∃ k, align = 2 ^ k

/-- `aligned` is `delta` units away, whatever the alignment. -/
theorem alignBlock_aligned (hd : (alignBlock g align a).2 ≠ 0) :
    (alignBlock g align a).1 = a + (alignBlock g align a).2 := by
  rw [alignBlock] at hd ⊢
  split_ifs at hd ⊢ with halign
  · exact absurd rfl hd
  · simp only at hd ⊢
    omega

/-- The mask of a power of two cuts off to a multiple of it. -/
theorem alignUp_two_pow (x k : ℕ) : alignUp x (2 ^ k) = (x + 2 ^ k - 1) / 2 ^ k * 2 ^ k := by
  have hmask : x + (2 ^ k - 1) = x + 2 ^ k - 1 := (Nat.add_sub_assoc Nat.one_le_two_pow x).symm
  have hsplit := Nat.div_add_mod' (x + 2 ^ k - 1) (2 ^ k)
  rw [alignUp, hmask, Nat.and_two_pow_sub_one_eq_mod]
  exact Nat.sub_eq_of_eq_add hsplit.symm

/-- `delta` is the distance to the next aligned block. -/
theorem alignBlock_spec (halign : ValidAlign align) :
    ((alignBlock g align a).2 ≠ 0 → (alignBlock g align a).1 = a + (alignBlock g align a).2) ∧
      (align ≠ 0 → align ∣ (a + (alignBlock g align a).2) * g.slobUnit) ∧
      ∀ d, align ∣ (a + d) * g.slobUnit → (alignBlock g align a).2 ≤ d := by
  rcases halign with rfl | ⟨k, rfl⟩
  · exact ⟨absurd rfl, absurd rfl, fun d _ => Nat.zero_le d⟩
  have hpos : 0 < 2 ^ k := Nat.two_pow_pos k
  obtain ⟨j, hj⟩ := g.slobUnit_pow
  obtain ⟨A, hA⟩ : ∃ A, A = (a * g.slobUnit + 2 ^ k - 1) / 2 ^ k * 2 ^ k := ⟨_, rfl⟩
  have hdvd : 2 ^ k ∣ A := hA ▸ Nat.dvd_mul_left _ _
  have hle : a * g.slobUnit ≤ A := by
    have := Nat.lt_div_mul_add (a := a * g.slobUnit + 2 ^ k - 1) hpos
    omega
  have hlt : A < a * g.slobUnit + 2 ^ k := by
    have := Nat.div_mul_le_self (a * g.slobUnit + 2 ^ k - 1) (2 ^ k)
    omega
  have hunit : g.slobUnit ∣ A := by
    rcases Nat.le_total j k with hjk | hkj
    · rw [hj]
      exact (pow_dvd_pow 2 hjk).trans hdvd
    · -- a block is aligned to its unit already
      have hself : 2 ^ k ∣ a * g.slobUnit := hj ▸ Dvd.dvd.mul_left (pow_dvd_pow 2 hkj) a
      have hzero : A - a * g.slobUnit = 0 :=
        Nat.eq_zero_of_dvd_of_lt (Nat.dvd_sub hdvd hself) (by omega)
      have hsame : A = a * g.slobUnit := by omega
      exact hsame ▸ Nat.dvd_mul_left _ _
  have hblock : alignBlock g (2 ^ k) a = (A / g.slobUnit, A / g.slobUnit - a) := by
    rw [alignBlock, if_neg hpos.ne', alignUp_two_pow, hA]
  have hge : a ≤ A / g.slobUnit := (Nat.le_div_iff_mul_le g.slobUnit_pos).mpr hle
  rw [hblock]
  refine ⟨fun _ => (Nat.add_sub_cancel' hge).symm, fun _ => ?_, fun d hd => ?_⟩
  · rw [Nat.add_sub_cancel' hge, Nat.div_mul_cancel hunit]
    exact hdvd
  · have hnext : A ≤ (a + d) * g.slobUnit := by
      by_contra hlow
      rw [Nat.add_mul] at hd hlow
      have hzero := Nat.eq_zero_of_dvd_of_lt (Nat.dvd_sub hdvd hd) (by omega)
      omega
    have := Nat.div_le_of_le_mul (Nat.mul_comm _ _ ▸ hnext)
    omega

theorem takeUnits_carves {b : BestFit} (hm : Manages g h sp (ys ++ (b.cur, n) :: zs))
    (hprev : b.prev = lastOf ys) (haligned : b.delta ≠ 0 → b.aligned = b.cur + b.delta)
    (hpos : 0 < units) (hfit : b.delta + units ≤ n) :
    (takeUnits g h sp units b).2 = b.cur + b.delta ∧
      Carves g sp units b.delta ys (b.cur, n) zs h (takeUnits g h sp units b).1 := by
  obtain ⟨xs, hxs⟩ : ∃ xs, xs = ys ++ (carve (b.cur, n) b.delta units ++ zs) := ⟨_, rfl⟩
  have hne : ys ++ (b.cur, n) :: zs ≠ [] := by simp
  obtain ⟨m, f, htake, hblocks, hin⟩ :=
    takeUnits_spec ⟨hm.onPage.weaken, hm.blocks hne⟩ hprev haligned hpos hfit
  obtain ⟨hspaced, hcovers, hsize⟩ := hm.onPage.carve hpos hpos hfit
  rw [← hxs] at hspaced hsize hblocks
  have hleft : (h.page sp).units - units = runsSize xs := by
    rw [hm.units]
    omega
  simp only [hleft, Int.natCast_eq_zero, hspaced.runsSize_eq_zero] at htake
  rw [htake]
  refine ⟨rfl, ?_⟩
  have hwas : (h.page sp).slobFree = true := hm.slobFree.mpr hne
  by_cases hnil : xs = []
  · rw [if_pos hnil]
    refine ⟨?_, ⟨hin, fun p hp => ?_, ?_⟩, ?_⟩
    · rw [← hxs, hnil]
      refine ⟨spaced_nil, ?_, ?_, absurd rfl⟩ <;>
        simp [Heap.clearSlobPageFree, Heap.setPage]
    · simp [Heap.clearSlobPageFree, Heap.setPage, hp]
    · simp [Heap.clearSlobPageFree, Heap.setPage]
    · rw [← hxs, if_pos hnil]
      rfl
  · rw [if_neg hnil]
    refine ⟨?_, ⟨hin, fun p hp => ?_, ?_⟩, ?_⟩
    · rw [← hxs]
      refine ⟨hspaced, ?_, ?_, fun _ => ?_⟩
      · simp
      · simp [hwas, hnil]
      · simpa using hblocks
    · simp [hp]
    · simp
    · rw [← hxs, if_neg hnil]

/-- The units from `b` on, `k` of them, have left the free runs `xs` of page `sp`, which are `xs'` now. -/
structure Takes (g : Config) (sp b k : ℕ) (xs xs' : List (ℕ × ℕ)) (h h' : Heap) : Prop where
  manages : Manages g h' sp xs'
  inside : ∀ u, b ≤ u → u < b + k → Covers xs u
  covers : ∀ u, Covers xs' u ↔ Covers xs u ∧ ¬ (b ≤ u ∧ u < b + k)
  touches : Touches sp {u | Covers xs u} h h'
  links : h'.links = if xs' = [] then h.links.listDel (.lru sp) .poison1 .poison2 else h.links

theorem Carves.takes (hc : Carves g sp units d ys x zs h h') (hm : Manages g h sp (ys ++ x :: zs))
    (hpos : 0 < units) (hfit : d + units ≤ x.2) :
    Takes g sp (x.1 + d) units (ys ++ x :: zs) (ys ++ (carve x d units ++ zs)) h h' := by
  obtain ⟨-, hcovers, -⟩ := hm.onPage.carve hpos hpos hfit
  refine ⟨hc.manages, fun u hle hlt => ?_, hcovers, hc.touches, hc.links⟩
  exact covers_append.mpr (.inr (covers_cons.mpr (.inl ⟨by omega, by omega⟩)))

/-- What the splice does with the block that a scan has chosen. -/
theorem Picks.carves {b : BestFit} (hb : Picks g units align xs b) (hm : Manages g h sp xs)
    (hpos : 0 < units) : ∃ ys n zs, xs = ys ++ (b.cur, n) :: zs ∧
      b.delta = (alignBlock g align b.cur).2 ∧ b.diff = slack g units align (b.cur, n) ∧
      b.delta + units ≤ n ∧ (takeUnits g h sp units b).2 = b.cur + b.delta ∧
      Carves g sp units b.delta ys (b.cur, n) zs h (takeUnits g h sp units b).1 := by
  obtain ⟨⟨ys, n, zs, rfl, hprev, hdiff⟩, halign, hfits⟩ := hb
  have hdelta : b.delta = (alignBlock g align b.cur).2 := congrArg Prod.snd halign
  have haligned : b.aligned = (alignBlock g align b.cur).1 := congrArg Prod.fst halign
  have hfit : b.delta + units ≤ n := by
    rw [hdiff, slack, ← hdelta] at hfits
    simp only at hfits
    omega
  obtain ⟨hcur, hcarves⟩ := takeUnits_carves hm hprev
    (fun hd => by rw [haligned, hdelta]; exact alignBlock_aligned (hdelta ▸ hd)) hpos hfit
  exact ⟨ys, n, zs, rfl, hdelta, hdiff, hfit, hcur, hcarves⟩

/-- The allocation at `b` was made from the first of the free blocks with the least slack. -/
def Served (g : Config) (sp size align : ℕ) (xs : List (ℕ × ℕ)) (h h' : Heap) (b : ℕ) : Prop :=
  ∃ ys x zs d, xs = ys ++ x :: zs ∧ d = (alignBlock g align x.1).2 ∧ b = x.1 + d ∧
    0 ≤ slack g (g.unitsOf size) align x ∧
    (∀ y ∈ xs, 0 ≤ slack g (g.unitsOf size) align y →
      slack g (g.unitsOf size) align x ≤ slack g (g.unitsOf size) align y ∧
      (y.1 < x.1 → slack g (g.unitsOf size) align x < slack g (g.unitsOf size) align y)) ∧
    Carves g sp (g.unitsOf size) d ys x zs h h'

/-- A page has no more free blocks than units. -/
theorem Manages.length_le (hm : Manages g h sp xs) : xs.length ≤ g.pageUnits := by
  have hle := hm.onPage.length_le
  rwa [← Nat.sub_mul, Nat.add_sub_cancel_left, Nat.one_mul] at hle

/-- The best-fit scan of a page. -/
theorem Manages.bestFitScan (hm : Manages g h sp xs) (hne : xs ≠ []) (units align : ℕ) :
    ∃ best, bestFitScan g h.mem.cell units align (g.pageUnits + 1) none (h.page sp).freelist none =
      some best ∧ Scanned g units align xs best := by
  have hstart : OnPage g 0 sp ([] ++ xs) := hm.onPage.weaken
  exact bestFitScan_spec hstart (hm.blocks hne) hne (Nat.le_succ_of_le hm.length_le) scanned_nil

/-- `slob_page_alloc` returns `NULL` only when no free block fits. -/
theorem slobPageAlloc_spec {size : ℕ} (hm : Manages g h sp xs) (hne : xs ≠ []) (hsize : 0 < size) :
    (slobPageAlloc g h sp size align = some (h, none) ∧
      ∀ x ∈ xs, slack g (g.unitsOf size) align x < 0) ∨
    ∃ h' b, slobPageAlloc g h sp size align = some (h', some b) ∧
      Served g sp size align xs h h' b := by
  obtain ⟨best, hscan, hbest⟩ := hm.bestFitScan hne (g.unitsOf size) align
  cases hb : best with
  | none =>
    refine .inl ⟨?_, hbest.none hb⟩
    rw [slobPageAlloc, useBestFit, if_pos rfl, hscan, hb]
    rfl
  | some b =>
    have hpicks := hbest.picks b hb
    obtain ⟨ys, n, zs, rfl, hdelta, hdiff, -, hcur, hcarves⟩ := hpicks.carves hm (g.unitsOf_pos hsize)
    refine .inr ⟨_, _, ?_, ys, (b.cur, n), zs, b.delta, rfl, hdelta, hcur, hdiff ▸ hpicks.fits,
      fun y hy hslack => ⟨?_, ?_⟩, hcarves⟩
    · rw [slobPageAlloc, useBestFit, if_pos rfl, hscan, hb]
      rfl
    · exact hdiff ▸ hbest.least b hb y hy hslack
    · exact hdiff ▸ hbest.first b hb y hy hslack

theorem Served.takes {size b : ℕ} (hs : Served g sp size align xs h h' b) (hm : Manages g h sp xs)
    (hsize : 0 < size) (halign : ValidAlign align) :
    (∃ xs', Takes g sp b (g.unitsOf size) xs xs' h h') ∧ (align ≠ 0 → align ∣ b * g.slobUnit) := by
  obtain ⟨ys, x, zs, d, rfl, rfl, rfl, hslack, -, hcarves⟩ := hs
  have hfit : (alignBlock g align x.1).2 + g.unitsOf size ≤ x.2 := by
    rw [slack] at hslack
    omega
  exact ⟨⟨_, hcarves.takes hm (g.unitsOf_pos hsize) hfit⟩, (alignBlock_spec halign).2.1⟩

end OperatingSystems.Slob
