import OperatingSystems.Slob.CacheCalls

namespace OperatingSystems.Slob

open Library

variable {τ : Type*} [DecidableEq τ] {g : Config} {nid : ℕ → ℕ} {w : PointerSize} {s s' : Caches τ}
  {o : Object} {old new : Stage τ} {t : τ} {x y : Object × Stage τ} {c : Cache}

namespace Kept

variable (hk : Kept g w s)
include hk

theorem mem_erase : y ∈ s.objects.erase x ↔ y ≠ x ∧ y ∈ s.objects := hk.nodup.mem_erase_iff

/-- The objects stay apart when one of them changes its stage. -/
theorem disjoint_move (hmem : (o, old) ∈ s.objects) :
    ((o, new) :: s.objects.erase (o, old)).Pairwise fun x y => x.1.Apart g y.1 := by
  have hpairs := (List.perm_cons_erase hmem).pairwise hk.disjoint fun h => h.symm
  obtain ⟨hfirst, hrest⟩ := List.pairwise_cons.mp hpairs
  exact List.pairwise_cons.mpr ⟨hfirst, hrest⟩

/-- Nobody has an object in two hands. -/
theorem owner_unique (hx : x ∈ s.objects) (hy : y ∈ s.objects) (ht : x.2.owner = some t)
    (ht' : y.2.owner = some t) : x = y := by
  by_contra hne
  rcases hk.owner_call hx ht with ⟨hcall, -⟩ | ⟨hcall, -⟩ <;>
    rcases hk.owner_call hy ht' with ⟨hcall', -⟩ | ⟨hcall', -⟩
  · have heq : x.1 = y.1 := CacheCall.setUp.inj (hcall.symm.trans hcall')
    exact hk.block_ne hx hy hne (congrArg Object.block heq)
  · cases hcall.symm.trans hcall'
  · cases hcall.symm.trans hcall'
  · exact hk.block_ne hx hy hne (CacheCall.free.inj (hcall.symm.trans hcall'))

theorem ret (hs : s.step g nid w (.ret t) = some s') : Kept g w s' := by
  cases hcall : s.call t with
  | setUp o =>
    simp only [Caches.step, hcall] at hs
    obtain rfl := Option.some.inj hs
    have hfits := hk.calls t
    rw [hcall] at hfits
    obtain ⟨-, hmem⟩ := hfits
    refine hk.advance (some t) hk.slob hk.outside rfl (fun _ => id) (fun t' hne => ?_) (fun _ _ _ => rfl)
      (fun t' heq => ?_) (fun x hx => ?_) (fun x hx t' howner hne => ?_) (hk.disjoint_move hmem)
    · exact Function.update_of_ne (fun heq => hne (congrArg some heq.symm)) _ _
    · obtain rfl := Option.some.inj heq
      simp only [Caches.goto, Function.update_self]
      trivial
    · rcases List.mem_cons.mp hx with rfl | hx
      · exact .inr ⟨hk.valid (o, .fresh t) hmem, hk.reserved (o, .fresh t) hmem, trivial⟩
      · obtain ⟨hne, hx⟩ := hk.mem_erase.mp hx
        refine .inl (hk.stays hx (hk.reserved x hx) (fun t' howner heq => hne ?_) fun _ _ => rfl)
        exact hk.owner_unique hx hmem (howner.trans heq.symm) rfl
    · refine List.mem_cons_of_mem _ (hk.mem_erase.mpr ⟨?_, hx⟩)
      rintro rfl
      exact hne howner
  | _ => simp [Caches.step, hcall] at hs

/-- `__kmem_cache_free` of what an object took. -/
theorem kmemCacheFree (hidle : s.call t = .idle) (hpoint : s.slob.point t = .idle)
    (hmem : (o, old) ∈ s.objects) (hold : old.owner = none) :
    Kept g w (s.kmemCacheFree g t o.addr o.cache.size (o, old)) := by
  have hfree := hk.not_owner_of_idle hidle
  rw [Caches.kmemCacheFree]
  split_ifs with hsmall
  · refine hk.advance (some t) hk.slob hk.outside rfl (fun _ => id) (fun t' hne => ?_) (fun _ _ _ => rfl)
      (fun t' heq => ?_) (fun x hx => ?_) (fun x hx t' howner hne => ?_) (hk.disjoint_move hmem)
    · exact Function.update_of_ne (fun heq => hne (congrArg some heq.symm)) _ _
    · obtain rfl := Option.some.inj heq
      simp only [Caches.goto, Function.update_self]
      exact ⟨hpoint, o, List.mem_cons_self, rfl⟩
    · rcases List.mem_cons.mp hx with rfl | hx
      · exact .inr ⟨hk.valid (o, old) hmem, hk.reserved (o, old) hmem, Function.update_self .., hsmall⟩
      · obtain ⟨-, hx⟩ := hk.mem_erase.mp hx
        refine .inl (hk.stays hx (hk.reserved x hx) (fun t' howner heq => ?_) fun _ _ => rfl)
        exact hfree x hx (howner.trans heq.symm)
    · refine List.mem_cons_of_mem _ (hk.mem_erase.mpr ⟨?_, hx⟩)
      rintro rfl
      rw [hold] at howner
      cases howner
  · have hres := hk.reserved _ hmem
    rw [Object.Reserved, if_neg hsmall] at hres
    refine hk.advance none hk.slob (fun sp hsp => hk.outside sp ?_) rfl (fun _ => id) (fun _ _ => rfl)
      (fun _ _ _ => rfl) (by simp) (fun x hx => ?_) (fun x hx t' howner _ => ?_)
      (hk.disjoint.sublist List.erase_sublist)
    · obtain ⟨y, hy, hin⟩ := hsp
      exact ⟨y, List.mem_of_mem_erase hy, hin⟩
    · obtain ⟨hne, hx⟩ := hk.mem_erase.mp hx
      refine .inl (hk.stays hx ?_ (by simp) fun _ _ => rfl)
      have hres' := hk.reserved x hx
      unfold Object.Reserved at hres' ⊢
      split_ifs at hres' ⊢
      · exact hres'
      · refine ⟨hres'.1, (List.mem_erase_of_ne fun heq => ?_).mpr hres'.2⟩
        -- two objects on the same pages
        have hpage : g.pageOf x.1.addr = g.pageOf o.addr := congrArg Prod.fst heq
        have haddr : x.1.addr = o.addr := by
          rw [hres'.1, hres.1, Config.base, hpage]
          rfl
        have hposx := Object.units_pos (g := g) (hk.size_pos hx)
        have hposo : 0 < o.units g := Object.units_pos (hk.size_pos hmem)
        have hapart : x.1.Apart g o := hk.disjoint.forall hx hmem hne
        exact hapart o.addr ⟨by omega, by omega⟩ ⟨le_rfl, by omega⟩
    · refine hk.mem_erase.mpr ⟨?_, hx⟩
      rintro rfl
      rw [hold] at howner
      cases howner

/-- `kmem_cache_free` of an object of a `SLAB_DESTROY_BY_RCU` cache. -/
theorem queue (hmem : (o, .inUse) ∈ s.objects) (hrcu : o.cache.destroyByRcu = true) :
    Kept g w { s.move o .inUse (.queued (o.slobRcu g w) s.readers) with
      slob := { s.slob with
        heap := s.slob.heap.writeInt g (o.slobRcu g w + w.rcuHead) o.cache.size } } := by
  have hvalid : o.cache.Valid g w := hk.valid _ hmem
  have hsize := hvalid.size_eq
  rw [if_pos hrcu] at hsize
  have hbytes : 4 ≤ w.bytes := by cases w <;> decide
  have hinside : ∀ i < 4, o.addr * g.slobUnit ≤ o.slobRcu g w + w.rcuHead + i ∧
      o.slobRcu g w + w.rcuHead + i < o.addr * g.slobUnit + o.cache.size := by
    intro i hi
    unfold Object.slobRcu PointerSize.rcuHead PointerSize.slobRcu at *
    omega
  have hwrite : ∀ {s₁ : Caches τ} {i v : ℕ}, Kept g w s₁ → (o, .inUse) ∈ s₁.objects → i < 4 →
      Kept g w (s₁.storeByte g (o.slobRcu g w + w.rcuHead + i) v) := by
    intro s₁ i v hk₁ hmem₁ hi
    exact hk₁.storeByte hmem₁ (hinside i hi).1 (hinside i hi).2 (by simp [Stage.head?])
  have hk₁ := hwrite (v := o.cache.size) hk hmem (show 0 < 4 by decide)
  have hk₂ := hwrite (v := o.cache.size / 2 ^ 8) hk₁ hmem (show 1 < 4 by decide)
  have hk₃ := hwrite (v := o.cache.size / 2 ^ 16) hk₂ hmem (show 2 < 4 by decide)
  have hk₄ := hwrite (v := o.cache.size / 2 ^ 24) hk₃ hmem (show 3 < 4 by decide)
  refine hk₄.advance none hk₄.slob hk₄.outside rfl (fun _ => id) (fun _ _ => rfl) (fun _ _ _ => rfl)
    (by simp) (fun x hx => ?_) (fun x hx t' howner _ => ?_) (hk.disjoint_move hmem)
  · rcases List.mem_cons.mp hx with rfl | hx
    · have hread : readInt g (s.slob.heap.writeInt g (o.slobRcu g w + w.rcuHead) o.cache.size).mem.cell
          (o.slobRcu g w + w.rcuHead) = o.cache.size := readInt_writeInt hvalid.size_lt
      exact .inr ⟨hvalid, hk₄.reserved (o, .inUse) hmem, hrcu, rfl, hread, fun _ => id⟩
    · obtain ⟨-, hx⟩ := hk.mem_erase.mp hx
      exact .inl (hk₄.stays hx (hk₄.reserved x hx) (by simp) fun _ _ => rfl)
  · refine List.mem_cons_of_mem _ (hk.mem_erase.mpr ⟨?_, hx⟩)
    rintro rfl
    cases howner

theorem free {b : ℕ} (hs : s.step g nid w (.free t c b) = some s') : Kept g w s' := by
  simp only [Caches.step] at hs
  split_ifs at hs with hguard hrcu
  · obtain rfl := Option.some.inj hs
    exact hk.queue (o := ⟨c, b⟩) hguard.2.2.2 hrcu
  · obtain rfl := Option.some.inj hs
    obtain ⟨hidle, hpoint, -, hmem⟩ := hguard
    exact hk.kmemCacheFree hidle hpoint hmem rfl

omit [DecidableEq τ] in
/-- `kmem_rcu_free` finds the object and its size again. -/
theorem rcuFree_eq {head : ℕ} {readers : List τ} (hmem : (o, .queued head readers) ∈ s.objects) :
    ((head - (readInt g s.slob.heap.mem.cell (head + w.rcuHead) - w.slobRcu) : ℤ).toNat / g.slobUnit =
      o.addr) ∧
    (readInt g s.slob.heap.mem.cell (head + w.rcuHead) % 2 ^ (8 * w.bytes)).toNat = o.cache.size := by
  have hvalid : o.cache.Valid g w := hk.valid _ hmem
  have hfits : (Stage.queued head readers).Fits g w s o := hk.stages _ hmem
  obtain ⟨hrcu, hhead, hread, -⟩ := hfits
  have hsize := hvalid.size_eq
  rw [if_pos hrcu] at hsize
  have hlt := hvalid.size_lt
  rw [hread]
  constructor
  · have haddr : ((head : ℤ) - ((o.cache.size : ℤ) - w.slobRcu)).toNat = o.addr * g.slobUnit := by
      unfold Object.slobRcu at hhead
      omega
    rw [haddr, Nat.mul_div_cancel _ g.slobUnit_pos]
  · have hbytes : 4 ≤ w.bytes := by cases w <;> decide
    have hpow : (2 : ℤ) ^ 31 ≤ 2 ^ (8 * w.bytes) := pow_le_pow_right₀ (by decide) (by omega)
    have hmod : (o.cache.size : ℤ) % 2 ^ (8 * w.bytes) = o.cache.size :=
      Int.emod_eq_of_lt (by omega) (by omega)
    rw [hmod]
    exact Int.toNat_natCast _

theorem rcuFree {head : ℕ} (hs : s.step g nid w (.rcuFree t head) = some s') : Kept g w s' := by
  simp only [Caches.step] at hs
  split_ifs at hs with hguard
  obtain ⟨⟨o, stage⟩, hfind, rfl⟩ := Option.map_eq_some_iff.mp hs
  have hmem := List.mem_of_find?_eq_some hfind
  obtain rfl : stage = .queued head [] := by simpa using List.find?_some hfind
  obtain ⟨haddr, hsize⟩ := hk.rcuFree_eq hmem
  rw [haddr, hsize]
  exact hk.kmemCacheFree hguard.1 hguard.2 hmem rfl

end Kept

end OperatingSystems.Slob
