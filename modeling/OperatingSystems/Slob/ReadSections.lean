import OperatingSystems.Slob.CacheRuns

namespace OperatingSystems.Slob

open Library

variable {τ : Type*} [DecidableEq τ] {g : Config} {nid : ℕ → ℕ} {w : PointerSize} {s s' : Caches τ}
  {o : Object} {t : τ} {x : Object × Stage τ} {c : Cache} {b : Block} {stage : Stage τ} {op : CacheOp τ}

/-- An object is as it was asked for, and its memory is taken. -/
structure Object.Sound (g : Config) (s : Caches τ) (o : Object) : Prop where
  aligned : o.cache.align ≠ 0 → o.cache.align ∣ o.addr * g.slobUnit
  room : ∀ a, o.addr * g.slobUnit ≤ a → a < o.addr * g.slobUnit + o.cache.size → o.Has g (a / g.slobUnit)
  reserved : o.Reserved g s.slob.live s.held
  pages : ∀ u, o.Has g u → s.slob.status (g.pageOf u) =
    if o.cache.size < g.pageSize then .heap else .outside

/-- What `kmem_rcu_free` starts is to free what `slob_alloc_node` took. -/
def Object.GivenBack (g : Config) (s s' : Caches τ) (t : τ) (o : Object) : Prop :=
  if o.cache.size < g.pageSize then s'.call t = .free o.block ∧ s'.held = s.held
  else s'.call t = s.call t ∧ s'.held = s.held.erase (g.pageOf o.addr, g.getOrder o.cache.size)

namespace Kept

variable (hk : Kept g w s)
include hk

omit [DecidableEq τ] in
theorem sound (hx : x ∈ s.objects) : x.1.Sound g s := by
  refine ⟨fun hne => ?_, fun a => Object.has_of_byte, hk.reserved x hx, fun u hu => ?_⟩
  · have hres := hk.reserved x hx
    by_cases hsmall : x.1.cache.size < g.pageSize
    · rw [Object.Reserved, if_pos hsmall] at hres
      obtain ⟨ls, runs, hl⟩ := hk.slob.layout
      exact (hl.placed _ hres).aligned hne
    · rw [Object.Reserved, if_neg hsmall] at hres
      obtain ⟨hpow, hle⟩ := (hk.valid x hx).align.resolve_left hne
      rw [hres.1]
      exact dvd_base (.inr ⟨_, hpow.symm⟩) hle hne
  · rcases (hk.reserved x hx).status hk.slob hk.outside hu with ⟨hsmall, -, -, hheap⟩ | ⟨hlarge, -, hout⟩
    · rw [if_pos hsmall, hheap]
    · rw [if_neg hlarge, hout]

theorem rcuFree_back {head : ℕ} (hmem : (o, .queued head []) ∈ s.objects) (hidle : s.call t = .idle)
    (hpoint : s.slob.point t = .idle) :
    ∃ s', s.step g nid w (.rcuFree t head) = some s' ∧ o.GivenBack g s s' t := by
  obtain ⟨y, hy⟩ : ∃ y, s.objects.find? (fun x => x.2 = .queued head []) = some y := by
    apply Option.isSome_iff_exists.mp
    rw [List.find?_isSome]
    exact ⟨_, hmem, by simp⟩
  have hstage : y.2 = .queued head [] := by simpa using List.find?_some hy
  have hyo : y = (o, .queued head []) := by
    -- the two heads are at the same place
    by_contra hne
    have hy' : (y.1, .queued head []) ∈ s.objects := by
      rw [← hstage]
      exact List.mem_of_find?_eq_some hy
    have hin := hk.field_inside hy'
    have hin' := hk.field_inside hmem
    have hapart : y.1.Apart g o := hk.disjoint.forall (List.mem_of_find?_eq_some hy) hmem hne
    exact hapart (head / g.slobUnit) (Object.has_of_byte (by omega) (by omega))
      (Object.has_of_byte (by omega) (by omega))
  subst hyo
  obtain ⟨haddr, hsize⟩ := hk.rcuFree_eq hmem
  simp only [Caches.step, if_pos (And.intro hidle hpoint), hy, Option.map_some, haddr, hsize]
  refine ⟨_, rfl, ?_⟩
  rw [Object.GivenBack, Caches.kmemCacheFree]
  split_ifs
  · exact ⟨Function.update_self .., rfl⟩
  · exact ⟨rfl, rfl⟩

/-- `slob_free` gets a live block, whole. -/
theorem slobFree_back (hcall : s.call t = .free b) : b ∈ s.slob.live ∧
    ∃ s', s.step g nid w (.slobFree t) = some s' ∧ s'.slob.live = s.slob.live.erase b := by
  obtain ⟨hidle, hlive⟩ := hk.free_ready hcall
  obtain ⟨ls, runs, hl⟩ := hk.slob.layout
  obtain ⟨slob, hslob, hd⟩ := free_does hl nid hidle hlive
  rw [← State.slobFree_eq nid hidle hlive] at hslob
  simp only [Caches.step, hcall, hslob, Option.map_some]
  refine ⟨hlive, _, rfl, ?_⟩
  cases hd <;> rfl

end Kept

def noCaches : Caches ℕ := ⟨emptyState, [], [], [], [], fun _ => .idle⟩

/-- Objects of 13 bytes; their `struct slob_rcu` begins at an odd address. -/
def oddCache : Cache := kmemCacheCreate .eight ⟨13, 13, 8, false⟩ true

/-- An object is freed while thread 1 reads it, its cache goes away, and thread 1 leaves its section. -/
def freedWhileRead : List (CacheOp ℕ) :=
  [.create 13 8 true, .alloc 0 oddCache none none, .newPages 0 (some 2), .addPage 0, .setUp 0 8193 255,
    .ret 0, .readLock 1, .free 0 oddCache 4096, .shutdown oddCache, .write 8204 7, .writeHead 8205 9,
    .readUnlock 1]

/-- The slab caches hand out memory that nobody else has, and give back what they took: `kmem_rcu_free`
finds an object and its size in what `kmem_cache_free` left there, even when the cache is gone. -/
theorem caches_give_back (h : (slabCaches g nid w).Reachable s) :
    s.objects.Pairwise (fun x y => x.1.Apart g y.1) ∧
    (∀ x ∈ s.objects, x.1.Sound g s) ∧
    (∀ o head readers, (o, .queued head readers) ∈ s.objects → readers ⊆ s.readers ∧
      (readers = [] → ∀ t, s.call t = .idle → s.slob.point t = .idle →
        ∃ s', s.step g nid w (.rcuFree t head) = some s' ∧ o.GivenBack g s s' t)) ∧
    ∀ t b, s.call t = .free b → b ∈ s.slob.live ∧
      ∃ s', s.step g nid w (.slobFree t) = some s' ∧ s'.slob.live = s.slob.live.erase b := by
  have hk : Kept g w s := .of_reachable h
  refine ⟨hk.disjoint, fun x => hk.sound, fun o head readers hmem => ⟨?_, ?_⟩, fun t b => hk.slobFree_back⟩
  · have hfits : (Stage.queued head readers).Fits g w s o := hk.stages _ hmem
    exact hfits.2.2.2
  · rintro rfl t hidle hpoint
    exact hk.rcuFree_back hmem hidle hpoint

theorem noCaches_init : (slabCaches smallConfig (fun _ => 0) .eight).init noCaches :=
  ⟨emptyState_emptyHeap, rfl, rfl, rfl, rfl, fun _ => rfl⟩

theorem caches_give_back_freedWhileRead : ∃ s s',
    (slabCaches smallConfig (fun _ => 0) .eight).run noCaches freedWhileRead = some s ∧
      s.caches = [] ∧ s.objects = [(⟨oddCache, 4096⟩, .queued 8205 [])] ∧
      s.step smallConfig (fun _ => 0) .eight (.rcuFree 2 8205) = some s' ∧
      s'.call 2 = .free ⟨4096, 37, 8⟩ := by
  obtain ⟨s, hr, hcaches, hobjects, hcall, hpoint⟩ : ∃ s,
      (slabCaches smallConfig (fun _ => 0) .eight).run noCaches freedWhileRead = some s ∧
      s.caches = [] ∧ s.objects = [(⟨oddCache, 4096⟩, .queued 8205 [])] ∧ s.call 2 = .idle ∧
      s.slob.point 2 = .idle := ⟨_, rfl, rfl, rfl, rfl, rfl⟩
  obtain ⟨-, -, hqueued, -⟩ := caches_give_back ⟨noCaches, _, noCaches_init, hr⟩
  obtain ⟨s', hs, hback, -⟩ :=
    (hqueued ⟨oddCache, 4096⟩ 8205 [] (by simp [hobjects])).2 rfl 2 hcall hpoint
  exact ⟨s, s', hr, hcaches, hobjects, hs, hback⟩

/-- A reader may still use the object. -/
def Stage.Visible (t : τ) : Stage τ → Prop
  | inUse => True
  | queued _ readers => t ∈ readers
  | _ => False

/-- The reader `t` is in its section, and the object is not given back. -/
structure Protected (s : Caches τ) (t : τ) (o : Object) : Prop where
  reading : t ∈ s.readers
  object : ∃ stage : Stage τ, (o, stage) ∈ s.objects ∧ stage.Visible t

/-- `__kmem_cache_free` of another object, or of one that nobody reads. -/
theorem kmemCacheFree_keeps (g : Config) (t : τ) (b size : ℕ) {y : Object × Stage τ}
    (hne : (o, stage) ≠ y) (hmem : (o, stage) ∈ s.objects) : (s.kmemCacheFree g t b size y).readers = s.readers ∧
      (o, stage) ∈ (s.kmemCacheFree g t b size y).objects := by
  have herase : (o, stage) ∈ s.objects.erase y := (List.mem_erase_of_ne hne).mpr hmem
  rw [Caches.kmemCacheFree]
  split_ifs
  · exact ⟨rfl, List.mem_cons_of_mem _ herase⟩
  · exact ⟨rfl, herase⟩

theorem protected_free {u : τ} {b : ℕ} (hrcu : o.cache.destroyByRcu = true) (h : Protected s t o)
    (hs : s.step g nid w (.free u c b) = some s') : Protected s' t o := by
  obtain ⟨hreading, stage, hmem, hvisible⟩ := h
  simp only [Caches.step] at hs
  split_ifs at hs with hguard hflag
  · obtain rfl := Option.some.inj hs
    by_cases heq : (o, stage) = (⟨c, b⟩, .inUse)
    · -- the object waits for this reader, too
      obtain ⟨rfl, rfl⟩ := Prod.mk.inj heq
      exact ⟨hreading, _, List.mem_cons_self, hreading⟩
    · exact ⟨hreading, stage, List.mem_cons_of_mem _ ((List.mem_erase_of_ne heq).mpr hmem), hvisible⟩
  · obtain rfl := Option.some.inj hs
    have hne : (o, stage) ≠ (⟨c, b⟩, .inUse) := by
      intro heq
      obtain ⟨rfl, -⟩ := Prod.mk.inj heq
      exact hflag hrcu
    obtain ⟨hreaders, hmem'⟩ := kmemCacheFree_keeps g u b c.size hne hmem
    exact ⟨hreaders ▸ hreading, stage, hmem', hvisible⟩

theorem protected_readUnlock {u : τ} (hne : t ≠ u) (h : Protected s t o)
    (hs : s.step g nid w (.readUnlock u) = some s') : Protected s' t o := by
  obtain ⟨hreading, stage, hmem, hvisible⟩ := h
  simp only [Caches.step] at hs
  split_ifs at hs
  obtain rfl := Option.some.inj hs
  refine ⟨List.mem_filter.mpr ⟨hreading, by simpa using hne⟩, stage.unlock u,
    List.mem_map.mpr ⟨_, hmem, rfl⟩, ?_⟩
  cases stage with
  | inUse => trivial
  | queued head readers => exact List.mem_filter.mpr ⟨hvisible, by simpa using hne⟩
  | fresh | leaving => exact hvisible

theorem protected_step (hrcu : o.cache.destroyByRcu = true) (hne : op ≠ .readUnlock t)
    (h : Protected s t o) (hs : s.step g nid w op = some s') : Protected s' t o := by
  have hprotected := h
  obtain ⟨hreading, stage, hmem, hvisible⟩ := h
  -- most steps leave the object where it is
  have keep : s'.readers = s.readers → (o, stage) ∈ s'.objects → Protected s' t o :=
    fun hreaders hmem' => ⟨hreaders ▸ hreading, stage, hmem', hvisible⟩
  cases op with
  | free => exact protected_free hrcu hprotected hs
  | readUnlock u =>
    refine protected_readUnlock ?_ hprotected hs
    rintro rfl
    exact hne rfl
  | rcuFree u head =>
    simp only [Caches.step] at hs
    split_ifs at hs
    obtain ⟨y, hfind, rfl⟩ := Option.map_eq_some_iff.mp hs
    have hy : (o, stage) ≠ y := by
      rintro rfl
      obtain rfl : stage = .queued head [] := by simpa using List.find?_some hfind
      cases hvisible
    obtain ⟨hreaders, hmem'⟩ := kmemCacheFree_keeps g _ _ _ hy hmem
    exact keep hreaders hmem'
  | slobFree u =>
    cases hcall : s.call u <;> simp only [Caches.step, hcall, reduceCtorEq] at hs
    obtain ⟨slob, -, rfl⟩ := Option.map_eq_some_iff.mp hs
    refine keep rfl (List.mem_filter.mpr ⟨hmem, ?_⟩)
    cases stage with
    | leaving => cases hvisible
    | inUse | queued | fresh => rfl
  | ret u =>
    cases hcall : s.call u <;> simp only [Caches.step, hcall, reduceCtorEq] at hs
    obtain rfl := Option.some.inj hs
    refine keep rfl (List.mem_cons_of_mem _ ((List.mem_erase_of_ne ?_).mpr hmem))
    intro heq
    obtain ⟨-, rfl⟩ := Prod.mk.inj heq
    cases hvisible
  | alloc u c node pages =>
    simp only [Caches.step] at hs
    split_ifs at hs with hguard hsmall
    · obtain ⟨slob, -, rfl⟩ := Option.map_eq_some_iff.mp hs
      refine keep ?_ ?_
      · split_ifs <;> rfl
      · split_ifs
        · exact List.mem_cons_of_mem _ hmem
        · exact hmem
    · cases pages with
      | none => exact Option.some.inj hs ▸ hprotected
      | some sp =>
        simp only at hs
        split_ifs at hs
        obtain rfl := Option.some.inj hs
        exact keep rfl (List.mem_cons_of_mem _ hmem)
  | newPages u sp =>
    cases hcall : s.call u <;> simp only [Caches.step, hcall, reduceCtorEq] at hs
    split_ifs at hs
    all_goals
      obtain ⟨slob, -, rfl⟩ := Option.map_eq_some_iff.mp hs
      exact keep rfl hmem
  | addPage u =>
    cases hcall : s.call u <;> simp only [Caches.step, hcall, reduceCtorEq] at hs
    obtain ⟨slob, -, rfl⟩ := Option.map_eq_some_iff.mp hs
    exact keep rfl (List.mem_cons_of_mem _ hmem)
  | freePages u =>
    cases hcall : s.call u <;> simp only [Caches.step, hcall, reduceCtorEq] at hs
    obtain ⟨slob, -, rfl⟩ := Option.map_eq_some_iff.mp hs
    exact keep rfl hmem
  | setUp u a v =>
    cases hcall : s.call u <;> simp only [Caches.step, hcall, reduceCtorEq] at hs
    split_ifs at hs
    obtain rfl := Option.some.inj hs
    exact keep rfl hmem
  | readLock u =>
    simp only [Caches.step] at hs
    split_ifs at hs
    obtain rfl := Option.some.inj hs
    exact ⟨List.mem_cons_of_mem _ hreading, stage, hmem, hvisible⟩
  | other e =>
    simp only [Caches.step] at hs
    split_ifs at hs
    obtain ⟨slob, -, rfl⟩ := Option.map_eq_some_iff.mp hs
    exact keep rfl hmem
  | create | write | writeHead =>
    simp only [Caches.step] at hs
    split_ifs at hs
    obtain rfl := Option.some.inj hs
    exact keep rfl hmem
  | shutdown =>
    obtain rfl := Option.some.inj hs
    exact keep rfl hmem

theorem protected_run {ops : List (CacheOp τ)} (hrcu : o.cache.destroyByRcu = true)
    (hne : .readUnlock t ∉ ops) (h : Protected s t o)
    (hr : (slabCaches g nid w).run s ops = some s') : Protected s' t o := by
  induction ops generalizing s with
  | nil => exact Option.some.inj hr ▸ h
  | cons op ops ih =>
    obtain ⟨s₁, hstep, hrest⟩ := Machine.run_cons_eq_some.mp hr
    have hfirst : op ≠ .readUnlock t := fun heq => hne (heq ▸ List.mem_cons_self)
    exact ih (fun hmem => hne (List.mem_cons_of_mem op hmem)) (protected_step hrcu hfirst h hstep) hrest

/-- An object of a `SLAB_DESTROY_BY_RCU` cache that is in use while a reader is in its section stays an
object of that cache until the reader leaves, whoever frees it meanwhile; nobody else gets its memory. -/
theorem reader_keeps_object {ops : List (CacheOp τ)} (h : (slabCaches g nid w).Reachable s)
    (hreading : t ∈ s.readers) (hmem : (o, .inUse) ∈ s.objects) (hrcu : o.cache.destroyByRcu = true)
    (hr : (slabCaches g nid w).run s ops = some s') (hne : .readUnlock t ∉ ops) :
    ∃ stage : Stage τ, (o, stage) ∈ s'.objects ∧ stage.Visible t ∧ o.Sound g s' ∧
      ∀ x ∈ s'.objects, x ≠ (o, stage) → x.1.Apart g o := by
  have hk : Kept g w s' := .of_reachable (h.run hr)
  obtain ⟨-, stage, hmem', hvisible⟩ := protected_run hrcu hne ⟨hreading, _, hmem, trivial⟩ hr
  exact ⟨stage, hmem', hvisible, hk.sound hmem', fun x hx hxo => hk.disjoint.forall hx hmem' hxo⟩

theorem reader_keeps_object_freedWhileRead : ∃ s s',
    (slabCaches smallConfig (fun _ => 0) .eight).run noCaches (freedWhileRead.take 7) = some s ∧
      (slabCaches smallConfig (fun _ => 0) .eight).run s
        [.free 0 oddCache 4096, .shutdown oddCache, .write 8204 7] = some s' ∧
      Object.Sound smallConfig s' ⟨oddCache, 4096⟩ := by
  obtain ⟨s, s', hr, hreaders, hobjects, hr'⟩ : ∃ s s',
      (slabCaches smallConfig (fun _ => 0) .eight).run noCaches (freedWhileRead.take 7) = some s ∧
      s.readers = [1] ∧ s.objects = [(⟨oddCache, 4096⟩, .inUse)] ∧
      (slabCaches smallConfig (fun _ => 0) .eight).run s
        [.free 0 oddCache 4096, .shutdown oddCache, .write 8204 7] = some s' := ⟨_, _, rfl, rfl, rfl, rfl⟩
  obtain ⟨stage, -, -, hsound, -⟩ := reader_keeps_object ⟨noCaches, _, noCaches_init, hr⟩
    (t := 1) (o := ⟨oddCache, 4096⟩) (by simp [hreaders]) (by simp [hobjects]) rfl hr' (by simp)
  exact ⟨s, s', hr, hr', hsound⟩

end OperatingSystems.Slob
