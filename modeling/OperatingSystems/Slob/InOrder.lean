import OperatingSystems.Slob.Invariant

namespace OperatingSystems.Slob

open Library

variable {τ : Type*} {g : Config} {nid : ℕ → ℕ} {s : State τ} {cell : ℕ → ℤ} {sp p fuel : ℕ}
  {xs : List (ℕ × ℕ)}

/-- The free list from `p` on, read with `slob_units` and `slob_next` until `slob_last`. -/
def freeBlocks (g : Config) (cell : ℕ → ℤ) : ℕ → ℕ → Option (List (ℕ × ℕ))
  | 0, _ => none
  | fuel + 1, p =>
    if slobLast g cell p then some [(p, (slobUnits cell p).toNat)]
    else (freeBlocks g cell fuel (slobNext g cell p)).map ((p, (slobUnits cell p).toNat) :: ·)

/-- The entries of a partial list, read from its head on. -/
def listed (g : Config) (l : Links Entry) (c : SizeClass) : List Entry :=
  l.entriesFrom (.list c) (g.frames + 1) (l.next (.list c))

/-- The heap is in order: the free lists consist of the maximal runs of free units, in ascending
order, the counters are right, and the partial lists hold the pages that have free units. -/
structure InOrder (g : Config) (s : State τ) : Prop where
  freelist : ∀ sp, s.status sp = .heap → 0 < (s.heap.page sp).units → ∃ xs,
    freeBlocks g s.heap.mem.cell g.pageUnits (s.heap.page sp).freelist = some xs ∧
    xs.Pairwise (fun x y => x.1 < y.1) ∧ ∀ x, x ∈ xs ↔
      MaximalRun (fun u => ¬ Live g s.live u) (sp * g.pageUnits) ((sp + 1) * g.pageUnits) x
  units : ∀ sp, s.status sp = .heap → (s.heap.page sp).units =
    ((Finset.Ico (sp * g.pageUnits) ((sp + 1) * g.pageUnits)).filter fun u => ¬ Live g s.live u).card
  lists : ∀ c, s.heap.links.Ring (.list c) (listed g s.heap.links c)
  linked : ∀ sp, s.status sp = .heap →
    (listed g s.heap.links .small).count (.lru sp) + (listed g s.heap.links .medium).count (.lru sp) +
      (listed g s.heap.links .large).count (.lru sp) = if 0 < (s.heap.page sp).units then 1 else 0
  placed : ∀ b ∈ s.live, Placed g s.status b
  disjoint : s.live.Pairwise fun a b => ∀ u, a.Has g u → ¬ b.Has g u

theorem freeBlocks_spec (hpage : OnPage g 0 sp xs) (hblocks : Blocks g cell p xs ((sp + 1) * g.pageUnits))
    (hne : xs ≠ []) (hfuel : xs.length ≤ fuel) : freeBlocks g cell fuel p = some xs := by
  induction xs generalizing p fuel with
  | nil => exact absurd rfl hne
  | cons x xs ih =>
    have hfront : OnPage g 0 sp ([] ++ x :: xs) := hpage
    have hbase := hfront.base_eq
    obtain ⟨⟨hlo, hpos, hhi⟩, hrest⟩ := hpage
    obtain ⟨rfl, r, hr, hxs⟩ := hblocks
    obtain ⟨fuel, rfl⟩ : ∃ f, fuel = f + 1 := ⟨fuel - 1, by rw [List.length_cons] at hfuel; omega⟩
    have hlast := hr.slobLast_iff
    rw [hbase, ← Nat.succ_mul, Nat.succ_eq_add_one] at hlast
    rw [freeBlocks, hr.slobUnits_eq, hr.slobNext_eq, Int.toNat_natCast]
    cases xs with
    | nil => rw [if_pos (hlast.mpr hxs)]
    | cons y ys =>
      have hy := hrest.1
      have hry : r = y.1 := hxs.1
      rw [if_neg (hlast.not.mpr (by omega)), ih (hrest.mono_lo (by omega)) hxs (List.cons_ne_nil y ys)
        (Nat.le_of_succ_le_succ hfuel)]
      rfl

/-- The free blocks of a page, read from its free list. -/
theorem Manages.freeBlocks {h : Heap} (hm : Manages g h sp xs) (hne : xs ≠ []) :
    freeBlocks g h.mem.cell g.pageUnits (h.page sp).freelist = some xs :=
  freeBlocks_spec hm.onPage.weaken (hm.blocks hne) hne hm.length_le

namespace Layout

variable {h : Heap} {status : ℕ → Status} {live : List Block} {ls : SizeClass → List ℕ}
  {runs : ℕ → List (ℕ × ℕ)}

theorem covers_iff (hl : Layout g h status live ls runs) (hsp : status sp = .heap) (u : ℕ)
    (hle : sp * g.pageUnits ≤ u) (hlt : u < (sp + 1) * g.pageUnits) :
    Covers (runs sp) u ↔ ¬ Live g live u := by
  have hu := Config.pageOf_eq hle hlt
  have hcovers := hl.covers u (hu.symm ▸ hsp)
  rwa [hu] at hcovers

theorem units_pos_iff (hl : Layout g h status live ls runs) (hsp : status sp = .heap) :
    0 < (h.page sp).units ↔ runs sp ≠ [] := by
  have hm := hl.manages sp hsp
  rw [hm.units, Int.natCast_pos, Nat.pos_iff_ne_zero, ne_eq, hm.onPage.runsSize_eq_zero]

theorem listed_eq (hl : Layout g h status live ls runs) (c : SizeClass) :
    listed g h.links c = (ls c).map .lru := by
  apply (hl.lists.ring c).entriesFrom
  rw [List.length_map]
  exact Nat.lt_succ_of_le (hl.length_le c)

/-- A page with free units is on one list, once. -/
theorem count_listed (hl : Layout g h status live ls runs) (hsp : status sp = .heap) :
    (listed g h.links .small).count (.lru sp) + (listed g h.links .medium).count (.lru sp) +
      (listed g h.links .large).count (.lru sp) = if 0 < (h.page sp).units then 1 else 0 := by
  have hinj : Function.Injective Entry.lru := fun _ _ => Entry.lru.inj
  have hnone : ∀ c, sp ∉ ls c → (listed g h.links c).count (.lru sp) = 0 := by
    intro c hc
    rw [hl.listed_eq, List.count_map_of_injective _ _ hinj]
    exact List.count_eq_zero_of_not_mem hc
  have hone : ∀ c, sp ∈ ls c → (listed g h.links c).count (.lru sp) = 1 := by
    intro c hc
    rw [hl.listed_eq]
    exact List.count_eq_one_of_mem (List.nodup_cons.mp (hl.lists.ring c).nodup).2 (List.mem_map_of_mem hc)
  have hiff : 0 < (h.page sp).units ↔ ∃ c, sp ∈ ls c := by
    rw [hl.units_pos_iff hsp, hl.mem_iff, and_iff_right hsp]
  split_ifs with hpos
  · obtain ⟨c, hc⟩ := hiff.mp hpos
    have hzero : ∀ c', c' ≠ c → (listed g h.links c').count (.lru sp) = 0 :=
      fun c' hne => hnone c' (hl.not_mem_of_ne hc c' hne)
    cases c <;> simp [hone _ hc, hzero]
  · have hnot : ∀ c, sp ∉ ls c := fun c hc => hpos (hiff.mpr ⟨c, hc⟩)
    rw [hnone _ (hnot _), hnone _ (hnot _), hnone _ (hnot _)]

theorem inOrder {s : State τ} (hl : Layout g s.heap s.status s.live ls runs) : InOrder g s := by
  refine ⟨fun sp hsp hpos => ?_, fun sp hsp => ?_, fun c => ?_, fun sp hsp => hl.count_listed hsp,
    hl.placed, hl.disjoint⟩
  · have hm := hl.manages sp hsp
    have hne := (hl.units_pos_iff hsp).mp hpos
    refine ⟨runs sp, hm.freeBlocks hne, ?_, fun x => ?_⟩
    · exact hm.onPage.pairwise.imp fun hxy => by omega
    · exact hm.onPage.mem_iff_maximalRun (hl.covers_iff hsp)
  · have hm := hl.manages sp hsp
    rw [hm.units, hm.onPage.card_filter (hl.covers_iff hsp)]
  · rw [hl.listed_eq]
    exact hl.lists.ring c

end Layout

variable [DecidableEq τ]

/-- After any calls of `slob_alloc` and `slob_free`, in any interleaving of their locked sections. -/
theorem inOrder_of_reachable (h : (machine g nid).Reachable s) : InOrder g s := by
  obtain ⟨ls, runs, hl⟩ := (invariant h).layout
  exact hl.inOrder

/-- A machine with four pages of 4 KiB, before any call. -/
def smallConfig : Config := ⟨12, 4, by decide, by decide⟩

def emptyState : State ℕ where
  heap := ⟨⟨fun _ => 0, []⟩, fun _ => ⟨0, 0, false, false⟩, ⟨id, id⟩⟩
  status := fun _ => .outside
  live := []
  point := fun _ => .idle

theorem emptyState_emptyHeap : EmptyHeap emptyState :=
  ⟨fun _ => ⟨rfl, rfl⟩, fun _ => rfl, rfl, fun _ => rfl, fun _ => rfl⟩

/-- Two threads allocate four blocks on one page, two of them aligned, and free the first. -/
def fourBlocks : List (Event ℕ) :=
  [.alloc 0 ⟨100, 0, none⟩, .newPages 0 (some 2), .addPage 0, .alloc 0 ⟨7, 64, none⟩,
    .alloc 1 ⟨1, 0, none⟩, .alloc 1 ⟨30, 16, none⟩, .free 0 ⟨4096, 100, 0⟩]

theorem inOrder_after_fourBlocks : ∃ s,
    (machine smallConfig fun _ => 0).run emptyState fourBlocks = some s ∧
      s.live.map Block.start = [4168, 4146, 4160] ∧ (s.heap.page 2).units = 2028 ∧
      InOrder smallConfig s := by
  obtain ⟨s, hr, hlive, hunits⟩ : ∃ s,
      (machine smallConfig fun _ => 0).run emptyState fourBlocks = some s ∧
        s.live.map Block.start = [4168, 4146, 4160] ∧ (s.heap.page 2).units = 2028 :=
    ⟨_, rfl, rfl, rfl⟩
  exact ⟨s, hr, hlive, hunits, inOrder_of_reachable ⟨emptyState, _, emptyState_emptyHeap, hr⟩⟩

end OperatingSystems.Slob
