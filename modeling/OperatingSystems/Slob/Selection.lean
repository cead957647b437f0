import Mathlib.Order.Bounds.Defs
import OperatingSystems.Slob.BestFit

namespace OperatingSystems.Slob

open Library

variable {g : Config} {h : Heap} {sp size align a : ℕ} {x : ℕ × ℕ} {xs : List (ℕ × ℕ)}

/-- The distance from the unit `a` to the next address that is a multiple of `align`, in units. -/
def padding (g : Config) (align a : ℕ) : ℕ :=
  if align = 0 then 0 else (align - a * g.slobUnit % align) % align / g.slobUnit

/-- The block has room for the request behind its padding. -/
def HasRoom (g : Config) (size align : ℕ) (x : ℕ × ℕ) : Prop :=
  padding g align x.1 + g.unitsOf size ≤ x.2

instance (g : Config) (size align : ℕ) (x : ℕ × ℕ) : Decidable (HasRoom g size align x) :=
  inferInstanceAs (Decidable (_ ≤ _))

/-- What the block has left over behind the request. -/
def leftOver (g : Config) (size align : ℕ) (x : ℕ × ℕ) : ℕ :=
  x.2 - (padding g align x.1 + g.unitsOf size)

/-- The distance to the next multiple. -/
theorem distance_isLeast {m n : ℕ} (hpos : 0 < m) : IsLeast {e | m ∣ n + e} ((m - n % m) % m) := by
  have hlt := Nat.mod_lt n hpos
  have hsplit := Nat.div_add_mod n m
  have hiff : ∀ e, m ∣ n + e ↔ m ∣ n % m + e := by
    intro e
    conv_lhs => rw [← hsplit, Nat.add_assoc]
    exact Nat.dvd_add_right (Nat.dvd_mul_right m _)
  by_cases hzero : n % m = 0
  · rw [hzero, Nat.sub_zero, Nat.mod_self]
    refine ⟨?_, fun e _ => Nat.zero_le e⟩
    exact Nat.dvd_of_mod_eq_zero hzero
  · rw [Nat.mod_eq_of_lt (by omega)]
    refine ⟨(hiff _).mpr ?_, fun e he => ?_⟩
    · rw [Nat.add_sub_cancel' hlt.le]
    · have hle := Nat.le_of_dvd (by omega) ((hiff e).mp he)
      omega

theorem padding_isLeast (halign : ValidAlign align) (hne : align ≠ 0) :
    IsLeast {d | align ∣ (a + d) * g.slobUnit} (padding g align a) := by
  obtain ⟨j, hj⟩ := g.slobUnit_pow
  obtain ⟨k, hk⟩ := halign.resolve_left hne
  obtain ⟨q, hq⟩ : ∃ q, q = (align - a * g.slobUnit % align) % align := ⟨_, rfl⟩
  obtain ⟨hdvd, hleast⟩ : IsLeast {e | align ∣ a * g.slobUnit + e} q :=
    hq ▸ distance_isLeast (Nat.pos_of_ne_zero hne)
  have hunits : q / g.slobUnit * g.slobUnit = q := by
    apply Nat.div_mul_cancel
    rcases Nat.le_total j k with hjk | hkj
    · have hunit : g.slobUnit ∣ align := by
        rw [hj, hk]
        exact pow_dvd_pow 2 hjk
      exact (Nat.dvd_add_right (Nat.dvd_mul_left g.slobUnit a)).mp (hunit.trans hdvd)
    · -- every unit is aligned
      have hzero : align ∣ a * g.slobUnit + 0 := by
        rw [hj, hk]
        exact Dvd.dvd.mul_left (pow_dvd_pow 2 hkj) a
      rw [Nat.le_zero.mp (hleast hzero)]
      exact Nat.dvd_zero _
  rw [padding, if_neg hne, ← hq]
  constructor
  · change align ∣ (a + q / g.slobUnit) * g.slobUnit
    rw [Nat.add_mul, hunits]
    exact hdvd
  · intro d hd
    change align ∣ (a + d) * g.slobUnit at hd
    rw [Nat.add_mul] at hd
    exact Nat.div_le_of_le_mul (Nat.mul_comm _ _ ▸ hleast hd)

/-- It is the `delta` of the source. -/
theorem padding_eq (halign : ValidAlign align) : padding g align a = (alignBlock g align a).2 := by
  by_cases hne : align = 0
  · rw [padding, alignBlock, if_pos hne, if_pos hne]
  · obtain ⟨-, hdvd, hleast⟩ := alignBlock_spec (g := g) (a := a) halign
    have hp := padding_isLeast (g := g) (a := a) halign hne
    exact Nat.le_antisymm (hp.2 (hdvd hne)) (hleast _ hp.1)

theorem hasRoom_iff (halign : ValidAlign align) :
    HasRoom g size align x ↔ 0 ≤ slack g (g.unitsOf size) align x := by
  rw [HasRoom, padding_eq halign, slack]
  omega

theorem HasRoom.slack_eq (hx : HasRoom g size align x) (halign : ValidAlign align) :
    slack g (g.unitsOf size) align x = leftOver g size align x := by
  rw [HasRoom, padding_eq halign] at hx
  rw [leftOver, padding_eq halign, slack]
  omega

/-- The free blocks that a request leaves of the block `x`: its padding and what it has left over. -/
def remains (g : Config) (size align : ℕ) (x : ℕ × ℕ) : List (ℕ × ℕ) :=
  (if padding g align x.1 = 0 then [] else [(x.1, padding g align x.1)]) ++
    if leftOver g size align x = 0 then []
    else [(x.1 + padding g align x.1 + g.unitsOf size, leftOver g size align x)]

theorem HasRoom.carve_eq (hx : HasRoom g size align x) :
    carve x (padding g align x.1) (g.unitsOf size) = remains g size align x := by
  rw [HasRoom] at hx
  have hiff : padding g align x.1 + g.unitsOf size = x.2 ↔ leftOver g size align x = 0 := by
    rw [leftOver]
    omega
  simp only [carve, remains, hiff]
  rfl

/-- The free block that best fit selects: none with room has less left over, and none below it has as
little. -/
structure Selects (g : Config) (size align : ℕ) (xs : List (ℕ × ℕ)) (x : ℕ × ℕ) : Prop where
  mem : x ∈ xs
  room : HasRoom g size align x
  least : ∀ y ∈ xs, HasRoom g size align y → leftOver g size align x ≤ leftOver g size align y
  lowest : ∀ y ∈ xs, HasRoom g size align y → leftOver g size align y = leftOver g size align x →
    x.1 ≤ y.1

/-- A request of any size comes back, with `NULL` when no free block has room for it. -/
theorem slobPageAlloc_returns (hm : Manages g h sp xs) (hne : xs ≠ []) (size : ℕ)
    (halign : ValidAlign align) : ∃ h' b, slobPageAlloc g h sp size align = some (h', b) ∧
      (b = none ↔ ∀ x ∈ xs, ¬ HasRoom g size align x) := by
  obtain ⟨best, hscan, hscanned⟩ := hm.bestFitScan hne (g.unitsOf size) align
  rw [slobPageAlloc, useBestFit, if_pos rfl, hscan]
  cases hb : best with
  | none =>
    refine ⟨h, none, rfl, iff_of_true rfl fun x hx hroom => ?_⟩
    exact absurd (hscanned.none hb x hx) (not_lt.mpr ((hasRoom_iff halign).mp hroom))
  | some b =>
    refine ⟨_, some _, rfl, iff_of_false (Option.some_ne_none _) fun hnone => ?_⟩
    have hpicks := hscanned.picks b hb
    obtain ⟨ys, n, zs, rfl, -, hdiff⟩ := hpicks.split
    exact hnone (b.cur, n) (by simp) ((hasRoom_iff halign).mpr (hdiff ▸ hpicks.fits))

/-- The block is taken from the one that best fit selects, of which the rest stays free. -/
theorem Served.selects {h' : Heap} {b : ℕ} (hs : Served g sp size align xs h h' b)
    (halign : ValidAlign align) : ∃ ys x zs, xs = ys ++ x :: zs ∧ Selects g size align xs x ∧
      b = x.1 + padding g align x.1 ∧ Manages g h' sp (ys ++ remains g size align x ++ zs) := by
  obtain ⟨ys, x, zs, d, hsplit, hd, hb, hfits, hleast, hcarves⟩ := hs
  rw [← padding_eq halign] at hd
  have hroom := (hasRoom_iff halign).mpr hfits
  have hslack := hroom.slack_eq halign
  refine ⟨ys, x, zs, hsplit, ⟨?_, hroom, fun y hy hroomy => ?_, fun y hy hroomy heq => ?_⟩, ?_, ?_⟩
  · rw [hsplit]
    simp
  · have hle := (hleast y hy ((hasRoom_iff halign).mp hroomy)).1
    rw [hslack, hroomy.slack_eq halign] at hle
    exact Int.ofNat_le.mp hle
  · by_contra hbelow
    have hlt := (hleast y hy ((hasRoom_iff halign).mp hroomy)).2 (not_le.mp hbelow)
    rw [hslack, hroomy.slack_eq halign, heq] at hlt
    exact lt_irrefl _ hlt
  · rw [hb, hd]
  · have hmanages := hcarves.manages
    rw [hd, hroom.carve_eq] at hmanages
    rwa [List.append_assoc]

/-- `slob_page_alloc` on a page with free blocks returns `NULL` exactly when none of them has room, and
otherwise the aligned start of the one with the least left over, the lowest of several; of that block
its padding and what it has left over stay free. Sizes are those that fit in `units`, an `int`. -/
theorem best_fit_selection (hm : Manages g h sp xs) (hne : xs ≠ []) (_hsize : size < g.pageSize)
    (halign : ValidAlign align) : ∃ h' b, slobPageAlloc g h sp size align = some (h', b) ∧
      (b = none ↔ ∀ x ∈ xs, ¬ HasRoom g size align x) ∧
      ∀ a, b = some a → 0 < size → ∃ ys x zs, xs = ys ++ x :: zs ∧ Selects g size align xs x ∧
        a = x.1 + padding g align x.1 ∧ Manages g h' sp (ys ++ remains g size align x ++ zs) := by
  obtain ⟨h', b, halloc, hnone⟩ := slobPageAlloc_returns hm hne size halign
  refine ⟨h', b, halloc, hnone, fun a ha hpos => ?_⟩
  have hspec : (slobPageAlloc g h sp size align = _ ∧ _) ∨ _ := slobPageAlloc_spec hm hne hpos
  rcases hspec with ⟨hnull, -⟩ | ⟨h'', a', hsome, hserved⟩
  · rw [hnull] at halloc
    obtain ⟨-, rfl⟩ := Prod.mk.inj (Option.some.inj halloc)
    cases ha
  · rw [hsome] at halloc
    obtain ⟨rfl, rfl⟩ := Prod.mk.inj (Option.some.inj halloc)
    obtain rfl := Option.some.inj ha
    exact hserved.selects halign

/-- A page of a reachable heap that has free units. -/
theorem manages_freeRuns {τ : Type*} [DecidableEq τ] {nid : ℕ → ℕ} {s : State τ}
    (hs : (machine g nid).Reachable s) (hheap : s.status sp = .heap) (hunits : 0 < (s.heap.page sp).units) :
    Manages g s.heap sp (freeRuns g s.heap sp) ∧ freeRuns g s.heap sp ≠ [] := by
  obtain ⟨ls, runs, hl⟩ := (invariant hs).layout
  have hne := (hl.units_pos_iff hheap).mp hunits
  have hm := hl.manages sp hheap
  have hruns : freeRuns g s.heap sp = runs sp := by
    rw [freeRuns, hm.freeBlocks hne]
    rfl
  rw [hruns]
  exact ⟨hm, hne⟩

/-- A free block that is split in front of the request and behind it. -/
theorem best_fit_selection_after_fourBlocks : ∃ s h',
    (machine smallConfig fun _ => 0).run emptyState fourBlocks = some s ∧
      freeRuns smallConfig s.heap 2 = [(4096, 50), (4147, 13), (4164, 4), (4183, 1961)] ∧
      slobPageAlloc smallConfig s.heap 2 20 8 = some (h', some 4148) ∧
      ∃ ys x zs, freeRuns smallConfig s.heap 2 = ys ++ x :: zs ∧
        Selects smallConfig 20 8 (freeRuns smallConfig s.heap 2) x ∧
        4148 = x.1 + padding smallConfig 8 x.1 ∧
        Manages smallConfig h' 2 (ys ++ remains smallConfig 20 8 x ++ zs) := by
  obtain ⟨s, h', hr, hruns, halloc, hstatus, hunits⟩ : ∃ s h',
      (machine smallConfig fun _ => 0).run emptyState fourBlocks = some s ∧
        freeRuns smallConfig s.heap 2 = [(4096, 50), (4147, 13), (4164, 4), (4183, 1961)] ∧
        slobPageAlloc smallConfig s.heap 2 20 8 = some (h', some 4148) ∧ s.status 2 = .heap ∧
        (s.heap.page 2).units = 2028 :=
    ⟨_, _, rfl, by decide +kernel, rfl, rfl, rfl⟩
  obtain ⟨hm, hne⟩ := manages_freeRuns ⟨emptyState, _, emptyState_emptyHeap, hr⟩ hstatus
    (by rw [hunits]; decide)
  obtain ⟨h'', b, halloc', -, hselects⟩ := best_fit_selection hm hne
    (show 20 < smallConfig.pageSize by decide) (show ValidAlign 8 from .inr ⟨3, rfl⟩)
  rw [halloc] at halloc'
  obtain ⟨rfl, rfl⟩ := Prod.mk.inj (Option.some.inj halloc')
  exact ⟨s, h', hr, hruns, halloc, hselects 4148 rfl (by decide)⟩

/-- The free block that `a` lies in is no larger than any other with room for the request. -/
def FromSmallest (g : Config) (size align : ℕ) (xs : List (ℕ × ℕ)) (a : ℕ) : Prop :=
  ∀ x ∈ xs, x.1 ≤ a → a < x.1 + x.2 → ∀ y ∈ xs, HasRoom g size align y → x.2 ≤ y.2

/-- There is a smallest free block with room that every larger one exceeds in size by more than it
exceeds it in padding, or by as much, being above it. -/
def SizeOutweighsPadding (g : Config) (size align : ℕ) (xs : List (ℕ × ℕ)) : Prop :=
  ∃ x ∈ xs, HasRoom g size align x ∧ (∀ y ∈ xs, HasRoom g size align y → x.2 ≤ y.2) ∧
    ∀ y ∈ xs, HasRoom g size align y → x.2 < y.2 →
      x.2 + padding g align y.1 < y.2 + padding g align x.1 ∨
      x.2 + padding g align y.1 = y.2 + padding g align x.1 ∧ x.1 < y.1

instance (g : Config) (size align : ℕ) (xs : List (ℕ × ℕ)) (a : ℕ) :
    Decidable (FromSmallest g size align xs a) :=
  inferInstanceAs (Decidable (∀ _ ∈ xs, _ → _ → ∀ _ ∈ xs, _))

instance (g : Config) (size align : ℕ) (xs : List (ℕ × ℕ)) :
    Decidable (SizeOutweighsPadding g size align xs) :=
  inferInstanceAs (Decidable (∃ _ ∈ xs, _ ∧ _ ∧ _))

/-- Best fit orders the blocks by size as long as the paddings do not weigh more. -/
theorem Selects.smallest_iff (hx : Selects g size align xs x) :
    (∀ y ∈ xs, HasRoom g size align y → x.2 ≤ y.2) ↔ SizeOutweighsPadding g size align xs := by
  have hxroom := hx.room
  rw [HasRoom] at hxroom
  constructor
  · intro hsmallest
    refine ⟨x, hx.mem, hx.room, hsmallest, fun y hy hroom hlt => ?_⟩
    have hle := hx.least y hy hroom
    have hlowest := hx.lowest y hy hroom
    rw [leftOver, leftOver] at hle hlowest
    rw [HasRoom] at hroom
    rcases Nat.lt_or_ge (x.2 + padding g align y.1) (y.2 + padding g align x.1) with hless | hmore
    · exact .inl hless
    · have hsame : x.2 + padding g align y.1 = y.2 + padding g align x.1 := by omega
      refine .inr ⟨hsame, Nat.lt_of_le_of_ne (hlowest (by omega)) fun heq => ?_⟩
      rw [heq] at hsame
      omega
  · rintro ⟨m, hm, hroom, hsmallest, hlarger⟩ y hy hroomy
    refine le_trans ?_ (hsmallest y hy hroomy)
    by_contra hlt
    have hle := hx.least m hm hroom
    have hlowest := hx.lowest m hm hroom
    rw [leftOver, leftOver] at hle hlowest
    rw [HasRoom] at hroom
    rcases hlarger x hx.mem hx.room (not_le.mp hlt) with hless | ⟨hsame, hbelow⟩
    · omega
    · exact absurd (hlowest (by omega)) (not_le.mpr hbelow)

/-- The allocation is made from a smallest free block with room exactly when size outweighs padding. -/
theorem smallest_space_iff (hm : Manages g h sp xs) (hsize : 0 < size) (_hlt : size < g.pageSize)
    (halign : ValidAlign align) (hroom : ∃ x ∈ xs, HasRoom g size align x) :
    ∃ h' a, slobPageAlloc g h sp size align = some (h', some a) ∧
      (FromSmallest g size align xs a ↔ SizeOutweighsPadding g size align xs) := by
  obtain ⟨y, hy, hfits⟩ := hroom
  have hspec : (slobPageAlloc g h sp size align = _ ∧ _) ∨ _ :=
    slobPageAlloc_spec hm (List.ne_nil_of_mem hy) hsize
  rcases hspec with ⟨-, hnone⟩ | ⟨h', a, halloc, hserved⟩
  · exact absurd (hnone y hy) (not_lt.mpr ((hasRoom_iff halign).mp hfits))
  · obtain ⟨-, x, -, -, hselects, ha, -⟩ := hserved.selects halign
    have hpos := g.unitsOf_pos hsize
    have hroomx := hselects.room
    rw [HasRoom] at hroomx
    have hinside : x.1 ≤ a ∧ a < x.1 + x.2 := by omega
    refine ⟨h', a, halloc, ?_⟩
    rw [← hselects.smallest_iff]
    constructor
    · intro hfrom
      exact hfrom x hselects.mem hinside.1 hinside.2
    · intro hsmallest x' hx' hle hlt
      obtain rfl := hm.eq_of_mem hx' hselects.mem ⟨hle, hlt⟩ hinside
      exact hsmallest

/-- After the four blocks the request comes from the smallest space. -/
theorem smallest_space_after_fourBlocks : ∃ s h',
    (machine smallConfig fun _ => 0).run emptyState fourBlocks = some s ∧
      slobPageAlloc smallConfig s.heap 2 20 8 = some (h', some 4148) ∧
      FromSmallest smallConfig 20 8 (freeRuns smallConfig s.heap 2) 4148 := by
  obtain ⟨s, h', hr, hruns, halloc, hstatus, hunits⟩ : ∃ s h',
      (machine smallConfig fun _ => 0).run emptyState fourBlocks = some s ∧
        freeRuns smallConfig s.heap 2 = [(4096, 50), (4147, 13), (4164, 4), (4183, 1961)] ∧
        slobPageAlloc smallConfig s.heap 2 20 8 = some (h', some 4148) ∧ s.status 2 = .heap ∧
        (s.heap.page 2).units = 2028 :=
    ⟨_, _, rfl, by decide +kernel, rfl, rfl, rfl⟩
  obtain ⟨hm, -⟩ := manages_freeRuns ⟨emptyState, _, emptyState_emptyHeap, hr⟩ hstatus
    (by rw [hunits]; decide)
  rw [hruns] at hm
  obtain ⟨h'', a, halloc', hiff⟩ := smallest_space_iff hm (show 0 < 20 by decide)
    (show 20 < smallConfig.pageSize by decide) (show ValidAlign 8 from .inr ⟨3, rfl⟩) (by decide)
  rw [halloc] at halloc'
  obtain ⟨rfl, ha⟩ := Prod.mk.inj (Option.some.inj halloc')
  obtain rfl := Option.some.inj ha
  refine ⟨s, h', hr, halloc, ?_⟩
  rw [hruns]
  exact hiff.mpr (by decide)

/-- A page with a free block of nine units that is not aligned and one of eight that is. -/
def unalignedHole : List (Event ℕ) :=
  [.alloc 0 ⟨2, 0, none⟩, .newPages 0 (some 2), .addPage 0, .alloc 0 ⟨18, 0, none⟩,
    .alloc 0 ⟨12, 0, none⟩, .alloc 0 ⟨16, 0, none⟩, .alloc 0 ⟨2, 0, none⟩, .free 0 ⟨4097, 18, 0⟩,
    .free 0 ⟨4112, 16, 0⟩]

/-- Two units come from the larger of the two, of which seven units are lost to the padding and none is
left over. -/
theorem larger_space_taken : ∃ s h',
    (machine smallConfig fun _ => 0).run emptyState unalignedHole = some s ∧
      Manages smallConfig s.heap 2 [(4097, 9), (4112, 8), (4121, 2023)] ∧
      HasRoom smallConfig 4 16 (4112, 8) ∧
      slobPageAlloc smallConfig s.heap 2 4 16 = some (h', some 4104) ∧
      ¬ FromSmallest smallConfig 4 16 [(4097, 9), (4112, 8), (4121, 2023)] 4104 := by
  obtain ⟨s, h', hr, hruns, halloc, hstatus, hunits⟩ : ∃ s h',
      (machine smallConfig fun _ => 0).run emptyState unalignedHole = some s ∧
        freeRuns smallConfig s.heap 2 = [(4097, 9), (4112, 8), (4121, 2023)] ∧
        slobPageAlloc smallConfig s.heap 2 4 16 = some (h', some 4104) ∧ s.status 2 = .heap ∧
        (s.heap.page 2).units = 2040 :=
    ⟨_, _, rfl, by decide +kernel, rfl, rfl, rfl⟩
  obtain ⟨hm, -⟩ := manages_freeRuns ⟨emptyState, _, emptyState_emptyHeap, hr⟩ hstatus
    (by rw [hunits]; decide)
  rw [hruns] at hm
  exact ⟨s, h', hr, hm, by decide, halloc, by decide⟩

end OperatingSystems.Slob
