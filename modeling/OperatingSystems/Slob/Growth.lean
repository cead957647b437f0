import OperatingSystems.Slob.BestFit

namespace OperatingSystems.Slob

open Library

variable {τ : Type*} {g : Config} {nid : ℕ → ℕ} {s s' : State τ} {ls : SizeClass → List ℕ}
  {runs : ℕ → List (ℕ × ℕ)} {r : Request} {sp align units : ℕ} {x : ℕ × ℕ}

/-- From the unit `a` of the page on, there are as many free units as the request needs, and the
address is a multiple of its alignment. -/
structure RoomAt (g : Config) (live : List Block) (r : Request) (sp a : ℕ) : Prop where
  inPage : sp * g.pageUnits ≤ a ∧ a + g.unitsOf r.size ≤ (sp + 1) * g.pageUnits
  aligned : r.align ≠ 0 → r.align ∣ a * g.slobUnit
  free : ∀ u, a ≤ u → u < a + g.unitsOf r.size → ¬ Live g live u

/-- An eligible page on the partial list of the size class has room for the request. -/
def HeapHasRoom (g : Config) (nid : ℕ → ℕ) (s : State τ) (r : Request) : Prop :=
  ∃ sp ∈ pagesOf g s.heap (slobList r.size), Eligible nid r sp ∧ ∃ a, RoomAt g s.live r sp a

/-- The padding of a block is no longer than any other that aligns it. -/
theorem delta_le (halign : ValidAlign align) {a d : ℕ} (hd : align ≠ 0 → align ∣ (a + d) * g.slobUnit) :
    (alignBlock g align a).2 ≤ d := by
  by_cases hzero : align = 0
  · rw [alignBlock, if_pos hzero]
    exact Nat.zero_le d
  · exact (alignBlock_spec halign).2.2 d (hd hzero)

namespace Layout

variable {h : Heap} {status : ℕ → Status} {live : List Block}

/-- A page has room for a request exactly when one of its free blocks has, since these are maximal. -/
theorem exists_roomAt_iff (hl : Layout g h status live ls runs) (hsp : status sp = .heap)
    (hvalid : r.Valid g) : (∃ a, RoomAt g live r sp a) ↔ ¬ NoRoom g r (runs sp) := by
  have hcovers := hl.covers_iff hsp
  have hpos := g.unitsOf_pos hvalid.1
  have halign := hvalid.validAlign
  rw [NoRoom]
  constructor
  · rintro ⟨a, hroom⟩ hnone
    obtain ⟨hlo, hhi⟩ := hroom.inPage
    have hfree := (hcovers a hlo (by omega)).mpr (hroom.free a le_rfl (by omega))
    obtain ⟨x, hx, hle, hlt⟩ := hfree
    have hmax := ((hl.manages sp hsp).onPage.mem_iff_maximalRun hcovers).mp hx
    have hend := hmax.add_le hlt hhi hroom.free
    have hpad : (alignBlock g r.align x.1).2 ≤ a - x.1 := by
      apply delta_le halign
      rw [Nat.add_sub_cancel' hle]
      exact hroom.aligned
    have hslack := hnone x hx
    rw [slack] at hslack
    omega
  · intro hnot
    push Not at hnot
    obtain ⟨x, hx, hslack⟩ := hnot
    have hmax := ((hl.manages sp hsp).onPage.mem_iff_maximalRun hcovers).mp hx
    have hlo := hmax.lo_le
    have hhi := hmax.le_hi
    rw [slack] at hslack
    refine ⟨x.1 + (alignBlock g r.align x.1).2, ⟨by omega, by omega⟩, ?_, fun u hle hlt => ?_⟩
    · exact (alignBlock_spec halign).2.1
    · exact hmax.inside u (by omega) (by omega)

end Layout

theorem heapHasRoom_iff (hl : Layout g s.heap s.status s.live ls runs) (hvalid : r.Valid g) :
    HeapHasRoom g nid s r ↔
      ∃ sp ∈ ls (slobList r.size), Eligible nid r sp ∧ ¬ NoRoom g r (runs sp) := by
  rw [HeapHasRoom, hl.pagesOf_eq]
  refine exists_congr fun sp => and_congr_right fun hsp => and_congr_right fun _ => ?_
  exact hl.exists_roomAt_iff (hl.heap_of_mem hsp) hvalid

variable [DecidableEq τ]

/-- The first locked section finds a block exactly when the heap has room, and changes nothing when it
has none. -/
theorem alloc_grows {t : τ} (hl : Layout g s.heap s.status s.live ls runs) (nid : ℕ → ℕ)
    (hidle : s.point t = .idle) (hvalid : r.Valid g) :
    ∃ s', step g nid s (.alloc t r) = some s' ∧
      (HeapHasRoom g nid s r ∧ s'.point t = .idle ∧ (∃ b, s'.live = ⟨b, r.size, r.align⟩ :: s.live) ∨
        ¬ HeapHasRoom g nid s r ∧ s' = s.goto t (.noRoom r)) := by
  obtain ⟨s', hstep, hd⟩ := alloc_does hl nid hidle hvalid
  refine ⟨s', hstep, ?_⟩
  rw [heapHasRoom_iff hl hvalid]
  cases hd with
  | noRoom idle valid none =>
    refine .inr ⟨?_, rfl⟩
    rintro ⟨sp, hsp, helig, hroom⟩
    exact hroom (none sp hsp helig)
  | @allocs _ _ sp as bs h links b xs idle valid list eligible before served =>
    refine .inl ⟨⟨sp, ?_, eligible, fun hnone => ?_⟩, hidle, b, rfl⟩
    · rw [list]
      exact List.mem_append_right _ List.mem_cons_self
    · obtain ⟨ys, x, zs, d, hruns, -, -, hfits, -⟩ := served
      have hx : x ∈ runs sp := by
        rw [hruns]
        exact List.mem_append_right _ List.mem_cons_self
      exact absurd (hnone x hx) (not_lt.mpr hfits)

/-- A call of `slob_alloc` that is under way and comes back: with `NULL` when there is no new page,
otherwise with a block. -/
theorem returns {t : τ} {e : Event τ} (hi : Invariant g s) (hrequest : (s.point t).request = some r)
    (hstep : step g nid s e = some s') (hidle : s'.point t = .idle) :
    e = .newPages t none ∧ s' = s.goto t .idle ∨ ∃ b, s'.live = ⟨b, r.size, r.align⟩ :: s.live := by
  obtain ⟨ls, runs, hl⟩ := hi.layout
  have hne : s.point t ≠ .idle := by
    intro hpoint
    rw [hpoint] at hrequest
    cases hrequest
  have hself : ∀ {t' : τ} {p : Point}, Function.update s.point t' p t = .idle → t' = t ∧ p = .idle := by
    intro t' p hp
    by_cases ht : t = t'
    · subst ht
      rw [Function.update_self] at hp
      exact ⟨rfl, hp⟩
    · rw [Function.update_of_ne ht] at hp
      exact absurd hp hne
  cases step_does hl hi.newPage hstep with
  | noPages =>
    obtain ⟨rfl, -⟩ := hself hidle
    exact .inl ⟨rfl, rfl⟩
  | addPage point =>
    obtain ⟨rfl, -⟩ := hself hidle
    rw [point] at hrequest
    obtain rfl := Option.some.inj hrequest
    exact .inr ⟨_, rfl⟩
  | freePages point =>
    obtain ⟨rfl, -⟩ := hself hidle
    rw [point] at hrequest
    cases hrequest
  | noRoom | newPage | empties => exact absurd (hself hidle).2 nofun
  | allocs | frees | store | reuse => exact absurd hidle hne

/-- `slob_alloc` asks for a new page exactly when the heap has no room for the request, `BUG_ON` does
not fire on that page, and a call that returns `NULL` has changed nothing. -/
theorem grows_only_when_full (h : (machine g nid).Reachable s) (t : τ) (r : Request)
    (hvalid : r.Valid g) :
    (s.point t = .idle → ∃ s', step g nid s (.alloc t r) = some s' ∧
      (s'.point t = .noRoom r ↔ ¬ HeapHasRoom g nid s r) ∧
      (s' = s.goto t (.noRoom r) ∨
        s'.point t = .idle ∧ ∃ b, s'.live = ⟨b, r.size, r.align⟩ :: s.live)) ∧
    (∀ sp, s.point t = .newPage r sp → ∃ h b, slobAllocNew g s.heap sp r = some (h, b)) ∧
    (∀ e s', (s.point t).request = some r → step g nid s e = some s' → s'.point t = .idle →
      e = .newPages t none ∧ s' = s.goto t .idle ∨
        ∃ b, s'.live = ⟨b, r.size, r.align⟩ :: s.live) ∧
    ∀ s', (machine g nid).run s [.alloc t r, .newPages t none] = some s' → s' = s := by
  have hi := invariant h
  obtain ⟨ls, runs, hl⟩ := hi.layout
  refine ⟨fun hidle => ?_, fun sp hpoint => ?_, fun e s' => returns hi, fun s' hr => ?_⟩
  · obtain ⟨s', hstep, hgrows⟩ := alloc_grows hl nid hidle hvalid
    refine ⟨s', hstep, ?_⟩
    rcases hgrows with ⟨hroom, hreturn, hlive⟩ | ⟨hfull, rfl⟩
    · refine ⟨iff_of_false ?_ (not_not.mpr hroom), .inr ⟨hreturn, hlive⟩⟩
      rw [hreturn]
      nofun
    · exact ⟨iff_of_true (Function.update_self ..) hfull, .inl rfl⟩
  · obtain ⟨hstatus, -⟩ := hi.newPage t r sp hpoint
    have hnot := hl.not_mem_of_status (show s.status sp ≠ .heap by rw [hstatus]; nofun)
    obtain ⟨h', xs, hnew, -⟩ := slobAllocNew_spec hl.lists hnot hvalid.1 hvalid.2.1
      hvalid.validAlign hvalid.align_le
    exact ⟨h', _, hnew⟩
  · obtain ⟨s₁, hfirst, hr⟩ := Machine.run_cons_eq_some.mp hr
    obtain ⟨s₂, hsecond, hr⟩ := Machine.run_cons_eq_some.mp hr
    obtain rfl := Option.some.inj hr
    have hidle : s.point t = .idle := by
      by_contra hnot
      change step g nid s (.alloc t r) = some s₁ at hfirst
      rw [step, if_neg fun hand => hnot hand.1] at hfirst
      cases hfirst
    obtain ⟨s'', hstep, hgrows⟩ := alloc_grows hl nid hidle hvalid
    obtain rfl := Option.some.inj (hstep.symm.trans hfirst)
    change step g nid s'' (.newPages t none) = some s₂ at hsecond
    rcases hgrows with ⟨-, hreturn, -⟩ | ⟨-, rfl⟩
    · simp [step, hreturn] at hsecond
    · have hpoint : (s.goto t (.noRoom r)).point t = .noRoom r := Function.update_self ..
      simp only [step, hpoint] at hsecond
      rw [← Option.some.inj hsecond, State.goto, State.goto, Function.update_idem, ← hidle,
        Function.update_eq_self]

/-- A request that neither of the two pages has room for. -/
theorem grows_only_when_full_of_twoPages : ∃ s s',
    (machine smallConfig fun _ => 0).run emptyState twoPages = some s ∧
      step smallConfig (fun _ => 0) s (.alloc 0 ⟨3000, 0, none⟩) = some s' ∧
      s'.point 0 = .noRoom ⟨3000, 0, none⟩ ∧
      ¬ HeapHasRoom smallConfig (fun _ => 0) s ⟨3000, 0, none⟩ ∧
      (machine smallConfig fun _ => 0).run s [.alloc 0 ⟨3000, 0, none⟩, .newPages 0 none] = some s := by
  obtain ⟨s, hr, hidle, s', hstep, hpoint, s'', hr'⟩ : ∃ s,
      (machine smallConfig fun _ => 0).run emptyState twoPages = some s ∧ s.point 0 = .idle ∧ ∃ s',
      step smallConfig (fun _ => 0) s (.alloc 0 ⟨3000, 0, none⟩) = some s' ∧
        s'.point 0 = .noRoom ⟨3000, 0, none⟩ ∧ ∃ s'',
      (machine smallConfig fun _ => 0).run s [.alloc 0 ⟨3000, 0, none⟩, .newPages 0 none] = some s'' :=
    ⟨_, rfl, rfl, _, rfl, rfl, _, rfl⟩
  obtain ⟨halloc, -, -, hnull⟩ := grows_only_when_full ⟨emptyState, _, emptyState_emptyHeap, hr⟩ 0
    ⟨3000, 0, none⟩ (by decide)
  obtain ⟨s₁, hstep', hiff, -⟩ := halloc hidle
  obtain rfl := Option.some.inj (hstep.symm.trans hstep')
  exact ⟨s, s', hr, hstep, hpoint, hiff.mp hpoint, hr'.trans (congrArg some (hnull s'' hr'))⟩

end OperatingSystems.Slob
