import OperatingSystems.Slob.Selection

namespace OperatingSystems.Slob

open Library

variable {τ τ' : Type*} [DecidableEq τ] [DecidableEq τ'] {g : Config} {nid nid' : ℕ → ℕ}
  {s : State τ} {s' : State τ'} {h h' h₁ : Heap} {sp size align b : ℕ} {xs : List (ℕ × ℕ)}
  {x y : ℕ × ℕ}

theorem Selects.start_eq (hx : Selects g size align xs x) (hy : Selects g size align xs y) :
    x.1 = y.1 := by
  have hleft : leftOver g size align x = leftOver g size align y :=
    Nat.le_antisymm (hx.least y hy.mem hy.room) (hy.least x hx.mem hx.room)
  exact Nat.le_antisymm (hx.lowest y hy.mem hy.room hleft.symm) (hy.lowest x hx.mem hx.room hleft)

/-- A page that serves a request has a free block with room for it. -/
theorem Served.not_full (hs : Served g sp size align xs h h₁ b) (halign : ValidAlign align) :
    ¬ ∀ x ∈ xs, slack g (g.unitsOf size) align x < 0 := by
  intro hfull
  obtain ⟨-, x, -, -, hx, -⟩ := hs.selects halign
  exact absurd (hfull x hx.mem) (not_lt.mpr ((hasRoom_iff halign).mp hx.room))

/-- The answer of `slob_page_alloc` depends on the free blocks of the page only. -/
theorem Manages.same_answer (hm : Manages g h sp xs) (hm' : Manages g h' sp xs) (hne : xs ≠ [])
    (hsize : 0 < size) (halign : ValidAlign align) :
    (slobPageAlloc g h sp size align).map Prod.snd =
      (slobPageAlloc g h' sp size align).map Prod.snd := by
  rcases slobPageAlloc_spec hm hne hsize with ⟨hnone, hfull⟩ | ⟨h₁, b, hsome, hserved⟩ <;>
    rcases slobPageAlloc_spec hm' hne hsize with ⟨hnone', hfull'⟩ | ⟨h₁', b', hsome', hserved'⟩
  · rw [hnone, hnone']
    rfl
  · exact absurd hfull (hserved'.not_full halign)
  · exact absurd hfull' (hserved.not_full halign)
  · obtain ⟨-, x, -, -, hx, hb, -⟩ := hserved.selects halign
    obtain ⟨-, y, -, -, hy, hb', -⟩ := hserved'.selects halign
    rw [hsome, hsome', hb, hb', hx.start_eq hy]
    rfl

/-- The live units of a page decide everything else on it: whatever calls have led there, the page has
the same number of free units, the same free list, and the same answer for the next request. -/
theorem page_independent_of_history (hs : (machine g nid).Reachable s)
    (hs' : (machine g nid').Reachable s') (hheap : s.status sp = .heap)
    (hheap' : s'.status sp = .heap)
    (hsame : ∀ u, g.pageOf u = sp → (Live g s.live u ↔ Live g s'.live u)) :
    (s.heap.page sp).units = (s'.heap.page sp).units ∧ (0 < (s.heap.page sp).units →
      freeRuns g s.heap sp = freeRuns g s'.heap sp ∧
      ∀ size align, 0 < size → ValidAlign align →
        (slobPageAlloc g s.heap sp size align).map Prod.snd =
          (slobPageAlloc g s'.heap sp size align).map Prod.snd) := by
  obtain ⟨ls, runs, hl⟩ := (invariant hs).layout
  obtain ⟨ls', runs', hl'⟩ := (invariant hs').layout
  have hm := hl.manages sp hheap
  have hm' := hl'.manages sp hheap'
  have hruns : runs sp = runs' sp := by
    refine Spaced.eq_of_covers hm.onPage hm'.onPage fun u hle hlt => ?_
    rw [hl.covers_iff hheap u hle hlt, hl'.covers_iff hheap' u hle hlt,
      hsame u (Config.pageOf_eq hle hlt)]
  refine ⟨by rw [hm.units, hm'.units, hruns], fun hpos => ?_⟩
  have hne := (hl.units_pos_iff hheap).mp hpos
  rw [← hruns] at hm'
  refine ⟨?_, fun size align hsize halign => hm.same_answer hm' hne hsize halign⟩
  rw [freeRuns, freeRuns, hm.freeBlocks hne, hm'.freeBlocks hne]

/-- Three blocks on one page, of which two are freed. -/
def freedInTurn (first second : Block) : List (Event ℕ) :=
  [.alloc 0 ⟨100, 0, none⟩, .newPages 0 (some 2), .addPage 0, .alloc 0 ⟨7, 64, none⟩,
    .alloc 1 ⟨1, 0, none⟩, .free 0 first, .free 1 second]

theorem page_independent_of_order : ∃ s s',
    (machine smallConfig fun _ => 0).run emptyState (freedInTurn ⟨4096, 100, 0⟩ ⟨4160, 7, 64⟩) = some s ∧
      (machine smallConfig fun _ => 0).run emptyState (freedInTurn ⟨4160, 7, 64⟩ ⟨4096, 100, 0⟩) =
        some s' ∧
      freeRuns smallConfig s.heap 2 = freeRuns smallConfig s'.heap 2 := by
  obtain ⟨s, s', hr, hr', hlive, hlive', hheap, hheap', hunits⟩ : ∃ s s',
      (machine smallConfig fun _ => 0).run emptyState (freedInTurn ⟨4096, 100, 0⟩ ⟨4160, 7, 64⟩) =
        some s ∧
      (machine smallConfig fun _ => 0).run emptyState (freedInTurn ⟨4160, 7, 64⟩ ⟨4096, 100, 0⟩) =
        some s' ∧ s.live = [⟨4146, 1, 0⟩] ∧ s'.live = [⟨4146, 1, 0⟩] ∧ s.status 2 = .heap ∧
      s'.status 2 = .heap ∧ (s.heap.page 2).units = 2047 := ⟨_, _, rfl, rfl, rfl, rfl, rfl, rfl, rfl⟩
  obtain ⟨-, hfree⟩ := page_independent_of_history ⟨emptyState, _, emptyState_emptyHeap, hr⟩
    ⟨emptyState, _, emptyState_emptyHeap, hr'⟩ hheap hheap' (fun u _ => by rw [hlive, hlive'])
  exact ⟨s, s', hr, hr', (hfree (by rw [hunits]; decide)).1⟩

end OperatingSystems.Slob
