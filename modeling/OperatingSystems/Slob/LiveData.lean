import OperatingSystems.Slob.InOrder

namespace OperatingSystems.Slob

open Library

variable {τ : Type*} {g : Config} {nid : ℕ → ℕ} {s s' : State τ} {e : Event τ}
  {ls : SizeClass → List ℕ} {runs : ℕ → List (ℕ × ℕ)}

namespace Event

/-- The steps of `slob_alloc` and `slob_free`. -/
def isCall : Event τ → Bool
  | alloc .. | newPages .. | addPage .. | free .. | freePages .. => true
  | store .. | reuse .. => false

/-- The block that the step frees. -/
def freed : Event τ → Option Block
  | free _ b => some b
  | _ => none

end Event

/-- The unit is free: no live block has it, and its page belongs to the heap or to a call that is
about to put it there. -/
def FreeUnit (g : Config) (s : State τ) (u : ℕ) : Prop :=
  (s.status (g.pageOf u) = .heap ∨ s.status (g.pageOf u) = .taken) ∧ ¬ Live g s.live u

/-- The units that a step may write to. -/
def writable (g : Config) (s : State τ) (e : Event τ) : Set ℕ :=
  {u | FreeUnit g s u ∨ ∃ b, e.freed = some b ∧ b.Has g u}

variable [DecidableEq τ]

/-- The writes of each step. -/
theorem Does.writesIn (hi : Invariant g s) (hl : Layout g s.heap s.status s.live ls runs)
    (hcall : e.isCall = true) (hd : Does g nid ls runs s e s') :
    WritesIn (writable g s e) s.heap.mem s'.heap.mem := by
  have hfree : ∀ {sp u}, s.status sp = .heap → Covers (runs sp) u → FreeUnit g s u := by
    intro sp u hsp hu
    have hpage := (hl.manages sp hsp).onPage.pageOf_eq hu
    rw [← hpage] at hsp hu
    exact ⟨.inl hsp, (hl.covers u hsp).mp hu⟩
  cases hd with
  | @allocs t r sp as bs h links b xs idle valid list eligible before served takes =>
    have hmem : sp ∈ ls (slobList r.size) := by rw [list]; simp
    exact takes.touches.mem.mono fun u hu => .inl (hfree (hl.heap_of_mem hmem) hu)
  | @addPage t r sp h xs point manages covers touches =>
    have hstatus := (hi.newPage t r sp point).1
    refine touches.mem.mono fun u hu => .inl ?_
    obtain ⟨hle, hlt⟩ := (covers_cons.mp hu).resolve_right covers_nil
    have hpage : g.pageOf u = sp := Config.pageOf_eq hle (by rw [Nat.succ_mul]; exact hlt)
    refine ⟨.inr (hpage ▸ hstatus), hl.not_live ?_⟩
    rw [hpage, hstatus]
    nofun
  | frees idle live page ne frees =>
    have hsp := (hl.placed _ live).onHeap
    rw [← page] at hsp
    refine frees.touches.mem.mono fun u hu => ?_
    exact ((frees.covers u).mp hu).symm.imp (hfree hsp) fun hblock => ⟨_, rfl, hblock⟩
  | empties =>
    split_ifs <;> exact .refl _
  | noRoom | noPages | newPage | freePages => exact .refl _
  | store | reuse => cases hcall

/-- A block stays live until it is freed. -/
theorem Does.live {b : Block} (hd : Does g nid ls runs s e s') (hb : b ∈ s.live)
    (hnot : e.freed ≠ some b) : b ∈ s'.live := by
  cases hd with
  | allocs | addPage => exact List.mem_cons_of_mem _ hb
  | frees | empties =>
    refine (List.mem_erase_of_ne fun heq => hnot ?_).mpr hb
    rw [heq]
    rfl
  | noRoom | noPages | newPage | freePages | store | reuse => exact hb

/-- The units of a live block, unless it is the freed one, are not written to. -/
theorem Does.not_writable {b : Block} {u : ℕ} (hl : Layout g s.heap s.status s.live ls runs)
    (hd : Does g nid ls runs s e s') (hb : b ∈ s.live) (hnot : e.freed ≠ some b) (hu : b.Has g u) :
    u ∉ writable g s e := by
  rintro (⟨-, hdead⟩ | ⟨b', hfreed, hu'⟩)
  · exact hdead ⟨b, hb, hu⟩
  · have hmem : b' ∈ s.live := by
      cases hd with
      | frees idle live | empties idle live => exact Option.some.inj hfreed ▸ live
      | _ => cases hfreed
    have hne : b ≠ b' := fun heq => hnot (heq ▸ hfreed)
    have hl' := hl.perm (List.perm_cons_erase hmem)
    exact hl'.disjoint_cons hu' ⟨b, (List.mem_erase_of_ne hne).mpr hb, hu⟩

/-- Only its owner changes the contents of a live block. -/
theorem Does.cell_eq {b : Block} {u : ℕ} (hi : Invariant g s)
    (hl : Layout g s.heap s.status s.live ls runs) (hd : Does g nid ls runs s e s') (hb : b ∈ s.live)
    (hnot : e.freed ≠ some b) (hu : b.Has g u) (hstore : ∀ v, e ≠ .store u v) :
    s'.heap.mem.cell u = s.heap.mem.cell u := by
  by_cases hcall : e.isCall = true
  · exact (hd.writesIn hi hl hcall).cell u (hd.not_writable hl hb hnot hu)
  · cases hd with
    | @store a v own =>
      have hne : u ≠ a := fun heq => hstore v (heq ▸ rfl)
      exact Function.update_of_ne hne _ _
    | reuse => rfl
    | _ => exact absurd rfl hcall

theorem Invariant.run_cell_eq {b : Block} {u : ℕ} {es : List (Event τ)} (hi : Invariant g s)
    (hr : (machine g nid).run s es = some s') (hb : b ∈ s.live) (hnot : ∀ e ∈ es, e.freed ≠ some b)
    (hu : b.Has g u) (hstore : ∀ v, .store u v ∉ es) : s'.heap.mem.cell u = s.heap.mem.cell u := by
  induction es generalizing s with
  | nil => exact Option.some.inj hr ▸ rfl
  | cons e es ih =>
    obtain ⟨t, ht, hr⟩ := Machine.run_cons_eq_some.mp hr
    obtain ⟨ls, runs, hl⟩ := hi.layout
    have hd := step_does hl hi.newPage ht
    have hfirst := hnot e List.mem_cons_self
    have hstep := hd.cell_eq hi hl hb hfirst hu fun v heq => hstore v (heq ▸ List.mem_cons_self)
    rw [← hstep]
    exact ih (hi.step ht) hr (hd.live hb hfirst) (fun e he => hnot e (List.mem_cons_of_mem _ he))
      fun v hv => hstore v (List.mem_cons_of_mem _ hv)

/-- Live data is never touched: `set_slob` writes to free units and to the block being freed only,
and in any run a unit of a live block keeps its contents until its owner writes there. -/
theorem live_data_untouched (h : (machine g nid).Reachable s) :
    (∀ e s', e.isCall = true → step g nid s e = some s' →
      (∃ ws, s'.heap.mem.log = s.heap.mem.log ++ ws ∧
        ∀ u ∈ ws, FreeUnit g s u ∨ ∃ b, e.freed = some b ∧ b.Has g u) ∧
      ∀ b ∈ s.live, e.freed ≠ some b → ∀ u, b.Has g u →
        s'.heap.mem.cell u = s.heap.mem.cell u) ∧
    ∀ es s' b u, (machine g nid).run s es = some s' → b ∈ s.live → (∀ e ∈ es, e.freed ≠ some b) →
      b.Has g u → (∀ v, .store u v ∉ es) → s'.heap.mem.cell u = s.heap.mem.cell u := by
  have hi := invariant h
  refine ⟨fun e s' hcall hs => ?_, fun es s' b u hr hb hnot hu hstore =>
    hi.run_cell_eq hr hb hnot hu hstore⟩
  obtain ⟨ls, runs, hl⟩ := hi.layout
  have hd := step_does hl hi.newPage hs
  have hwrites := hd.writesIn hi hl hcall
  exact ⟨hwrites.log, fun b hb hnot u hu => hwrites.cell u (hd.not_writable hl hb hnot hu)⟩

/-- An aligned allocation leaves a fragment of one unit next to a live block of one unit, and what was
stored there is still there. -/
theorem live_data_untouched_beside_fragment : ∃ s s',
    (machine smallConfig fun _ => 0).run emptyState (fourBlocks ++ [.store 4146 99]) = some s ∧
      (machine smallConfig fun _ => 0).run s [.alloc 1 ⟨22, 4, none⟩] = some s' ∧
      s'.live.map Block.start = [4148, 4168, 4146, 4160] ∧
      freeBlocks smallConfig s'.heap.mem.cell 8 (s'.heap.page 2).freelist =
        some [(4096, 50), (4147, 1), (4159, 1), (4164, 4), (4183, 1961)] ∧
      s'.heap.mem.cell 4146 = 99 := by
  obtain ⟨s, hr, hmem, hcell, s', hr', hlive, hlist⟩ : ∃ s,
      (machine smallConfig fun _ => 0).run emptyState (fourBlocks ++ [.store 4146 99]) = some s ∧
      ⟨4146, 1, 0⟩ ∈ s.live ∧ s.heap.mem.cell 4146 = 99 ∧ ∃ s',
      (machine smallConfig fun _ => 0).run s [.alloc 1 ⟨22, 4, none⟩] = some s' ∧
      s'.live.map Block.start = [4148, 4168, 4146, 4160] ∧
      freeBlocks smallConfig s'.heap.mem.cell 8 (s'.heap.page 2).freelist =
        some [(4096, 50), (4147, 1), (4159, 1), (4164, 4), (4183, 1961)] :=
    ⟨_, rfl, .tail _ (.head _), rfl, _, rfl, rfl, rfl⟩
  refine ⟨s, s', hr, hr', hlive, hlist, ?_⟩
  rw [← hcell]
  refine (live_data_untouched ⟨emptyState, _, emptyState_emptyHeap, hr⟩).2 _ s' ⟨4146, 1, 0⟩ 4146 hr' hmem
    ?_ ⟨by decide, by decide⟩ ?_
  · simp [Event.freed]
  · simp

end OperatingSystems.Slob
