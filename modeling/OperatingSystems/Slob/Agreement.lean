import OperatingSystems.Slob.Effects

namespace OperatingSystems.Slob

open Library

variable {τ : Type*} [DecidableEq τ] {g : Config} {nid : ℕ → ℕ} {A : MinAlign g} {s s' : Allocator τ}
  {op : Op τ} {es : List (Event τ)} {p q : Ptr} {m size sp order : ℕ}

omit [DecidableEq τ] in
/-- A block that has come to the live ones was not live before. -/
theorem Invariant.not_mem_of_cons {σ : State τ} {b : Block} {live : List Block} (hi : Invariant g σ)
    (hlive : σ.live = b :: live) : b ∉ live := by
  obtain ⟨ls, runs, hl⟩ := hi.layout
  rw [hlive] at hl
  have hpos := g.unitsOf_pos (hl.placed b List.mem_cons_self).size_pos
  intro hmem
  exact hl.disjoint_cons ⟨le_rfl, by omega⟩ ⟨b, hmem, le_rfl, by omega⟩

/-- Where the thread `t` goes on to `c`, the others hold what they held. -/
theorem Call.block_update {call : τ → Call} {t t' : τ} {c : Call} {b : Block}
    (hb : (Function.update call t c t').block A = some b) :
    t' = t ∧ c.block A = some b ∨ t' ≠ t ∧ (call t').block A = some b := by
  by_cases ht : t' = t
  · subst ht
    rw [Function.update_self] at hb
    exact .inl ⟨rfl, hb⟩
  · rw [Function.update_of_ne ht] at hb
    exact .inr ⟨ht, hb⟩

/-- The pointers get nothing either. -/
theorem Allocator.own_of_goto {t : τ} {c : Call} {o : Option τ} {b : Block}
    (hb : s'.own A o b) (hcall : s'.call = Function.update s.call t c)
    (hptrs : ∀ q ∈ s'.ptrs, q ∈ s.ptrs) :
    o = some t ∧ c.block A = some b ∨ o ≠ some t ∧ s.own A o b := by
  cases o with
  | none =>
    obtain ⟨q, hq, hqb⟩ := hb
    exact .inr ⟨(Option.some_ne_none t).symm, q, hptrs q hq, hqb⟩
  | some t' =>
    rw [own, hcall] at hb
    rcases Call.block_update hb with ⟨rfl, hnew⟩ | ⟨hne, hold⟩
    · exact .inl ⟨rfl, hnew⟩
    · exact .inr ⟨fun h => hne (Option.some.inj h), hold⟩

omit [DecidableEq τ] in
/-- No other pointer has the block of this one. -/
theorem Agrees.block_ne (ha : Agrees A s) (hp : p ∈ s.ptrs) (htook : p.took = .units m size)
    (hq : q ∈ s.ptrs.erase p) : q.took.block A ≠ some ⟨m, size, A.bytes⟩ := by
  intro hblock
  have hpairs := (List.perm_cons_erase hp).pairwise ha.disjoint fun h => Std.Symm.symm _ _ h
  have hapart := (List.pairwise_cons.mp hpairs).1 q hq
  obtain ⟨hlive, -⟩ := ha.block hp htook
  obtain ⟨ls, runs, hl⟩ := ha.slob.layout
  have hpos := g.unitsOf_pos (hl.placed _ hlive).size_pos
  have hfirst : (Region.units m size).Has g m := ⟨le_rfl, Nat.lt_add_of_pos_right hpos⟩
  cases hqtook : q.took with
  | units m' size' =>
    rw [hqtook] at hblock
    obtain ⟨rfl, rfl, -⟩ := Block.mk.inj (Option.some.inj hblock)
    exact hapart m' (htook ▸ hfirst) (hqtook ▸ hfirst)
  | pages =>
    rw [hqtook] at hblock
    cases hblock

namespace Effect

theorem calls (hc : ∀ t, (s.call t).At A (s.slob.point t)) (he : Effect A s s') (t : τ) :
    (s'.call t).At A (s'.slob.point t) := by
  have hgoto : ∀ {t₀ c} {point : τ → Point}, c.At A (point t₀) →
      (∀ t', t' ≠ t₀ → point t' = s.slob.point t') → (Function.update s.call t₀ c t).At A (point t) := by
    intro t₀ c point hnow hothers
    by_cases ht : t = t₀
    · subst ht
      rwa [Function.update_self]
    · rw [Function.update_of_ne ht, hothers t ht]
      exact hc t
  cases he with
  | stays live point =>
    rw [point]
    exact hc t
  | moves old new now others => exact hgoto now others
  | allocs old now others => exact hgoto now others
  | @returns t₀ m size call =>
    have hpoint := hc t₀
    rw [call] at hpoint
    exact hgoto hpoint.2.2 fun _ _ => rfl
  | @frees t₀ p m size idle =>
    have hpoint := hc t₀
    rw [idle] at hpoint
    exact hgoto hpoint fun _ _ => rfl
  | large | freesLarge => exact hc t
  | freed call new now others => exact hgoto now others

/-- No two of the pointers and the calls have the same block. -/
theorem shares (ha : Agrees A s) (hi : Invariant g s'.slob) (he : Effect A s s') :
    Shares (s'.own A) (· ∈ s'.slob.live) := by
  have hs := ha.shares
  cases he with
  | stays live =>
    refine hs.mono (fun b hb => live ▸ hb) fun o b hb => ?_
    cases o <;> exact hb
  | @moves t c slob old new now others live =>
    refine hs.mono (fun b hb => live ▸ hb) fun o b hb => ?_
    rcases Allocator.own_of_goto (s := s) hb rfl fun _ hq => hq with ⟨-, hnew⟩ | ⟨-, hold⟩
    · rw [new] at hnew
      cases hnew
    · exact hold
  | @allocs t size slob old now others live =>
    have hfresh := hi.not_mem_of_cons live
    refine hs.gain (i := some t) (b := ⟨slob.returned, size + A.bytes, A.bytes⟩) ?_ ?_ ?_
    · exact live ▸ List.mem_cons_self
    · exact fun b _ hb => live ▸ List.mem_cons_of_mem _ hb
    intro o b hb
    rcases Allocator.own_of_goto (s := s) hb rfl fun _ hq => hq with ⟨ho, hnew⟩ | ⟨-, hold⟩
    · exact .inl ⟨ho, (Option.some.inj hnew).symm⟩
    · exact .inr ⟨fun heq => hfresh (heq ▸ hs.sub o b hold), hold⟩
  | @returns t m size call =>
    have hmine : s.own A (some t) ⟨m, size + A.bytes, A.bytes⟩ := by
      rw [Allocator.own, call]
      rfl
    refine hs.gain (i := none) (b := ⟨m, size + A.bytes, A.bytes⟩) (hs.sub _ _ hmine)
      (fun b _ hb => hb) ?_
    intro o b hb
    cases o with
    | none =>
      obtain ⟨q, hq, hqb⟩ := hb
      rcases List.mem_cons.mp hq with rfl | hq
      · exact .inl ⟨rfl, (Option.some.inj hqb).symm⟩
      · have hold : s.own A none b := ⟨q, hq, hqb⟩
        exact .inr ⟨hs.ne hmine hold (Option.some_ne_none t).symm, hold⟩
    | some t' =>
      rcases Call.block_update hb with ⟨-, hnew⟩ | ⟨hne, hold⟩
      · cases hnew
      · exact .inr ⟨hs.ne (j := some t') hmine hold fun h => hne (Option.some.inj h), hold⟩
  | large =>
    refine hs.mono (fun b hb => hb) fun o b hb => ?_
    cases o with
    | none =>
      obtain ⟨q, hq, hqb⟩ := hb
      rcases List.mem_cons.mp hq with rfl | hq
      · cases hqb
      · exact ⟨q, hq, hqb⟩
    | some t' => exact hb
  | @frees t p m size idle mem took =>
    have hmine : s.own A none ⟨m, size, A.bytes⟩ := ⟨p, mem, by rw [took]; rfl⟩
    refine hs.gain (i := some t) (b := ⟨m, size, A.bytes⟩) (hs.sub _ _ hmine) (fun b _ hb => hb) ?_
    intro o b hb
    cases o with
    | none =>
      obtain ⟨q, hq, hqb⟩ := hb
      refine .inr ⟨?_, q, List.mem_of_mem_erase hq, hqb⟩
      rintro rfl
      exact ha.block_ne mem took hq hqb
    | some t' =>
      rcases Call.block_update hb with ⟨rfl, hnew⟩ | ⟨-, hold⟩
      · exact .inl ⟨rfl, (Option.some.inj hnew).symm⟩
      · exact .inr ⟨hs.ne (j := some t') hmine hold (Option.some_ne_none t'), hold⟩
  | freesLarge =>
    refine hs.mono (fun b hb => hb) fun o b hb => ?_
    cases o with
    | none =>
      obtain ⟨q, hq, hqb⟩ := hb
      exact ⟨q, List.mem_of_mem_erase hq, hqb⟩
    | some t' => exact hb
  | @freed t m size c slob call new now others live =>
    have hmine : s.own A (some t) ⟨m, size, A.bytes⟩ := by
      rw [Allocator.own, call]
      rfl
    refine hs.loss (b := ⟨m, size, A.bytes⟩) ?_ ?_
    · exact fun b hne hb => live ▸ (List.mem_erase_of_ne hne).mpr hb
    intro o b hb
    rcases Allocator.own_of_goto (s := s) hb rfl fun _ hq => hq with ⟨-, hnew⟩ | ⟨hne, hold⟩
    · rw [new] at hnew
      cases hnew
    · exact ⟨hs.ne hmine hold hne, hold⟩

/-- A pointer was there before, or it has just been returned with its header. -/
theorem mem_ptrs (hc : ∀ t, (s.call t).At A (s.slob.point t)) (he : Effect A s s') (hp : p ∈ s'.ptrs) :
    p ∈ s.ptrs ∨ p.Served A ∧ ∀ m size, p.took = .units m size →
      readUInt g s'.slob.heap.mem.cell m = p.size := by
  cases he with
  | stays | moves | allocs | freed => exact .inl hp
  | frees | freesLarge => exact .inl (List.mem_of_mem_erase hp)
  | @returns t m size call =>
    rcases List.mem_cons.mp hp with rfl | hp
    · obtain ⟨hpos, hfits, -⟩ : (Call.header m size).At A (s.slob.point t) := call ▸ hc t
      refine .inr ⟨⟨rfl, rfl, hpos, hfits⟩, ?_⟩
      intro m' size' htook
      obtain ⟨rfl, -⟩ := Region.units.inj htook
      apply readUInt_writeUInt
      have hpage : g.pageSize ≤ 2 ^ 32 := Nat.pow_le_pow_right two_pos g.shift_le
      omega
    · exact .inl hp
  | large =>
    rcases List.mem_cons.mp hp with rfl | hp
    · exact .inr ⟨⟨rfl, rfl⟩, nofun⟩
    · exact .inl hp

theorem disjoint (ha : Agrees A s) (he : Effect A s s') : s'.ptrs.Pairwise (Ptr.Apart g) := by
  cases he with
  | stays | moves | allocs | freed => exact ha.disjoint
  | frees | freesLarge => exact ha.disjoint.sublist List.erase_sublist
  | @returns t m size call =>
    have hblock : (s.call t).block A = some ⟨m, size + A.bytes, A.bytes⟩ := by rw [call]; rfl
    refine List.pairwise_cons.mpr ⟨fun q hq u hu => ?_, ha.disjoint⟩
    exact ha.call_apart hblock hu hq
  | @large size sp free =>
    refine List.pairwise_cons.mpr ⟨fun q hq u hu hu' => ?_, ha.disjoint⟩
    obtain ⟨hlo, hhi⟩ := hu
    obtain ⟨-, hout, hlarge⟩ := free (g.pageOf u - sp) (by omega)
    rw [Nat.add_sub_cancel' hlo] at hout hlarge
    rcases ha.live_or_outside hq hu' with ⟨m, size, -, hlive, hhas⟩ | ⟨hheld, -⟩
    · rw [ha.slob.status_of_live hlive hhas] at hout
      cases hout
    · exact hlarge hheld

theorem held (hh : (s.ptrs.filterMap fun p => p.took.compound).Perm s.held) (he : Effect A s s') :
    (s'.ptrs.filterMap fun p => p.took.compound).Perm s'.held := by
  cases he with
  | stays | moves | allocs | freed | returns => exact hh
  | large => exact hh.cons _
  | @frees t p m size idle mem took =>
    have hperm := (List.perm_cons_erase mem).filterMap fun p => p.took.compound
    rw [List.filterMap_cons_none (by rw [took]; rfl)] at hperm
    exact hperm.symm.trans hh
  | @freesLarge p sp order mem took =>
    have hperm := (List.perm_cons_erase mem).filterMap fun p => p.took.compound
    rw [List.filterMap_cons_some (b := (sp, order)) (by rw [took]; rfl)] at hperm
    have hmem : (sp, order) ∈ s.held := hh.subset (hperm.symm.subset List.mem_cons_self)
    exact (hperm.symm.trans (hh.trans (List.perm_cons_erase hmem))).cons_inv

theorem orders (ho : ∀ x ∈ s.held, s.compoundOrder x.1 = x.2) (he : Effect A s s') :
    ∀ x ∈ s'.held, s'.compoundOrder x.1 = x.2 := by
  have hlarge : ∀ x ∈ s.held, InLarge s.held x.1 :=
    fun x hx => ⟨x, hx, le_rfl, Nat.lt_add_of_pos_right (Nat.two_pow_pos _)⟩
  intro x hx
  cases he with
  | stays live point kept => exact (kept x.1 (hlarge x hx)).trans (ho x hx)
  | moves | allocs | freed | returns | frees => exact ho x hx
  | freesLarge => exact ho x (List.mem_of_mem_erase hx)
  | @large size sp free =>
    rcases List.mem_cons.mp hx with rfl | hx
    · exact Function.update_self ..
    · refine (Function.update_of_ne ?_ _ _).trans (ho x hx)
      intro heq
      obtain ⟨-, -, hnot⟩ := free 0 (Nat.two_pow_pos _)
      exact hnot (heq ▸ hlarge x hx)

/-- The pages of the large objects were there before, or they come from outside. -/
theorem inLarge (he : Effect A s s') (hsp : InLarge s'.held sp) :
    InLarge s.held sp ∨ s'.slob.status sp = .outside := by
  obtain ⟨x, hx, hin⟩ := hsp
  cases he with
  | stays | moves | allocs | freed | returns | frees => exact .inl ⟨x, hx, hin⟩
  | freesLarge => exact .inl ⟨x, List.mem_of_mem_erase hx, hin⟩
  | @large size sp' free =>
    rcases List.mem_cons.mp hx with rfl | hx
    · have hlo : sp' ≤ sp := hin.1
      have hhi : sp < sp' + 2 ^ g.getOrder size := hin.2
      obtain ⟨-, hout, -⟩ := free (sp - sp') (by omega)
      rw [Nat.add_sub_cancel' hlo] at hout
      exact .inr hout
    · exact .inl ⟨x, hx, hin⟩

end Effect

/-- The header of a pointer keeps its contents. -/
theorem Alongside.header (ha : Agrees A s) (hw : Alongside nid A s s' es) (hp : p ∈ s.ptrs)
    (htook : p.took = .units m size) :
    readUInt g s'.slob.heap.mem.cell m = readUInt g s.slob.heap.mem.cell m := by
  obtain ⟨hlive, -⟩ := ha.block hp htook
  apply readUInt_congr
  intro u hlo hhi
  have hin := ha.header_has hp htook hlo hhi
  rw [htook] at hin
  refine ha.slob.run_cell_eq hw.run hlive ?_ hin ?_
  · intro e he hfreed
    obtain ⟨t, ht⟩ := hw.freed e he _ hfreed
    cases ha.shares.unique none (some t) _ ⟨p, hp, by rw [htook]; rfl⟩ ht
  · exact fun v hv => hw.store u v hv ⟨p, hp, m, size, htook, hlo, hhi⟩

theorem Agrees.step (ha : Agrees A s) (hs : s.step nid A op = some s') : Agrees A s' := by
  obtain ⟨he, hw⟩ := ha.step_effect hs
  obtain ⟨hi, hf⟩ := ha.slob.run ha.flags hw.run
  refine ⟨hi, hf, he.calls ha.calls, he.shares ha hi, fun p hp => ?_, fun p hp m size htook => ?_,
    he.disjoint ha, he.held ha.held, he.orders ha.orders, fun sp hsp => ?_⟩
  · rcases he.mem_ptrs ha.calls hp with hp | ⟨hserved, -⟩
    · exact ha.served p hp
    · exact hserved
  · rcases he.mem_ptrs ha.calls hp with hp | ⟨-, hheader⟩
    · exact (hw.header ha hp htook).trans (ha.header p hp m size htook)
    · exact hheader m size htook
  · rcases he.inLarge hsp with hlarge | hout
    · exact ha.slob.run_outside hw.run (ha.outside sp hlarge) fun t ht => hw.newPages t sp ht hlarge
    · exact hout

end OperatingSystems.Slob
