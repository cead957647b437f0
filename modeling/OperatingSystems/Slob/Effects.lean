import OperatingSystems.Slob.Pointers

namespace OperatingSystems.Slob

open Library

variable {τ : Type*} {g : Config} {nid : ℕ → ℕ} {A : MinAlign g} {s s' : Allocator τ} {op : Op τ}
  {t : τ} {p : Ptr} {b : Block} {u m size sp order : ℕ}

/-- The steps of the heap in a step of the calls. -/
def Allocator.shows (A : MinAlign g) (s : Allocator τ) : Op τ → List (Event τ)
  | .kmalloc t size node _ =>
      if size < g.pageSize - A.bytes ∧ size ≠ 0 then [.alloc t ⟨size + A.bytes, A.bytes, node⟩] else []
  | .newPages t sp => [.newPages t sp]
  | .addPage t => [.addPage t]
  | .memset _ a v | .store a v => [.store a v]
  | .setHeader t => match s.call t with
    | .header m size => (uintStores g m size).map fun x => .store x.1 x.2
    | _ => []
  | .kfree .. => []
  | .slobFree t => match s.call t with
    | .free m size => [.free t ⟨m, size, A.bytes⟩]
    | _ => []
  | .freePages t => [.freePages t]
  | .reuse sp p next prev _ => [.reuse sp p next prev]

variable [DecidableEq τ]

/-- What a step can do to the calls, the pointers and the live blocks. -/
inductive Effect (A : MinAlign g) (s : Allocator τ) : Allocator τ → Prop
  | stays {slob order} (live : slob.live = s.slob.live) (point : slob.point = s.slob.point)
      (kept : ∀ sp, InLarge s.held sp → order sp = s.compoundOrder sp) :
      Effect A s { s with slob := slob, compoundOrder := order }
  | moves {t c slob} (old : (s.call t).block A = none) (new : c.block A = none)
      (now : c.At A (slob.point t)) (others : ∀ t', t' ≠ t → slob.point t' = s.slob.point t')
      (live : slob.live = s.slob.live) : Effect A s { s.goto t c with slob := slob }
  | allocs {t size slob} (old : (s.call t).block A = none)
      (now : (Call.header slob.returned size).At A (slob.point t))
      (others : ∀ t', t' ≠ t → slob.point t' = s.slob.point t')
      (live : slob.live = ⟨slob.returned, size + A.bytes, A.bytes⟩ :: s.slob.live) :
      Effect A s { s.goto t (.header slob.returned size) with slob := slob }
  | returns {t : τ} {m size : ℕ} (call : s.call t = .header m size) :
      Effect A s { s.goto t .idle with
        slob := { s.slob with heap := s.slob.heap.writeUInt g m size }
        ptrs := ⟨m + A.units, size, .units m (size + A.bytes)⟩ :: s.ptrs }
  | large {size sp : ℕ} (free : s.PagesFree g sp (g.getOrder size)) :
      Effect A s { s with
        compoundOrder := Function.update s.compoundOrder sp (g.getOrder size)
        held := (sp, g.getOrder size) :: s.held
        ptrs := ⟨sp * g.pageUnits, size, .pages sp (g.getOrder size)⟩ :: s.ptrs }
  | frees {t : τ} {p : Ptr} {m size : ℕ} (idle : s.call t = .idle) (mem : p ∈ s.ptrs)
      (took : p.took = .units m size) :
      Effect A s { s.goto t (.free m size) with ptrs := s.ptrs.erase p }
  | freesLarge {p : Ptr} {sp order : ℕ} (mem : p ∈ s.ptrs) (took : p.took = .pages sp order) :
      Effect A s { s with held := s.held.erase (sp, order), ptrs := s.ptrs.erase p }
  | freed {t m size c slob} (call : s.call t = .free m size) (new : c.block A = none)
      (now : c.At A (slob.point t)) (others : ∀ t', t' ≠ t → slob.point t' = s.slob.point t')
      (live : slob.live = s.slob.live.erase ⟨m, size, A.bytes⟩) :
      Effect A s { s.goto t c with slob := slob }

/-- The heap takes the steps `es` meanwhile, and they respect what pointers own. -/
structure Alongside (nid : ℕ → ℕ) (A : MinAlign g) (s s' : Allocator τ) (es : List (Event τ)) :
    Prop where
  run : (machine g nid).run s.slob es = some s'.slob
  newPages : ∀ t sp, .newPages t (some sp) ∈ es → ¬ InLarge s.held sp
  freed : ∀ e ∈ es, ∀ b, e.freed = some b → ∃ t, (s.call t).block A = some b
  store : ∀ u v, .store u v ∈ es → ¬ s.InHeader g u

theorem Alongside.nil (h : s'.slob = s.slob) : Alongside nid A s s' [] := by
  refine ⟨?_, ?_, ?_, ?_⟩
  · rw [h, Machine.run_nil]
  · simp
  · simp
  · simp

/-- One step of the heap that neither frees nor stores. -/
theorem Alongside.call {e : Event τ} (h : Slob.step g nid s.slob e = some s'.slob)
    (hnew : ∀ t sp, e = .newPages t (some sp) → ¬ InLarge s.held sp) (hfreed : e.freed = none)
    (hstore : ∀ u v, e ≠ .store u v) : Alongside nid A s s' [e] := by
  refine ⟨Machine.run_single h, ?_, ?_, ?_⟩
  · intro t sp he
    exact hnew t sp (List.mem_singleton.mp he).symm
  · intro e' he b hb
    rw [List.mem_singleton.mp he, hfreed] at hb
    cases hb
  · intro u v he
    exact absurd (List.mem_singleton.mp he).symm (hstore u v)

namespace Agrees

omit [DecidableEq τ] in
/-- The block in the hands of a call belongs to no pointer. -/
theorem call_apart (ha : Agrees A s) (hb : (s.call t).block A = some b) (hu : b.Has g u)
    (hp : p ∈ s.ptrs) : ¬ p.took.Has g u := by
  intro hin
  have hlive : b ∈ s.slob.live := ha.shares.sub (some t) b hb
  rcases ha.live_or_outside hp hin with ⟨m, size, htook, hlive', hu'⟩ | ⟨-, hout⟩
  · have hne : b ≠ ⟨m, size, A.bytes⟩ := by
      rintro rfl
      cases ha.shares.unique none (some t) _ ⟨p, hp, by rw [htook]; rfl⟩ hb
    have : Std.Symm fun a b : Block => ∀ u, a.Has g u → ¬ b.Has g u :=
      ⟨fun _ _ h u hu hu' => h u hu' hu⟩
    obtain ⟨ls, runs, hl⟩ := ha.slob.layout
    exact hl.disjoint.forall hlive hlive' hne u hu hu'
  · rw [ha.slob.status_of_live hlive hu] at hout
    cases hout

omit [DecidableEq τ] in
theorem call_not_inHeader (ha : Agrees A s) (hb : (s.call t).block A = some b) (hu : b.Has g u) :
    ¬ s.InHeader g u := by
  rintro ⟨q, hq, m, size, htook, hlo, hhi⟩
  exact ha.call_apart hb hu hq (ha.header_has hq htook hlo hhi)

omit [DecidableEq τ] in
/-- Owners write where the heap lets them. -/
theorem owner_writes (ha : Agrees A s) (hown : s.Owns A u ∨ s.slob.status (g.pageOf u) = .outside) :
    s.slob.status (g.pageOf u) = .outside ∨ Live g s.slob.live u := by
  rcases hown with hown | hout
  · obtain ⟨p, hp, hhas, -⟩ := ha.owns hown
    rcases ha.live_or_outside hp hhas with ⟨m, size, -, hlive, hu⟩ | ⟨-, hout⟩
    · exact .inr ⟨_, hlive, hu⟩
    · exact .inl hout
  · exact .inl hout

section Steps

variable (ha : Agrees A s)
include ha

theorem kmalloc_step {node pages : Option ℕ}
    (hs : s.step nid A (.kmalloc t size node pages) = some s') :
    Effect A s s' ∧ Alongside nid A s s' (s.shows A (.kmalloc t size node pages)) := by
  rw [Allocator.step] at hs
  split_ifs at hs with hidle hsmall hzero
  · obtain rfl := Option.some.inj hs
    have hshows : s.shows A (.kmalloc t size node pages) = [] := by simp [Allocator.shows, hzero]
    rw [hshows]
    exact ⟨.stays rfl rfl fun _ _ => rfl, .nil rfl⟩
  · have hshows : s.shows A (.kmalloc t size node pages) =
        [.alloc t ⟨size + A.bytes, A.bytes, node⟩] := by simp [Allocator.shows, hsmall, hzero]
    rw [hshows]
    obtain ⟨slob, hslob, rfl⟩ := Option.map_eq_some_iff.mp hs
    refine ⟨?_, .call hslob nofun rfl nofun⟩
    obtain ⟨ls, runs, hl⟩ := ha.slob.layout
    have hpoint := ha.calls t
    rw [hidle] at hpoint
    have hfits : size + A.bytes < g.pageSize := by omega
    have hnone : (s.call t).block A = none := by rw [hidle]; rfl
    cases step_does hl ha.slob.newPage hslob with
    | allocs idle =>
      rw [if_pos idle]
      exact .allocs hnone ⟨Nat.pos_of_ne_zero hzero, hfits, idle⟩ (fun _ _ => rfl) rfl
    | noRoom =>
      rw [if_neg (by simp [State.goto])]
      refine .moves hnone rfl ⟨Nat.pos_of_ne_zero hzero, hfits, ?_⟩ (fun t' ht => ?_) rfl
      · refine ⟨⟨size + A.bytes, A.bytes, node⟩, ?_, rfl, rfl⟩
        simp only [State.goto, Function.update_self]
        rfl
      · exact Function.update_of_ne ht _ _
  · have hshows : s.shows A (.kmalloc t size node pages) = [] := by simp [Allocator.shows, hsmall]
    rw [hshows]
    cases pages with
    | none =>
      obtain rfl := Option.some.inj hs
      exact ⟨.stays rfl rfl fun _ _ => rfl, .nil rfl⟩
    | some sp =>
      simp only at hs
      split_ifs at hs with hfree
      obtain rfl := Option.some.inj hs
      exact ⟨.large hfree, .nil rfl⟩

theorem newPages_step {sp : Option ℕ} (hs : s.step nid A (.newPages t sp) = some s') :
    Effect A s s' ∧ Alongside nid A s s' [.newPages t sp] := by
  cases hcall : s.call t with
  | alloc size =>
    simp only [Allocator.step, hcall] at hs
    have hfree : ∀ p ∈ sp, ¬ InLarge s.held p := by
      by_contra hnot
      rw [if_neg hnot] at hs
      cases hs
    rw [if_pos hfree] at hs
    obtain ⟨slob, hslob, rfl⟩ := Option.map_eq_some_iff.mp hs
    obtain ⟨hpos, hfits, r, hr, hsize, halign⟩ : (Call.alloc size).At A (s.slob.point t) :=
      hcall ▸ ha.calls t
    have hnone : (s.call t).block A = none := by rw [hcall]; rfl
    constructor
    · obtain ⟨ls, runs, hl⟩ := ha.slob.layout
      cases step_does hl ha.slob.newPage hslob with
      | noPages =>
        refine .moves hnone rfl ?_ (fun t' ht => ?_) rfl
        · exact Function.update_self ..
        · exact Function.update_of_ne ht _ _
      | newPage point =>
        refine .moves hnone rfl ⟨hpos, hfits, r, ?_, hsize, halign⟩ (fun t' ht => ?_) rfl
        · rw [point] at hr
          simpa [State.goto, State.setStatus, Point.request] using hr
        · exact Function.update_of_ne ht _ _
    · refine .call hslob ?_ rfl (by simp)
      rintro t' sp ⟨⟩
      exact hfree sp rfl
  | _ => simp [Allocator.step, hcall] at hs

theorem addPage_step (hs : s.step nid A (.addPage t) = some s') :
    Effect A s s' ∧ Alongside nid A s s' [.addPage t] := by
  cases hcall : s.call t with
  | alloc size =>
    simp only [Allocator.step, hcall] at hs
    obtain ⟨slob, hslob, rfl⟩ := Option.map_eq_some_iff.mp hs
    obtain ⟨hpos, hfits, r, hr, hsize, halign⟩ : (Call.alloc size).At A (s.slob.point t) :=
      hcall ▸ ha.calls t
    refine ⟨?_, .call hslob nofun rfl nofun⟩
    obtain ⟨ls, runs, hl⟩ := ha.slob.layout
    cases step_does hl ha.slob.newPage hslob with
    | addPage point =>
      rw [point] at hr
      obtain rfl := Option.some.inj hr
      refine .allocs (by rw [hcall]; rfl) ⟨hpos, hfits, ?_⟩ (fun t' ht => ?_) ?_
      · exact Function.update_self ..
      · exact Function.update_of_ne ht _ _
      · rw [← hsize, ← halign]
        rfl
  | _ => simp [Allocator.step, hcall] at hs

theorem memset_step {v : ℤ} (hs : s.step nid A (.memset t u v) = some s') :
    Effect A s s' ∧ Alongside nid A s s' [.store u v] := by
  cases hcall : s.call t with
  | header m size =>
    simp only [Allocator.step, hcall] at hs
    split_ifs at hs with hguard
    obtain rfl := Option.some.inj hs
    refine ⟨.stays rfl rfl fun _ _ => rfl, ?_, by simp, by simp [Event.freed], ?_⟩
    · have hblock : (s.call t).block A = some ⟨m, size + A.bytes, A.bytes⟩ := by rw [hcall]; rfl
      have hlive : Live g s.slob.live u :=
        ⟨_, ha.shares.sub (some t) _ hblock, hguard.1, hguard.2.1⟩
      exact Machine.run_single (if_pos (.inr hlive))
    · intro u' v' he
      obtain ⟨rfl, rfl⟩ : u' = u ∧ v' = v := by simpa using he
      exact ha.call_not_inHeader (t := t) (by rw [hcall]; rfl) ⟨hguard.1, hguard.2.1⟩
  | _ => simp [Allocator.step, hcall] at hs

theorem setHeader_step (hs : s.step nid A (.setHeader t) = some s') :
    Effect A s s' ∧ Alongside nid A s s' (s.shows A (.setHeader t)) := by
  cases hcall : s.call t with
  | header m size =>
    simp only [Allocator.step, hcall] at hs
    obtain rfl := Option.some.inj hs
    have hblock : (s.call t).block A = some ⟨m, size + A.bytes, A.bytes⟩ := by rw [hcall]; rfl
    have hhas : ∀ x ∈ uintStores g m size, Block.Has g ⟨m, size + A.bytes, A.bytes⟩ x.1 := by
      intro x hx
      obtain ⟨hlo, hhi⟩ := mem_uintStores hx
      exact ⟨hlo, header_lt A hhi⟩
    refine ⟨.returns hcall, ?_, ?_, ?_, ?_⟩
    · simp only [Allocator.shows, hcall]
      exact run_stores fun x hx => ⟨_, ha.shares.sub (some t) _ hblock, hhas x hx⟩
    · simp [Allocator.shows, hcall]
    · simp only [Allocator.shows, hcall]
      rintro e he b hb
      obtain ⟨x, -, rfl⟩ := List.mem_map.mp he
      cases hb
    · intro u v he
      simp only [Allocator.shows, hcall] at he
      obtain ⟨x, hx, heq⟩ := List.mem_map.mp he
      obtain ⟨rfl, -⟩ := Event.store.inj heq
      exact ha.call_not_inHeader hblock (hhas x hx)
  | _ => simp [Allocator.step, hcall] at hs

theorem kfree_step {block : Pointer} (hs : s.step nid A (.kfree t block) = some s') :
    Effect A s s' ∧ Alongside nid A s s' [] := by
  have hidle : s.call t = .idle := by
    by_contra hnot
    simp [Allocator.step, hnot] at hs
  simp only [Allocator.step, if_pos hidle] at hs
  cases block with
  | null | zeroSize =>
    obtain rfl := Option.some.inj hs
    exact ⟨.stays rfl rfl fun _ _ => rfl, .nil rfl⟩
  | addr block =>
    obtain ⟨p, hfind, hs⟩ := Option.map_eq_some_iff.mp hs
    have hmem := List.mem_of_find?_eq_some hfind
    obtain rfl : p.addr = block := by simpa using List.find?_some hfind
    rw [ha.handsBack_eq hmem] at hs
    cases htook : p.took with
    | units m size =>
      rw [htook] at hs
      subst hs
      exact ⟨.frees hidle hmem htook, .nil rfl⟩
    | pages sp order =>
      rw [htook] at hs
      subst hs
      exact ⟨.freesLarge hmem htook, .nil rfl⟩

theorem slobFree_step (hs : s.step nid A (.slobFree t) = some s') :
    Effect A s s' ∧ Alongside nid A s s' (s.shows A (.slobFree t)) := by
  cases hcall : s.call t with
  | free m size =>
    simp only [Allocator.step, hcall] at hs
    have hblock : (s.call t).block A = some ⟨m, size, A.bytes⟩ := by rw [hcall]; rfl
    obtain ⟨hidle, hlive⟩ := ha.free_ready hcall
    rw [State.slobFree_eq nid hidle hlive] at hs
    obtain ⟨slob, hslob, rfl⟩ := Option.map_eq_some_iff.mp hs
    constructor
    · obtain ⟨ls, runs, hl⟩ := ha.slob.layout
      cases step_does hl ha.slob.newPage hslob with
      | frees =>
        rw [if_pos hidle]
        exact .freed hcall rfl hidle (fun _ _ => rfl) rfl
      | empties =>
        rw [if_neg (c := _ = Point.idle) ?_]
        · refine .freed hcall rfl ?_ (fun t' ht => ?_) rfl
          · exact ⟨_, Function.update_self ..⟩
          · exact Function.update_of_ne ht _ _
        · simp [State.goto, State.setStatus]
    · simp only [Allocator.shows, hcall]
      refine ⟨Machine.run_single hslob, by simp, ?_, by simp⟩
      intro e he b hb
      rw [List.mem_singleton.mp he] at hb
      exact ⟨t, hblock.trans hb⟩
  | _ => simp [Allocator.step, hcall] at hs

theorem freePages_step (hs : s.step nid A (.freePages t) = some s') :
    Effect A s s' ∧ Alongside nid A s s' [.freePages t] := by
  cases hcall : s.call t with
  | freeing =>
    simp only [Allocator.step, hcall] at hs
    obtain ⟨slob, hslob, rfl⟩ := Option.map_eq_some_iff.mp hs
    refine ⟨?_, .call hslob nofun rfl nofun⟩
    obtain ⟨ls, runs, hl⟩ := ha.slob.layout
    cases step_does hl ha.slob.newPage hslob with
    | freePages =>
      refine .moves (by rw [hcall]; rfl) rfl ?_ (fun t' ht => ?_) rfl
      · exact Function.update_self ..
      · exact Function.update_of_ne ht _ _
  | _ => simp [Allocator.step, hcall] at hs

theorem store_step {v : ℤ} (hs : s.step nid A (.store u v) = some s') :
    Effect A s s' ∧ Alongside nid A s s' [.store u v] := by
  rw [Allocator.step] at hs
  split_ifs at hs with hown
  obtain rfl := Option.some.inj hs
  refine ⟨.stays rfl rfl fun _ _ => rfl, ?_, by simp, by simp [Event.freed], ?_⟩
  · exact Machine.run_single (if_pos (ha.owner_writes hown))
  · intro u' v' he
    obtain ⟨rfl, rfl⟩ : u' = u ∧ v' = v := by simpa using he
    exact ha.not_inHeader hown

theorem reuse_step {page : Page} {next prev : Entry}
    (hs : s.step nid A (.reuse sp page next prev order) = some s') :
    Effect A s s' ∧ Alongside nid A s s' [.reuse sp page next prev] := by
  rw [Allocator.step] at hs
  split_ifs at hs with hlarge
  obtain ⟨slob, hslob, rfl⟩ := Option.map_eq_some_iff.mp hs
  refine ⟨?_, .call hslob nofun rfl nofun⟩
  obtain ⟨ls, runs, hl⟩ := ha.slob.layout
  cases step_does hl ha.slob.newPage hslob with
  | reuse =>
    refine .stays rfl rfl fun p hp => ?_
    apply Function.update_of_ne
    rintro rfl
    exact hlarge hp

/-- What every step does. -/
theorem step_effect (hs : s.step nid A op = some s') :
    Effect A s s' ∧ Alongside nid A s s' (s.shows A op) := by
  cases op with
  | kmalloc => exact ha.kmalloc_step hs
  | newPages => exact ha.newPages_step hs
  | addPage => exact ha.addPage_step hs
  | memset => exact ha.memset_step hs
  | setHeader => exact ha.setHeader_step hs
  | kfree => exact ha.kfree_step hs
  | slobFree => exact ha.slobFree_step hs
  | freePages => exact ha.freePages_step hs
  | store => exact ha.store_step hs
  | reuse => exact ha.reuse_step hs

end Steps

end Agrees

end OperatingSystems.Slob
