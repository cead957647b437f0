import OperatingSystems.Slob.Agreement
import OperatingSystems.Slob.CacheObjects

namespace OperatingSystems.Slob

open Library

variable {τ : Type*} [DecidableEq τ] {g : Config} {nid : ℕ → ℕ} {w : PointerSize}

section Heap

variable {s s' : State τ} {e : Event τ} {ls : SizeClass → List ℕ} {runs : ℕ → List (ℕ × ℕ)} {t : τ}

/-- A step moves its own thread only. -/
theorem Does.point_eq (hd : Does g nid ls runs s e s') (ht : e.thread ≠ some t) :
    s'.point t = s.point t := by
  cases hd with
  | allocs | frees | store | reuse => rfl
  | noRoom | noPages | newPage | addPage | empties | freePages =>
    refine Function.update_of_ne ?_ _ _
    rintro rfl
    exact ht rfl

/-- The contents of a live block that is not freed, and of the pages outside, change only where they are
stored to. -/
theorem Does.cell_kept {u : ℕ} (hi : Invariant g s) (hl : Layout g s.heap s.status s.live ls runs)
    (hd : Does g nid ls runs s e s') (hstored : e.stored ≠ some u)
    (hu : (∃ b ∈ s.live, b.Has g u ∧ e.freed ≠ some b) ∨ s.status (g.pageOf u) = .outside) :
    s'.heap.mem.cell u = s.heap.mem.cell u := by
  by_cases hcall : e.isCall = true
  · refine (hd.writesIn hi hl hcall).cell u ?_
    rcases hu with ⟨b, hb, hbu, hfreed⟩ | hout
    · exact hd.not_writable hl hb hfreed hbu
    · rintro (⟨hheap | htaken, -⟩ | ⟨b, hfreed, hbu⟩)
      · rw [hout] at hheap
        cases hheap
      · rw [hout] at htaken
        cases htaken
      · have hlive : b ∈ s.live := by
          cases hd with
          | frees idle live | empties idle live => exact Option.some.inj hfreed ▸ live
          | _ => cases hfreed
        rw [hi.status_of_live hlive hbu] at hout
        cases hout
  · cases hd with
    | @store a v =>
      refine Function.update_of_ne ?_ _ _
      rintro rfl
      exact hstored rfl
    | reuse => rfl
    | _ => exact absurd rfl hcall

/-- Owners write single bytes, too. -/
theorem Invariant.storeByte {a v : ℕ} (hi : Invariant g s)
    (hown : s.status (g.pageOf (a / g.slobUnit)) = .outside ∨ Live g s.live (a / g.slobUnit)) :
    Invariant g { s with heap := s.heap.storeByte g a v } :=
  have hs : Slob.step g (fun _ => 0) s (.store (a / g.slobUnit) (putByte g s.heap.mem.cell a v)) =
      some { s with heap := s.heap.storeByte g a v } := if_pos hown
  hi.step hs

end Heap

variable {s s' : Caches τ} {o : Object} {st : Stage τ} {t : τ} {x : Object × Stage τ}

/-- The thread that has the object in its hands. -/
def Stage.owner : Stage τ → Option τ
  | fresh t | leaving t => some t
  | inUse | queued .. => none

/-- The object stays, in the stage it was in, and its owner does not move. -/
structure Stays (g : Config) (w : PointerSize) (s s' : Caches τ) (m : Option τ)
    (x : Object × Stage τ) : Prop where
  mem : x ∈ s.objects
  reserved : x.1.Reserved g s'.slob.live s'.held
  owner : ∀ t, x.2.owner = some t → m ≠ some t
  field : ∀ head readers, x.2 = .queued head readers →
    readInt g s'.slob.heap.mem.cell (head + w.rcuHead) =
      readInt g s.slob.heap.mem.cell (head + w.rcuHead)

/-- The object comes to a stage that it fits. -/
structure Comes (g : Config) (w : PointerSize) (s' : Caches τ) (x : Object × Stage τ) : Prop where
  valid : x.1.cache.Valid g w
  reserved : x.1.Reserved g s'.slob.live s'.held
  fits : x.2.Fits g w s' x.1

namespace Kept

variable (hk : Kept g w s)
include hk

/-- One thread moves, or nobody. -/
theorem advance (m : Option τ) (hinv : Invariant g s'.slob)
    (hout : ∀ sp, InLarge s'.held sp → s'.slob.status sp = .outside)
    (hcaches : s'.caches = s.caches) (hreaders : s.readers ⊆ s'.readers)
    (hcall : ∀ t, m ≠ some t → s'.call t = s.call t)
    (hpoint : ∀ t, m ≠ some t → s.call t ≠ .idle → s'.slob.point t = s.slob.point t)
    (hnow : ∀ t, m = some t → (s'.call t).Fits g w s' t)
    (hobjects : ∀ x ∈ s'.objects, Stays g w s s' m x ∨ Comes g w s' x)
    (hothers : ∀ x ∈ s.objects, ∀ t, x.2.owner = some t → m ≠ some t → x ∈ s'.objects)
    (hdisjoint : s'.objects.Pairwise fun x y => x.1.Apart g y.1) : Kept g w s' := by
  refine ⟨hinv, hout, hcaches ▸ hk.caches, fun x hx => ?_, fun x hx => ?_, hdisjoint, fun x hx => ?_,
    fun t => ?_⟩
  · exact (hobjects x hx).elim (fun h => hk.valid x h.mem) Comes.valid
  · exact (hobjects x hx).elim Stays.reserved Comes.reserved
  · rcases hobjects x hx with hstays | hcomes
    · have hfits := hk.stages x hstays.mem
      have hcalls := fun t ht => hcall t (hstays.owner t ht)
      have hfield := hstays.field
      obtain ⟨o, stage⟩ := x
      cases stage with
      | fresh t => exact (hcalls t rfl).trans hfits
      | inUse => trivial
      | queued head readers =>
        obtain ⟨hrcu, hhead, hsize, hsub⟩ := hfits
        exact ⟨hrcu, hhead, (hfield head readers rfl).trans hsize, fun t ht => hreaders (hsub ht)⟩
      | leaving t => exact ⟨(hcalls t rfl).trans hfits.1, hfits.2⟩
    · exact hcomes.fits
  · by_cases hm : m = some t
    · exact hnow t hm
    · have hfits := hk.calls t
      have hpt := hpoint t hm
      rw [hcall t hm]
      cases hc : s.call t with
      | idle => trivial
      | alloc c =>
        rw [hc] at hfits hpt
        obtain ⟨hvalid, hsmall, r, hr, hsize, halign⟩ := hfits
        exact ⟨hvalid, hsmall, r, (congrArg Point.request (hpt (by simp))).trans hr, hsize, halign⟩
      | setUp o =>
        rw [hc] at hfits hpt
        exact ⟨(hpt (by simp)).trans hfits.1, hothers _ hfits.2 t rfl hm⟩
      | free b =>
        rw [hc] at hfits hpt
        obtain ⟨hidle, o, ho, hb⟩ := hfits
        exact ⟨(hpt (by simp)).trans hidle, o, hothers _ ho t rfl hm, hb⟩
      | freeing =>
        rw [hc] at hfits hpt
        obtain ⟨sp, hsp⟩ := hfits
        exact ⟨sp, (hpt (by simp)).trans hsp⟩

omit [DecidableEq τ] in
theorem size_pos (hx : x ∈ s.objects) : 0 < x.1.cache.size := by
  have hvalid := hk.valid x hx
  have hpos := hvalid.pos
  rw [hvalid.size_eq]
  omega

omit [DecidableEq τ] in
theorem nodup : s.objects.Nodup := by
  refine hk.disjoint.imp_of_mem ?_
  rintro x y hx - hapart rfl
  have hpos := Object.units_pos (g := g) (hk.size_pos hx)
  have hfirst : x.1.Has g x.1.addr := ⟨le_rfl, by omega⟩
  exact hapart _ hfirst hfirst

omit [DecidableEq τ] in
/-- Who has an object in its hands is in a call. -/
theorem owner_call (hx : x ∈ s.objects) (ht : x.2.owner = some t) :
    s.call t = .setUp x.1 ∧ x.2 = .fresh t ∨ s.call t = .free x.1.block ∧ x.2 = .leaving t := by
  have hfits := hk.stages x hx
  obtain ⟨o, stage⟩ := x
  cases stage with
  | fresh t' =>
    obtain rfl := Option.some.inj ht
    exact .inl ⟨hfits, rfl⟩
  | leaving t' =>
    obtain rfl := Option.some.inj ht
    exact .inr ⟨hfits.1, rfl⟩
  | inUse | queued => cases ht

omit [DecidableEq τ] in
theorem not_owner (ht : (∀ o, s.call t ≠ .setUp o) ∧ ∀ b, s.call t ≠ .free b) :
    ∀ x ∈ s.objects, x.2.owner ≠ some t := by
  intro x hx howner
  rcases hk.owner_call hx howner with ⟨hcall, -⟩ | ⟨hcall, -⟩
  · exact ht.1 _ hcall
  · exact ht.2 _ hcall

omit [DecidableEq τ] in
theorem not_owner_of_idle (ht : s.call t = .idle) : ∀ x ∈ s.objects, x.2.owner ≠ some t :=
  hk.not_owner (by simp [ht])

omit [DecidableEq τ] in
theorem block_ne {y : Object × Stage τ} (hx : x ∈ s.objects) (hy : y ∈ s.objects) (hne : x ≠ y) :
    x.1.block ≠ y.1.block := by
  intro heq
  have hapart := hk.disjoint.forall hx hy hne
  obtain ⟨haddr, hsize, -⟩ := Block.mk.inj heq
  have hposx := Object.units_pos (g := g) (hk.size_pos hx)
  have hposy := Object.units_pos (g := g) (hk.size_pos hy)
  exact hapart x.1.addr ⟨le_rfl, by omega⟩ ⟨by omega, by omega⟩

/-- A step of the heap that neither frees nor takes nor writes to what the objects have. -/
theorem heap_step {e : Event τ} {slob : State τ} (objects : List (Object × Stage τ))
    (hs : Slob.step g nid s.slob e = some slob) (hsub : objects ⊆ s.objects)
    (hfreed : ∀ b ∈ e.freed, ∀ x ∈ objects, x.1.block ≠ b)
    (hpage : ∀ sp ∈ e.page, ¬ InLarge s.held sp)
    (hstored : ∀ u ∈ e.stored, ∀ x ∈ objects, ¬ x.1.Has g u) :
    Invariant g slob ∧ (∀ sp, InLarge s.held sp → slob.status sp = .outside) ∧
    (∀ t, e.thread ≠ some t → slob.point t = s.slob.point t) ∧
    ∀ x ∈ objects, x.1.Reserved g slob.live s.held ∧
      ∀ u, x.1.Has g u → slob.heap.mem.cell u = s.slob.heap.mem.cell u := by
  obtain ⟨ls, runs, hl⟩ := hk.slob.layout
  have hd := step_does hl hk.slob.newPage hs
  refine ⟨hk.slob.step hs, fun sp hsp => ?_, fun t => hd.point_eq, fun x hx => ⟨?_, fun u hu => ?_⟩⟩
  · refine hd.outside hk.slob hl (hk.outside sp hsp) ?_
    rintro t rfl
    exact hpage sp rfl hsp
  · have hreserved := hk.reserved x (hsub hx)
    unfold Object.Reserved at hreserved ⊢
    split_ifs at hreserved ⊢
    · exact hd.live hreserved fun hb => hfreed _ hb x hx rfl
    · exact hreserved
  · refine hd.cell_kept hk.slob hl (fun hu' => hstored u hu' x hx hu) ?_
    rcases (hk.reserved x (hsub hx)).status hk.slob hk.outside hu with
      ⟨-, hlive, hhas, -⟩ | ⟨-, -, hout⟩
    · exact .inl ⟨_, hlive, hhas, fun hb => hfreed _ hb x hx rfl⟩
    · exact .inr hout

omit [DecidableEq τ] in
/-- `size` of a queued `struct slob_rcu` lies in the object. -/
theorem field_inside {head : ℕ} {readers : List τ} (hx : (o, .queued head readers) ∈ s.objects) :
    o.addr * g.slobUnit + o.cache.objectSize = head ∧
      head + w.rcuHead + 4 ≤ o.addr * g.slobUnit + o.cache.size := by
  have hvalid : o.cache.Valid g w := hk.valid _ hx
  have hfits : (Stage.queued head readers).Fits g w s o := hk.stages _ hx
  obtain ⟨hrcu, hhead, -⟩ := hfits
  have hsize := hvalid.size_eq
  rw [if_pos hrcu] at hsize
  rw [Object.slobRcu] at hhead
  have hbytes : 4 ≤ w.bytes := by cases w <;> decide
  unfold PointerSize.rcuHead PointerSize.slobRcu at *
  omega

omit [DecidableEq τ] in
theorem field_of_cells {head : ℕ} {readers : List τ} {cell : ℕ → ℤ}
    (hx : (o, .queued head readers) ∈ s.objects)
    (hcell : ∀ u, o.Has g u → cell u = s.slob.heap.mem.cell u) :
    readInt g cell (head + w.rcuHead) = readInt g s.slob.heap.mem.cell (head + w.rcuHead) := by
  obtain ⟨hlo, hhi⟩ := hk.field_inside hx
  refine readInt_congr fun i hi => ?_
  rw [readByte, readByte, hcell]
  exact Object.has_of_byte (by omega) (by omega)

omit [DecidableEq τ] in
theorem stays {m : Option τ} (hx : x ∈ s.objects) (hres : x.1.Reserved g s'.slob.live s'.held)
    (howner : ∀ t, x.2.owner = some t → m ≠ some t)
    (hcell : ∀ u, x.1.Has g u → s'.slob.heap.mem.cell u = s.slob.heap.mem.cell u) :
    Stays g w s s' m x := by
  refine ⟨hx, hres, howner, fun head readers hstage => ?_⟩
  have hqueued : (x.1, .queued head readers) ∈ s.objects := by
    rw [← hstage]
    exact hx
  exact hk.field_of_cells hqueued hcell

/-- A write of one byte to an object, which is not one of `size` of its `struct slob_rcu`. -/
theorem storeByte {a v : ℕ} (hx : x ∈ s.objects) (hlo : x.1.addr * g.slobUnit ≤ a)
    (hhi : a < x.1.addr * g.slobUnit + x.1.cache.size)
    (hfield : ∀ head ∈ x.2.head?, a < head + w.rcuHead) : Kept g w (s.storeByte g a v) := by
  have hhas : x.1.Has g (a / g.slobUnit) := Object.has_of_byte hlo hhi
  have hown : s.slob.status (g.pageOf (a / g.slobUnit)) = .outside ∨
      Live g s.slob.live (a / g.slobUnit) := by
    rcases (hk.reserved x hx).status hk.slob hk.outside hhas with ⟨-, hlive, hu, -⟩ | ⟨-, -, hout⟩
    · exact .inr ⟨_, hlive, hu⟩
    · exact .inl hout
  refine hk.advance none (hk.slob.storeByte hown) hk.outside rfl (fun _ => id) (fun _ _ => rfl)
    (fun _ _ _ => rfl) (by simp) (fun y hy => .inl ⟨hy, hk.reserved y hy, by simp, ?_⟩)
    (fun y hy _ _ _ => hy) hk.disjoint
  intro head readers hstage
  have hqueued : (y.1, .queued head readers) ∈ s.objects := by
    rw [← hstage]
    exact hy
  obtain ⟨hbefore, hafter⟩ := hk.field_inside hqueued
  refine readInt_congr fun i hi => readByte_storeByte_of_ne ?_
  rintro rfl
  by_cases hxy : x = y
  · subst hxy
    have := hfield head (by rw [hstage]; rfl)
    omega
  · refine hk.disjoint.forall hx hy hxy _ hhas (Object.has_of_byte ?_ ?_)
    · omega
    · omega

end Kept

end OperatingSystems.Slob
