import OperatingSystems.Slob.Layout

namespace OperatingSystems.Slob

open Library

variable {τ : Type*} [DecidableEq τ] {g : Config} {nid : ℕ → ℕ} {s s' : State τ} {e : Event τ}
  {ls : SizeClass → List ℕ} {runs : ℕ → List (ℕ × ℕ)} {r : Request}

theorem Request.Valid.validAlign (h : r.Valid g) : ValidAlign r.align :=
  h.2.2.imp_right fun ha => ⟨_, ha.1.symm⟩

theorem Request.Valid.align_le (h : r.Valid g) : r.align ≤ g.pageSize := by
  rcases h.2.2 with ha | ha
  · rw [ha]
    exact Nat.zero_le _
  · exact ha.2

/-- What a step can do, on a heap with the partial lists `ls` and the free runs `runs`. -/
inductive Does (g : Config) (nid : ℕ → ℕ) (ls : SizeClass → List ℕ) (runs : ℕ → List (ℕ × ℕ))
    (s : State τ) : Event τ → State τ → Prop
  | allocs {t r sp as bs h links b xs} (idle : s.point t = .idle) (valid : r.Valid g)
      (list : ls (slobList r.size) = as ++ sp :: bs) (eligible : Eligible nid r sp)
      (before : ∀ sp' ∈ as, Eligible nid r sp' → NoRoom g r (runs sp'))
      (served : Served g sp r.size r.align (runs sp) s.heap h b)
      (takes : Takes g sp b (g.unitsOf r.size) (runs sp) xs s.heap h)
      (aligned : r.align ≠ 0 → r.align ∣ b * g.slobUnit)
      (lists : PartialLists links (Function.update ls (slobList r.size)
        (if xs = [] then bs ++ as else sp :: bs ++ as))) :
      Does g nid ls runs s (.alloc t r)
        { s with heap := { h with links := links }, live := ⟨b, r.size, r.align⟩ :: s.live }
  | noRoom {t r} (idle : s.point t = .idle) (valid : r.Valid g)
      (none : ∀ sp ∈ ls (slobList r.size), Eligible nid r sp → NoRoom g r (runs sp)) :
      Does g nid ls runs s (.alloc t r) (s.goto t (.noRoom r))
  | noPages {t r} (point : s.point t = .noRoom r) :
      Does g nid ls runs s (.newPages t none) (s.goto t .idle)
  | newPage {t r sp} (point : s.point t = .noRoom r) (status : s.status sp = .outside)
      (frame : sp < g.frames) :
      Does g nid ls runs s (.newPages t (some sp))
        { (s.goto t (.newPage r sp)).setStatus sp .taken with heap := s.heap.setSlab sp true }
  | addPage {t r sp h xs} (point : s.point t = .newPage r sp) (manages : Manages g h sp xs)
      (covers : ∀ u, Covers xs u ↔ Covers [(sp * g.pageUnits, g.pageUnits)] u ∧
        ¬ (sp * g.pageUnits ≤ u ∧ u < sp * g.pageUnits + g.unitsOf r.size))
      (touches : Touches sp {u | Covers [(sp * g.pageUnits, g.pageUnits)] u} s.heap h)
      (lists : PartialLists h.links (Function.update ls (slobList r.size)
        (if xs = [] then ls (slobList r.size) else sp :: ls (slobList r.size)))) :
      Does g nid ls runs s (.addPage t)
        { (s.goto t .idle).setStatus sp .heap with
          heap := h, live := ⟨sp * g.pageUnits, r.size, r.align⟩ :: s.live }
  | frees {t b sp h xs} (idle : s.point t = .idle) (live : b ∈ s.live)
      (page : sp = g.pageOf b.start) (ne : xs ≠ [])
      (frees : Frees g sp b.start (g.unitsOf b.size) (slobList b.size) (runs sp) xs s.heap h) :
      Does g nid ls runs s (.free t b) { s with heap := h, live := s.live.erase b }
  | empties {t b sp} (idle : s.point t = .idle) (live : b ∈ s.live) (page : sp = g.pageOf b.start)
      (size : runsSize (runs sp) + g.unitsOf b.size = g.pageUnits) :
      Does g nid ls runs s (.free t b)
        ((State.goto { s with
          heap := if runs sp = [] then s.heap else s.heap.clearSlobPageFree sp
          live := s.live.erase b } t (.pageEmpty sp)).setStatus sp .leaving)
  | freePages {t sp} (point : s.point t = .pageEmpty sp) :
      Does g nid ls runs s (.freePages t)
        { (s.goto t .idle).setStatus sp .outside with heap := s.heap.setSlab sp false }
  | store {a v} (own : s.status (g.pageOf a) = .outside ∨ Live g s.live a) :
      Does g nid ls runs s (.store a v) { s with heap := s.heap.store a v }
  | reuse {sp p next prev} (status : s.status sp = .outside) :
      Does g nid ls runs s (.reuse sp p next prev) { s with heap := s.heap.reuse sp p next prev }

section Sections

variable {t : τ} (hl : Layout g s.heap s.status s.live ls runs)
include hl

/-- The first locked section of `slob_alloc` comes to its end. -/
theorem alloc_does (nid : ℕ → ℕ) (hidle : s.point t = .idle) (hvalid : r.Valid g) :
    ∃ s', step g nid s (.alloc t r) = some s' ∧ Does g nid ls runs s (.alloc t r) s' := by
  have hpages : ∀ sp ∈ ls (slobList r.size), Manages g s.heap sp (runs sp) ∧ runs sp ≠ [] := by
    intro sp hsp
    have hmem := (hl.mem_iff sp).mp ⟨_, hsp⟩
    exact ⟨hl.manages sp hmem.1, hmem.2⟩
  rw [step, if_pos ⟨hidle, hvalid⟩]
  rcases slobAllocSearch_spec nid hl.lists (hl.length_le _) hpages hvalid.1 hvalid.validAlign with
    ⟨hsearch, hnone⟩ |
      ⟨sp, as, bs, h, links, b, xs, hlist, helig, hbefore, hserved, htakes, hsearch, hlists⟩
  · rw [hsearch]
    exact ⟨_, rfl, .noRoom hidle hvalid hnone⟩
  · rw [hsearch]
    have hsp : sp ∈ ls (slobList r.size) := by rw [hlist]; simp
    have haligned := (hserved.takes (hpages sp hsp).1 hvalid.1 hvalid.validAlign).2
    exact ⟨_, rfl, .allocs hidle hvalid hlist helig hbefore hserved htakes haligned hlists⟩

/-- So does the second one. -/
theorem addPage_does {sp : ℕ} (nid : ℕ → ℕ) (hpoint : s.point t = .newPage r sp)
    (hstatus : s.status sp = .taken) (hvalid : r.Valid g) :
    ∃ s', step g nid s (.addPage t) = some s' ∧ Does g nid ls runs s (.addPage t) s' := by
  have hnot : ∀ c, sp ∉ ls c := hl.not_mem_of_status (by rw [hstatus]; nofun)
  obtain ⟨h, xs, hnew, hm, hcovers, ht, hlists⟩ := slobAllocNew_spec hl.lists hnot hvalid.1
    hvalid.2.1 hvalid.validAlign hvalid.align_le
  simp only [step, hpoint, hnew]
  exact ⟨_, rfl, .addPage hpoint hm hcovers ht hlists⟩

/-- And the one of `slob_free`. -/
theorem free_does {b : Block} (nid : ℕ → ℕ) (hidle : s.point t = .idle) (hmem : b ∈ s.live) :
    ∃ s', step g nid s (.free t b) = some s' ∧ Does g nid ls runs s (.free t b) s' := by
  rw [step, if_pos ⟨hidle, hmem⟩]
  rcases hl.slobFree_eq hmem with ⟨hsize, hfree⟩ | ⟨-, h, xs, hfree, hne, hf⟩
  · rw [hfree]
    exact ⟨_, rfl, .empties hidle hmem rfl hsize⟩
  · rw [hfree]
    exact ⟨_, rfl, .frees hidle hmem rfl hne hf⟩

theorem step_does (hclaim : ∀ t r sp, s.point t = .newPage r sp → s.status sp = .taken ∧ r.Valid g)
    (hs : step g nid s e = some s') : Does g nid ls runs s e s' := by
  cases e with
  | alloc t r =>
    have hguard : s.point t = .idle ∧ r.Valid g := by
      by_contra hnot
      rw [step, if_neg hnot] at hs
      cases hs
    obtain ⟨s'', hs'', hd⟩ := alloc_does hl nid hguard.1 hguard.2
    exact Option.some.inj (hs''.symm.trans hs) ▸ hd
  | newPages t sp =>
    cases hpoint : s.point t with
    | noRoom r =>
      cases sp with
      | none =>
        simp only [step, hpoint] at hs
        obtain rfl := Option.some.inj hs
        exact .noPages hpoint
      | some sp =>
        simp only [step, hpoint] at hs
        split_ifs at hs with hguard
        obtain rfl := Option.some.inj hs
        exact .newPage hpoint hguard.1 hguard.2
    | _ => simp [step, hpoint] at hs
  | addPage t =>
    cases hpoint : s.point t with
    | newPage r sp =>
      obtain ⟨hstatus, hvalid⟩ := hclaim t r sp hpoint
      obtain ⟨s'', hs'', hd⟩ := addPage_does hl nid hpoint hstatus hvalid
      exact Option.some.inj (hs''.symm.trans hs) ▸ hd
    | _ => simp [step, hpoint] at hs
  | free t b =>
    have hguard : s.point t = .idle ∧ b ∈ s.live := by
      by_contra hnot
      rw [step, if_neg hnot] at hs
      cases hs
    obtain ⟨s'', hs'', hd⟩ := free_does hl nid hguard.1 hguard.2
    exact Option.some.inj (hs''.symm.trans hs) ▸ hd
  | freePages t =>
    cases hpoint : s.point t with
    | pageEmpty sp =>
      simp only [step, hpoint] at hs
      obtain rfl := Option.some.inj hs
      exact .freePages hpoint
    | _ => simp [step, hpoint] at hs
  | store a v =>
    rw [step] at hs
    split_ifs at hs with hown
    obtain rfl := Option.some.inj hs
    exact .store hown
  | reuse sp p next prev =>
    rw [step] at hs
    split_ifs at hs with hstatus
    obtain rfl := Option.some.inj hs
    exact .reuse hstatus

end Sections

end OperatingSystems.Slob
