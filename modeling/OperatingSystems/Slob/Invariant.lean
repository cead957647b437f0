import OperatingSystems.Slob.Steps

namespace OperatingSystems.Slob

open Library

variable {τ : Type*} {g : Config} {nid : ℕ → ℕ} {s s' : State τ} {e : Event τ}
  {ls : SizeClass → List ℕ} {runs : ℕ → List (ℕ × ℕ)} {status : ℕ → Status} {point : τ → Point}

namespace Point

/-- The page that a call has in its hands, and what it counts as. -/
def claim : Point → Option (ℕ × Status)
  | newPage _ sp => some (sp, .taken)
  | pageEmpty sp => some (sp, .leaving)
  | _ => none

def request : Point → Option Request
  | noRoom r | newPage r _ => some r
  | _ => none

end Point

/-- Every page in the hands of a call is in the hands of one call only. -/
structure Claims (point : τ → Point) (status : ℕ → Status) : Prop where
  status_eq : ∀ t sp st, (point t).claim = some (sp, st) → status sp = st
  unique : ∀ t t' sp st st', (point t).claim = some (sp, st) → (point t').claim = some (sp, st') → t = t'

structure Invariant (g : Config) (s : State τ) : Prop where
  layout : ∃ ls runs, Layout g s.heap s.status s.live ls runs
  claims : Claims s.point s.status
  valid : ∀ t r, (s.point t).request = some r → r.Valid g

theorem Point.claim_ne {p : Point} {sp : ℕ} {st : Status} (h : p.claim = some (sp, st)) :
    st ≠ .outside ∧ st ≠ .heap := by
  cases p <;> simp only [claim, Option.some.injEq, Prod.mk.injEq, reduceCtorEq] at h <;>
    obtain ⟨-, rfl⟩ := h <;> exact ⟨nofun, nofun⟩

namespace Claims

variable {t : τ} {p : Point} {sp : ℕ} {st : Status}

/-- No call has a page of the heap in its hands, nor one outside. -/
theorem unclaimed (hc : Claims point status) (hsp : status sp = .outside ∨ status sp = .heap) (t : τ) :
    ∀ st', (point t).claim ≠ some (sp, st') := by
  intro st' hclaim
  have hne := Point.claim_ne hclaim
  rw [hc.status_eq t sp st' hclaim] at hsp
  exact hsp.elim hne.1 hne.2

/-- Nor has another call the page of this one. -/
theorem others (hc : Claims point status) (hclaim : (point t).claim = some (sp, st)) :
    ∀ t', t' ≠ t → ∀ st', (point t').claim ≠ some (sp, st') :=
  fun t' ht st' hclaim' => ht (hc.unique t' t sp st' st hclaim' hclaim)

variable [DecidableEq τ]

/-- A call goes on without a page in its hands. -/
theorem goto (hc : Claims point status) (hp : p.claim = none) :
    Claims (Function.update point t p) status := by
  have hold : ∀ t' sp st, (Function.update point t p t').claim = some (sp, st) →
      (point t').claim = some (sp, st) := by
    intro t' sp st hclaim
    by_cases ht : t' = t
    · subst ht
      rw [Function.update_self, hp] at hclaim
      cases hclaim
    · rwa [Function.update_of_ne ht] at hclaim
  exact ⟨fun t' sp st h => hc.status_eq t' sp st (hold t' sp st h),
    fun t₁ t₂ sp st st' h₁ h₂ => hc.unique t₁ t₂ sp st st' (hold _ _ _ h₁) (hold _ _ _ h₂)⟩

/-- A page that no other call has in its hands changes its status. -/
theorem update (hc : Claims point status)
    (hmine : ∀ t', t' ≠ t → ∀ st', (point t').claim ≠ some (sp, st'))
    (hp : ∀ sp' st', p.claim = some (sp', st') → sp' = sp ∧ st' = st) :
    Claims (Function.update point t p) (Function.update status sp st) := by
  have hold : ∀ t' sp' st', (Function.update point t p t').claim = some (sp', st') →
      t' = t ∧ sp' = sp ∧ st' = st ∨ t' ≠ t ∧ sp' ≠ sp ∧ (point t').claim = some (sp', st') := by
    intro t' sp' st' hclaim
    by_cases ht : t' = t
    · subst ht
      rw [Function.update_self] at hclaim
      exact .inl ⟨rfl, hp sp' st' hclaim⟩
    · rw [Function.update_of_ne ht] at hclaim
      exact .inr ⟨ht, fun hsp => hmine t' ht st' (hsp ▸ hclaim), hclaim⟩
  constructor
  · intro t' sp' st' hclaim
    rcases hold t' sp' st' hclaim with ⟨-, rfl, rfl⟩ | ⟨-, hsp, hclaim⟩
    · exact Function.update_self ..
    · rw [Function.update_of_ne hsp]
      exact hc.status_eq t' sp' st' hclaim
  · intro t₁ t₂ sp' st₁ st₂ h₁ h₂
    rcases hold t₁ sp' st₁ h₁ with ⟨rfl, hsp, -⟩ | ⟨-, hsp, hclaim₁⟩ <;>
      rcases hold t₂ sp' st₂ h₂ with ⟨rfl, hsp', -⟩ | ⟨-, hsp', hclaim₂⟩
    · rfl
    · exact absurd hsp hsp'
    · exact absurd hsp' hsp
    · exact hc.unique t₁ t₂ sp' st₁ st₂ hclaim₁ hclaim₂

end Claims

variable [DecidableEq τ]

theorem Does.claims (hc : Claims s.point s.status) (hb : ∀ b ∈ s.live, s.status (g.pageOf b.start) = .heap)
    (hd : Does g nid ls runs s e s') : Claims s'.point s'.status := by
  cases hd with
  | allocs | frees | store | reuse => exact hc
  | noRoom | noPages => exact hc.goto rfl
  | newPage point status =>
    refine hc.update (fun t' _ => hc.unclaimed (.inl status) t') fun sp' st' hclaim => ?_
    obtain ⟨rfl, rfl⟩ := Prod.mk.inj (Option.some.inj hclaim)
    exact ⟨rfl, rfl⟩
  | addPage point => exact hc.update (hc.others (by rw [point]; rfl)) nofun
  | empties idle live page =>
    refine hc.update (fun t' _ => hc.unclaimed (.inr (page ▸ hb _ live)) t') fun sp' st' hclaim => ?_
    obtain ⟨rfl, rfl⟩ := Prod.mk.inj (Option.some.inj hclaim)
    exact ⟨rfl, rfl⟩
  | freePages point => exact hc.update (hc.others (by rw [point]; rfl)) nofun

theorem Does.valid (hvalid : ∀ t r, (s.point t).request = some r → r.Valid g)
    (hd : Does g nid ls runs s e s') : ∀ t r, (s'.point t).request = some r → r.Valid g := by
  have hgoto : ∀ {t : τ} {p : Point}, (∀ r, p.request = some r → r.Valid g) →
      ∀ t' r, (Function.update s.point t p t').request = some r → r.Valid g := by
    intro t p hp t' r hr
    by_cases ht : t' = t
    · subst ht
      rw [Function.update_self] at hr
      exact hp r hr
    · rw [Function.update_of_ne ht] at hr
      exact hvalid t' r hr
  cases hd with
  | allocs | frees | store | reuse => exact hvalid
  | noRoom idle valid => exact hgoto fun r hr => Option.some.inj hr ▸ valid
  | newPage point =>
    have hr := hvalid _ _ (by rw [point]; rfl)
    exact hgoto fun r' hr' => Option.some.inj hr' ▸ hr
  | noPages | addPage | empties | freePages => exact hgoto nofun

/-- The step puts the page `p` on the list `c`. -/
def Files (g : Config) (s : State τ) (c : SizeClass) (p : ℕ) : Event τ → Prop
  | .addPage t => ∃ r, s.point t = .newPage r p ∧ c = slobList r.size
  | .free _ b => p = g.pageOf b.start ∧ c = slobList b.size
  | _ => False

/-- Every step keeps the heap in order. -/
theorem Does.layout (hl : Layout g s.heap s.status s.live ls runs)
    (hclaims : Claims s.point s.status) (hvalid : ∀ t r, (s.point t).request = some r → r.Valid g)
    (hd : Does g nid ls runs s e s') : ∃ ls' runs', Layout g s'.heap s'.status s'.live ls' runs' ∧
      ∀ c p, p ∈ ls' c → p ∈ ls c ∨ Files g s c p e := by
  cases hd with
  | @allocs t r sp as bs h links b xs idle valid list eligible before served takes aligned lists =>
    refine ⟨_, _, hl.alloc list takes lists aligned valid.1, fun c p hp => .inl ?_⟩
    rcases mem_update hp with ⟨rfl, hin⟩ | hold
    · rw [list]
      split_ifs at hin <;> simp only [List.mem_append, List.mem_cons] at hin ⊢ <;> tauto
    · exact hold
  | noRoom | noPages => exact ⟨ls, runs, hl, fun _ _ => .inl⟩
  | newPage point status frame =>
    exact ⟨ls, runs, hl.setSlab (by rw [status]; nofun) nofun fun _ => frame, fun _ _ => .inl⟩
  | @addPage t r sp h xs point manages covers touches lists =>
    have hr := hvalid _ _ (by rw [point]; rfl)
    refine ⟨_, _, hl.add (hclaims.status_eq _ _ _ (by rw [point]; rfl)) manages covers touches lists
      (dvd_base hr.validAlign hr.align_le) hr.1 hr.2.1, fun c p hp => ?_⟩
    rcases mem_update hp with ⟨rfl, hin⟩ | hold
    · split_ifs at hin
      · exact .inl hin
      · exact (List.mem_cons.mp hin).symm.imp_right fun heq : p = sp => ⟨r, heq ▸ point, rfl⟩
    · exact .inl hold
  | frees idle live page ne frees =>
    obtain ⟨ls', hl', hfrom⟩ := (hl.perm (List.perm_cons_erase live)).free page ne frees
    exact ⟨ls', _, hl', fun c p hp => (hfrom c p hp).imp_right fun h => ⟨h.1.trans page, h.2⟩⟩
  | empties idle live page size =>
    obtain ⟨ls', hl', hfrom⟩ := (hl.perm (List.perm_cons_erase live)).leave page size
    exact ⟨ls', _, hl', fun c p hp => .inl (hfrom c p hp)⟩
  | freePages point =>
    refine ⟨ls, runs, hl.setSlab ?_ nofun (absurd rfl), fun _ _ => .inl⟩
    rw [hclaims.status_eq _ _ _ (by rw [point]; rfl)]
    nofun
  | store own => exact ⟨ls, runs, hl.store own, fun _ _ => .inl⟩
  | reuse status => exact ⟨ls, runs, hl.reuse status, fun _ _ => .inl⟩

omit [DecidableEq τ] in
theorem Invariant.newPage (hi : Invariant g s) (t : τ) (r : Request) (sp : ℕ)
    (hpoint : s.point t = .newPage r sp) : s.status sp = .taken ∧ r.Valid g :=
  ⟨hi.claims.status_eq t sp .taken (by rw [hpoint]; rfl), hi.valid t r (by rw [hpoint]; rfl)⟩

theorem Invariant.step (hi : Invariant g s) (hs : step g nid s e = some s') : Invariant g s' := by
  obtain ⟨ls, runs, hl⟩ := hi.layout
  have hd := step_does hl hi.newPage hs
  obtain ⟨ls', runs', hl', -⟩ := hd.layout hl hi.claims hi.valid
  exact ⟨⟨ls', runs', hl'⟩, hd.claims hi.claims fun b hb => (hl.placed b hb).onHeap,
    hd.valid hi.valid⟩

omit [DecidableEq τ] in
theorem Invariant.of_emptyHeap (h : EmptyHeap s) : Invariant g s := by
  refine ⟨⟨fun _ => [], fun _ => [], ⟨fun c => ⟨h.lists c, List.nodup_singleton _⟩, nofun⟩, ?_, ?_, ?_, ?_,
    ?_, ?_⟩, ⟨?_, ?_⟩, ?_⟩
  · intro sp
    exact iff_of_false (fun ⟨c, hc⟩ => List.not_mem_nil hc) fun hand => hand.2 rfl
  · intro sp hsp
    rw [h.status] at hsp
    cases hsp
  · intro u hu
    rw [h.status] at hu
    cases hu
  · exact fun sp hsp => absurd (h.status sp) hsp
  · rw [h.live]
    nofun
  · rw [h.live]
    exact List.Pairwise.nil
  · intro t sp st hclaim
    rw [h.point] at hclaim
    cases hclaim
  · intro t t' sp st st' hclaim
    rw [h.point] at hclaim
    cases hclaim
  · intro t r hr
    rw [h.point] at hr
    cases hr

/-- The heap is in order in every reachable state. -/
theorem invariant (h : (machine g nid).Reachable s) : Invariant g s :=
  h.invariant (fun _ => Invariant.of_emptyHeap) fun _ _ _ hi hs => hi.step hs

/-- No locked section gets stuck. -/
theorem sections_return (h : (machine g nid).Reachable s) (t : τ) :
    (∀ r : Request, s.point t = .idle → r.Valid g → (step g nid s (.alloc t r)).isSome) ∧
    (∀ r sp, s.point t = .newPage r sp → (step g nid s (.addPage t)).isSome) ∧
    ∀ b ∈ s.live, s.point t = .idle → (step g nid s (.free t b)).isSome := by
  have hi := invariant h
  obtain ⟨ls, runs, hl⟩ := hi.layout
  refine ⟨fun r hidle hvalid => ?_, fun r sp hpoint => ?_, fun b hb hidle => ?_⟩
  · obtain ⟨s', hs, -⟩ := alloc_does hl nid hidle hvalid
    exact Option.isSome_iff_exists.mpr ⟨s', hs⟩
  · obtain ⟨hstatus, hvalid⟩ := hi.newPage t r sp hpoint
    obtain ⟨s', hs, -⟩ := addPage_does hl nid hpoint hstatus hvalid
    exact Option.isSome_iff_exists.mpr ⟨s', hs⟩
  · obtain ⟨s', hs, -⟩ := free_does hl nid hidle hb
    exact Option.isSome_iff_exists.mpr ⟨s', hs⟩

end OperatingSystems.Slob
