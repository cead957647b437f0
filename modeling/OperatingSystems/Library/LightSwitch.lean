import OperatingSystems.Library.Threads

namespace OperatingSystems.Library

/-- Where a thread stands in the light-switch pattern: under a counter semaphore the first thread
in takes the room semaphore, and the last one out posts it. -/
inductive Phase where
  | out | incr | test | waitRoom | enter
  | inside | decr | exitTest | postRoom | exitPost
  deriving DecidableEq

/-- One switch: its counter semaphore, its counter, the room semaphore, the phase of every
thread, and how many threads outside the pattern hold the room. -/
@[ext] structure Switch (τ : Type*) where
  sem : ℕ
  counter : ℤ
  room : ℕ
  phase : τ → Phase
  others : ℕ

namespace Phase

def holdsSem : Phase → Bool
  | out | inside => false
  | _ => true

/-- Between the increment and the decrement of the counter. -/
def counted : Phase → Bool
  | test | waitRoom | enter | inside | decr => true
  | _ => false

/-- The room was taken for the group and this thread is in it, or is about to give it back. -/
def member : Phase → Bool
  | enter | inside | decr | exitTest | postRoom => true
  | _ => false

/-- A counted thread outside the counter semaphore is inside. -/
theorem inside_of_counted {p : Phase} (hc : p.counted = true) (hs : p.holdsSem = false) :
    p = .inside := by
  cases p <;> simp only [counted, holdsSem, Bool.false_eq_true, reduceCtorEq] at hc hs
  rfl

end Phase

namespace Switch

variable {τ : Type*}

def goto [DecidableEq τ] (s : Switch τ) (t : τ) (p : Phase) : Switch τ :=
  { s with phase := Function.update s.phase t p }

def step [DecidableEq τ] (s : Switch τ) (t : τ) : Option (Switch τ) :=
  match s.phase t with
  | .out => (semWait s.sem).map fun v => { s.goto t .incr with sem := v }
  | .incr => some { s.goto t .test with counter := s.counter + 1 }
  | .test => some (s.goto t (if s.counter = 1 then .waitRoom else .enter))
  | .waitRoom => (semWait s.room).map fun v => { s.goto t .enter with room := v }
  | .enter => some { s.goto t .inside with sem := semPost s.sem }
  | .inside => (semWait s.sem).map fun v => { s.goto t .decr with sem := v }
  | .decr => some { s.goto t .exitTest with counter := s.counter - 1 }
  | .exitTest => some (s.goto t (if s.counter = 0 then .postRoom else .exitPost))
  | .postRoom => some { s.goto t .exitPost with room := semPost s.room }
  | .exitPost => some { s.goto t .out with sem := semPost s.sem }

/-- How a program that contains the switch may change it: a step of the pattern, or a thread
outside taking or giving back the room. -/
inductive Moves [DecidableEq τ] (s : Switch τ) : Switch τ → Prop where
  | stay : Moves s s
  | thread {s' : Switch τ} (t : τ) (h : s.step t = some s') : Moves s s'
  | take {v : ℕ} (h : semWait s.room = some v) : Moves s { s with room := v, others := s.others + 1 }
  | give {n : ℕ} (h : s.others = n + 1) : Moves s { s with room := semPost s.room, others := n }

/-- The room is taken on behalf of the group. -/
def Lit (s : Switch τ) : Prop := s.room + s.others = 0

/-- What a thread inside the counter semaphore knows. -/
def Knows (s : Switch τ) : Phase → Prop
  | .out | .inside => True
  | .incr | .exitPost => s.Lit ↔ 0 < s.counter
  | .test => s.Lit ↔ 1 < s.counter
  | .waitRoom => ¬ s.Lit ∧ s.counter = 1
  | .enter | .decr | .exitTest => s.Lit
  | .postRoom => s.Lit ∧ s.counter = 0

variable [Fintype τ]

structure Inv (s : Switch τ) : Prop where
  sem : s.sem + count Phase.holdsSem s.phase = 1
  counter : s.counter = count Phase.counted s.phase
  room : s.room + s.others ≤ 1
  free : s.sem = 1 → (s.Lit ↔ 0 < s.counter)
  knows : ∀ t, s.Knows (s.phase t)

theorem inv_start (n : ℕ) (h : n = 1) : Inv (⟨1, 0, n, fun _ : τ => .out, 0⟩ : Switch τ) where
  sem := by rw [count_const _ _ rfl]
  counter := by rw [count_const _ _ rfl]; rfl
  room := by simp [h]
  free _ := by simp [Lit, h]
  knows _ := trivial

theorem one_le_counter {s : Switch τ} (h : s.Inv) {t : τ} (ht : (s.phase t).counted = true) :
    1 ≤ s.counter := by
  have hpos := count_pos.mpr ⟨t, ht⟩
  have := h.counter
  omega

/-- While somebody is inside, the room is taken for the group and nobody else holds it. -/
theorem lit_of_inside {s : Switch τ} (h : s.Inv) {t : τ} (ht : s.phase t = .inside) : s.Lit := by
  have hone := one_le_counter h (t := t) (by rw [ht]; rfl)
  by_cases hfree : s.sem = 1
  · exact (h.free hfree).mpr (by omega)
  -- somebody holds the counter semaphore: it is not `t`, and it knows
  have hpos : 0 < count Phase.holdsSem s.phase := by
    have := h.sem
    omega
  obtain ⟨u, hu⟩ := count_pos.mp hpos
  have hne : u ≠ t := by
    intro heq
    subst heq
    rw [ht] at hu
    exact Bool.false_ne_true hu
  have htwo : (s.phase u).counted = true → 1 < s.counter := by
    intro hc
    by_contra hle
    have hcount : count Phase.counted s.phase ≤ 1 := by
      have := h.counter
      omega
    exact hne (count_le_one.mp hcount u t hc (by rw [ht]; rfl))
  have hknows := h.knows u
  cases hp : s.phase u <;> simp only [hp, Phase.holdsSem, Bool.false_eq_true, Knows] at hu hknows
  case incr | exitPost => exact hknows.mpr (by omega)
  case test => exact hknows.mpr (htwo (by rw [hp]; rfl))
  case waitRoom =>
    have := htwo (by rw [hp]; rfl)
    omega
  case enter | decr | exitTest => exact hknows
  case postRoom => exact hknows.1

/-- Once the room is taken for the group, somebody is in it. -/
theorem exists_member {s : Switch τ} (h : s.Inv) (hlit : s.Lit) :
    ∃ t, (s.phase t).member = true := by
  have hsem := h.sem
  have hcounter := h.counter
  by_cases hfree : s.sem = 1
  · have hpos := (h.free hfree).mp hlit
    obtain ⟨t, ht⟩ := count_pos.mp (show 0 < count Phase.counted s.phase by omega)
    have hout : (s.phase t).holdsSem = false := count_eq_zero.mp (by omega) t
    exact ⟨t, by rw [Phase.inside_of_counted ht hout]; rfl⟩
  -- the thread in the counter semaphore is in the group itself, or knows of another one
  obtain ⟨u, hu⟩ := count_pos.mp (show 0 < count Phase.holdsSem s.phase by omega)
  have hother : ∀ t, t ≠ u → (s.phase t).counted = true → (s.phase t).member = true := by
    intro t hne ht
    have hout : (s.phase t).holdsSem = false := by
      by_contra htrue
      exact hne (count_le_one.mp (by omega) t u (by simpa using htrue) hu)
    rw [Phase.inside_of_counted ht hout]
    rfl
  have hknows := h.knows u
  cases hp : s.phase u <;> simp only [hp, Phase.holdsSem, Bool.false_eq_true, Knows] at hu hknows
  case incr | exitPost =>
    have hpos := hknows.mp hlit
    obtain ⟨t, ht⟩ := count_pos.mp (show 0 < count Phase.counted s.phase by omega)
    refine ⟨t, hother t ?_ ht⟩
    intro heq
    rw [heq, hp] at ht
    exact Bool.false_ne_true ht
  case test =>
    have htwo := hknows.mp hlit
    by_contra hnone
    have honly : ∀ t, (s.phase t).counted = true → t = u := by
      intro t ht
      by_contra hne
      exact hnone ⟨t, hother t hne ht⟩
    have hle : count Phase.counted s.phase ≤ 1 :=
      count_le_one.mpr fun t w ht hw => (honly t ht).trans (honly w hw).symm
    omega
  case waitRoom => exact absurd hlit hknows.1
  case enter | decr | exitTest | postRoom => exact ⟨u, by rw [hp]; rfl⟩

omit [Fintype τ] in
theorem knows_of_not_holdsSem (s : Switch τ) {p : Phase} (h : p.holdsSem = false) : s.Knows p := by
  cases p <;> simp [Phase.holdsSem] at h <;> trivial

variable [DecidableEq τ]

/-- A thread inside the counter semaphore keeps the others from moving. -/
theorem step_of_holdsSem {s s' : Switch τ} {t u : τ} (h : s.Inv) (hs : s.step t = some s')
    (hu : (s.phase u).holdsSem = true) : u = t := by
  have hpos := count_pos.mpr ⟨u, hu⟩
  have hsem := h.sem
  by_cases ht : (s.phase t).holdsSem = true
  · exact count_le_one.mp (by omega) u t hu ht
  · cases hp : s.phase t <;> simp [hp, Phase.holdsSem] at ht <;> simp [step, hp] at hs <;> omega

theorem inv_move {s s' : Switch τ} {t : τ} {q : Phase} (h : s.Inv) (hs : s.step t = some s')
    (hq : s.phase t = q) (p : Phase) (hroom : s'.room + s'.others ≤ 1)
    (hfree : s'.sem = 1 → (s'.Lit ↔ 0 < s'.counter)) (hknows : s'.Knows p)
    (hsem : s'.sem + p.holdsSem.toNat = s.sem + q.holdsSem.toNat := by rfl)
    (hcounter : s'.counter + q.counted.toNat = s.counter + p.counted.toNat := by rfl)
    (hphase : s'.phase = Function.update s.phase t p := by rfl) : s'.Inv where
  sem := by
    have hcount := count_update Phase.holdsSem s.phase t p
    have := h.sem
    rw [hq] at hcount
    rw [hphase]
    omega
  counter := by
    have hcount := count_update Phase.counted s.phase t p
    have := h.counter
    rw [hq] at hcount
    rw [hphase]
    omega
  room := hroom
  free := hfree
  knows u := by
    by_cases hu : u = t
    · subst u
      simpa [hphase] using hknows
    · rw [hphase, Function.update_of_ne hu]
      apply knows_of_not_holdsSem
      by_contra hne
      exact hu (step_of_holdsSem h hs (by simpa using hne))

theorem inv_step {s s' : Switch τ} {t : τ} (h : s.Inv) (hs : s.step t = some s') : s'.Inv := by
  have hknows := h.knows t
  have hroom := h.room
  have hsem := h.sem
  have hlit := lit_of_inside h (t := t)
  have hone := one_le_counter h (t := t)
  have hheld : (s.phase t).holdsSem = true → s.sem ≠ 1 := by
    intro ht hone
    have := count_pos.mpr ⟨t, ht⟩
    omega
  have hstep := hs
  cases hp : s.phase t <;>
    simp only [hp, Knows, true_imp_iff, Phase.counted] at hknows hheld hlit hone <;>
    simp only [step, hp, Option.some.injEq, Option.map_eq_some_iff, semWait_eq_some] at hs
  case out =>
    obtain ⟨v, hv, rfl⟩ := hs
    have hfree := h.free (by omega)
    exact inv_move h hstep hp .incr hroom (fun _ => hfree) hfree hv.symm
  case incr =>
    subst hs
    refine inv_move h hstep hp .test hroom (fun hf => (hheld rfl hf).elim) ?_ rfl
      (by simp [Phase.counted])
    exact hknows.trans (by simp only; omega)
  case test =>
    split_ifs at hs with hfirst <;> subst hs
    · have hdark : ¬ s.Lit := by
        intro hl
        have := hknows.mp hl
        omega
      exact inv_move h hstep hp .waitRoom hroom (fun hf => (hheld rfl hf).elim) ⟨hdark, hfirst⟩
    · exact inv_move h hstep hp .enter hroom (fun hf => (hheld rfl hf).elim) (hknows.mpr (by omega))
  case waitRoom =>
    obtain ⟨v, hv, rfl⟩ := hs
    have hdark : ¬ s.Lit := hknows.1
    unfold Lit at hdark
    refine inv_move h hstep hp .enter ?_ (fun hf => (hheld rfl hf).elim) ?_
    · simp only [goto]
      omega
    · simp only [Knows, Lit, goto]
      omega
  case enter =>
    subst hs
    have hpos : 1 ≤ s.counter := hone
    exact inv_move h hstep hp .inside hroom (fun _ => ⟨fun _ => hpos, fun _ => hknows⟩) trivial
  case inside =>
    obtain ⟨v, hv, rfl⟩ := hs
    exact inv_move h hstep hp .decr hroom (fun _ => h.free (by omega)) hlit hv.symm
  case decr =>
    subst hs
    exact inv_move h hstep hp .exitTest hroom (fun hf => (hheld rfl hf).elim) hknows rfl
      (by simp [Phase.counted])
  case exitTest =>
    have hcounter : (0 : ℤ) ≤ s.counter := by
      have := h.counter
      omega
    split_ifs at hs with hlast <;> subst hs
    · exact inv_move h hstep hp .postRoom hroom (fun hf => (hheld rfl hf).elim) ⟨hknows, hlast⟩
    · refine inv_move h hstep hp .exitPost hroom (fun hf => (hheld rfl hf).elim) ?_
      exact ⟨fun _ => by simp only [goto]; omega, fun _ => hknows⟩
  case postRoom =>
    subst hs
    obtain ⟨hl, hzero⟩ := hknows
    unfold Lit at hl
    refine inv_move h hstep hp .exitPost ?_ (fun hf => (hheld rfl hf).elim) ?_
    · simp only [goto, semPost]
      omega
    · simp only [Knows, Lit, goto, semPost]
      omega
  case exitPost =>
    subst hs
    exact inv_move h hstep hp .out hroom (fun _ => hknows) trivial

omit [DecidableEq τ] in
/-- The room changes hands outside the pattern only while the group does not hold it. -/
theorem inv_room {s s' : Switch τ} (h : s.Inv) (hsem : s'.sem = s.sem)
    (hcounter : s'.counter = s.counter) (hphase : s'.phase = s.phase)
    (hroom : s'.room + s'.others = s.room + s.others) : s'.Inv := by
  have hlit : s'.Lit ↔ s.Lit := by
    simp only [Lit, hroom]
  refine ⟨?_, ?_, ?_, ?_, fun t => ?_⟩
  · rw [hsem, hphase]
    exact h.sem
  · rw [hcounter, hphase]
    exact h.counter
  · rw [hroom]
    exact h.room
  · rw [hsem, hcounter, hlit]
    exact h.free
  · have hknows := h.knows t
    rw [hphase]
    cases hp : s.phase t <;> simp only [hp, Knows, hlit, hcounter] at hknows ⊢ <;> exact hknows

theorem inv_moves {s s' : Switch τ} (h : s.Inv) (hm : Moves s s') : s'.Inv := by
  cases hm with
  | stay => exact h
  | thread t hs => exact inv_step h hs
  | take hv =>
    have := semWait_eq_some.mp hv
    exact inv_room h rfl rfl rfl (by simp only; omega)
  | give hn => exact inv_room h rfl rfl rfl (by simp only [semPost]; omega)

end Switch

end OperatingSystems.Library
