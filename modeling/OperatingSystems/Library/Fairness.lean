import Mathlib.Data.Nat.Find
import OperatingSystems.Library.WaitGraph

namespace OperatingSystems.Library

/-- A run that never ends. -/
structure Execution {σ ε : Type*} (M : Machine σ ε) where
  state : ℕ → σ
  event : ℕ → ε
  start : M.init (state 0)
  step : ∀ n, M.step (state n) (event n) = some (state (n + 1))

namespace Execution

variable {σ ε τ : Type*} {M : Machine σ ε} (E : Execution M)

theorem reachable (n : ℕ) : M.Reachable (E.state n) := by
  induction n with
  | zero => exact ⟨E.state 0, [], E.start, rfl⟩
  | succ n ih => exact ih.step (E.step n)

/-- Who is able to step again and again does step again and again. -/
def Fair (actor : ε → τ) : Prop :=
  ∀ t, (∀ n, ∃ m, n ≤ m ∧ ∃ e, actor e = t ∧ (M.step (E.state m) e).isSome = true) →
    ∀ n, ∃ m, n ≤ m ∧ actor (E.event m) = t

/-- What never increases and decreases each time that `p` holds makes `p` fail in the end. -/
theorem finitely_often {p : ℕ → Prop} {f : ℕ → ℕ} {n : ℕ} (hle : ∀ m, n ≤ m → f (m + 1) ≤ f m)
    (hlt : ∀ m, n ≤ m → p m → f (m + 1) < f m) : ∃ k, n ≤ k ∧ ∀ m, k ≤ m → ¬ p m := by
  induction hf : f n using Nat.strong_induction_on generalizing n with
  | _ v ih =>
    by_cases hnever : ∀ m, n ≤ m → ¬ p m
    · exact ⟨n, Nat.le_refl n, hnever⟩
    · push Not at hnever
      obtain ⟨m, hm, hp⟩ := hnever
      have hfall : ∀ j, n ≤ j → f j ≤ f n := by
        intro j hj
        induction j, hj using Nat.le_induction with
        | base => exact Nat.le_refl _
        | succ j hj ihj => exact (hle j hj).trans ihj
      have hless : f (m + 1) < v := hf ▸ (hlt m hm hp).trans_le (hfall m hm)
      obtain ⟨k, hk, hafter⟩ := ih (f (m + 1)) hless (n := m + 1)
        (fun j hj => hle j (by omega)) (fun j hj => hlt j (by omega)) rfl
      exact ⟨k, by omega, hafter⟩

section Cycle

variable {s₀ : σ} {es : List ε}

/-- The state at a place of a run that comes back to where it began. -/
def cycleState (M : Machine σ ε) (s₀ : σ) (es : List ε) (n : ℕ) : σ :=
  (M.run s₀ (es.take (n % es.length))).getD s₀

theorem run_take (hr : M.run s₀ es = some s₀) {i : ℕ} (hi : i < es.length) :
    ∃ s t, M.run s₀ (es.take i) = some s ∧ M.step s es[i] = some t ∧
      M.run s₀ (es.take (i + 1)) = some t := by
  have hsplit : es = es.take i ++ es[i] :: es.drop (i + 1) := by
    rw [List.cons_getElem_drop_succ, List.take_append_drop]
  have hrun := hr
  rw [hsplit, Machine.run_append] at hrun
  obtain ⟨s, hs, hrest⟩ := Option.bind_eq_some_iff.mp hrun
  obtain ⟨t, ht, -⟩ := Machine.run_cons_eq_some.mp hrest
  refine ⟨s, t, hs, ht, ?_⟩
  rw [List.take_add_one, List.getElem?_eq_getElem hi, Option.toList_some, Machine.run_trans hs]
  exact Machine.run_single ht

/-- A run that comes back to where it began, again and again. -/
def cycle (hi : M.init s₀) (hpos : 0 < es.length) (hr : M.run s₀ es = some s₀) : Execution M where
  state := cycleState M s₀ es
  event := fun n => es.get ⟨n % es.length, Nat.mod_lt n hpos⟩
  start := by
    rw [cycleState, Nat.zero_mod, List.take_zero]
    exact hi
  step := by
    intro n
    obtain ⟨s, t, hs, ht, hnext⟩ := run_take hr (Nat.mod_lt n hpos)
    have hstate : cycleState M s₀ es n = s := by
      rw [cycleState, hs, Option.getD_some]
    have hstate' : cycleState M s₀ es (n + 1) = t := by
      rcases Nat.lt_or_ge (n % es.length + 1) es.length with hlt | hge
      · have hmod : (n + 1) % es.length = n % es.length + 1 := by
          rw [← Nat.mod_add_mod, Nat.mod_eq_of_lt hlt]
        rw [cycleState, hmod, hnext, Option.getD_some]
      · have hend : n % es.length + 1 = es.length := Nat.le_antisymm (Nat.mod_lt n hpos) hge
        have hmod : (n + 1) % es.length = 0 := by
          rw [← Nat.mod_add_mod, hend, Nat.mod_self]
        rw [hend, List.take_length, hr] at hnext
        rw [cycleState, hmod, List.take_zero]
        exact Option.some.inj hnext
    rw [hstate, hstate']
    exact ht

/-- It is fair if every thread has a turn in it. -/
theorem cycle_fair (hi : M.init s₀) (hpos : 0 < es.length) (hr : M.run s₀ es = some s₀)
    {actor : ε → τ} (hall : ∀ t, ∃ e ∈ es, actor e = t) : (cycle hi hpos hr).Fair actor := by
  intro t _ n
  obtain ⟨e, he, rfl⟩ := hall t
  obtain ⟨i, hlt, rfl⟩ := List.getElem_of_mem he
  refine ⟨es.length * n + i, ?_, ?_⟩
  · have hle := Nat.le_mul_of_pos_left n hpos
    omega
  · have hmod : (es.length * n + i) % es.length = i := by
      rw [Nat.mul_add_mod, Nat.mod_eq_of_lt hlt]
    show actor (es.get ⟨(es.length * n + i) % es.length, _⟩) = _
    simp only [hmod]
    rfl

end Cycle

/-- There is one lock: who cannot step finds it taken by somebody else, it goes from hand to hand
through being free, and who has it has `rest` statements before giving it up. -/
structure OneLock (M : Machine σ ε) (actor : ε → τ) (owns : σ → τ → Prop) (rest : σ → τ → ℕ) :
    Prop where
  blocked : ∀ s t, M.Reachable s → (∀ e, actor e = t → M.step s e = none) →
    ∃ u, owns s u ∧ ¬ owns s t
  kept : ∀ s e s' u, M.Reachable s → M.step s e = some s' → owns s u →
    owns s' u ∨ ∀ w, ¬ owns s' w
  idle : ∀ s e s' u, M.Reachable s → M.step s e = some s' → actor e ≠ u → rest s' u = rest s u
  spent : ∀ s e s' u, M.Reachable s → M.step s e = some s' → actor e = u → owns s u →
    owns s' u → rest s' u < rest s u

/-- With one lock every thread of a fair execution goes on for ever. -/
theorem OneLock.acts {actor : ε → τ} {owns : σ → τ → Prop} {rest : σ → τ → ℕ}
    (h : OneLock M actor owns rest) (hfair : E.Fair actor) (t : τ) (n : ℕ) :
    ∃ m, n ≤ m ∧ actor (E.event m) = t := by
  by_contra hstops
  push Not at hstops
  obtain ⟨j, hnever⟩ : ∃ j, ∀ k, j ≤ k → ∀ e, actor e = t → M.step (E.state k) e = none := by
    by_contra hnot
    push Not at hnot
    have hable : ∀ i, ∃ m, i ≤ m ∧ ∃ e, actor e = t ∧ (M.step (E.state m) e).isSome = true := by
      intro i
      obtain ⟨k, hk, e, he, hstep⟩ := hnot i
      exact ⟨k, hk, e, he, Option.isSome_iff_ne_none.mpr hstep⟩
    obtain ⟨m, hm, hacts⟩ := hfair t hable n
    exact hstops m hm hacts
  have hblocked : ∀ k, j ≤ k → ∃ u, owns (E.state k) u := by
    intro k hk
    obtain ⟨u, hu, -⟩ := h.blocked _ t (E.reachable k) (hnever k hk)
    exact ⟨u, hu⟩
  obtain ⟨u, hown⟩ := hblocked j (Nat.le_refl j)
  have hkeeps : ∀ k, j ≤ k → owns (E.state k) u := by
    intro k hk
    induction k, hk using Nat.le_induction with
    | base => exact hown
    | succ k hk ih =>
      refine (h.kept _ _ _ u (E.reachable k) (E.step k) ih).resolve_right fun hfree => ?_
      obtain ⟨w, hw⟩ := hblocked (k + 1) (by omega)
      exact hfree w hw
  have hable : ∀ i, ∃ m, i ≤ m ∧ ∃ e, actor e = u ∧ (M.step (E.state m) e).isSome = true := by
    intro i
    refine ⟨max i j, Nat.le_max_left i j, ?_⟩
    by_contra hnot
    push Not at hnot
    obtain ⟨w, -, hne⟩ := h.blocked _ u (E.reachable (max i j)) fun e he => by
      simpa using hnot e he
    exact hne (hkeeps _ (Nat.le_max_right i j))
  have hspends : ∀ m, j ≤ m → actor (E.event m) = u → rest (E.state (m + 1)) u < rest (E.state m) u :=
    fun m hm hu =>
      h.spent _ _ _ u (E.reachable m) (E.step m) hu (hkeeps m hm) (hkeeps (m + 1) (by omega))
  have hle : ∀ m, j ≤ m → rest (E.state (m + 1)) u ≤ rest (E.state m) u := by
    intro m hm
    by_cases hu : actor (E.event m) = u
    · exact (hspends m hm hu).le
    · exact (h.idle _ _ _ u (E.reachable m) (E.step m) hu).le
  obtain ⟨k, hk, hafter⟩ := finitely_often (p := fun m => actor (E.event m) = u)
    (f := fun m => rest (E.state m) u) hle hspends
  obtain ⟨m, hm, hact⟩ := hfair u hable k
  exact hafter m hm hact

end Execution

namespace MutexProgram

variable {τ μ π : Type*} [DecidableEq τ] [DecidableEq μ] {P : MutexProgram τ μ π}
  {holds : τ → π → Finset μ} {s s' : MutexState τ μ π} {t u : τ} {m : μ}

theorem point_of_step (h : P.step s u = some s') :
    s'.point = Function.update s.point u (P.next (s.point u)) := by
  unfold step at h
  split at h
  next =>
    split_ifs at h
    obtain rfl := Option.some.inj h
    rfl
  all_goals
    obtain rfl := Option.some.inj h
    rfl

/-- A mutex leaves its holder only by being unlocked. -/
theorem owner_of_step (h : P.step s u = some s') (hown : s.owner m = some t) :
    s'.owner m = some t ∨ s'.owner m = none := by
  unfold step at h
  split at h
  next n _ =>
    split_ifs at h with hfree
    obtain rfl := Option.some.inj h
    have hne : m ≠ n := by
      rintro rfl
      exact Option.some_ne_none t (hown.symm.trans hfree)
    exact Or.inl ((Function.update_of_ne hne _ _).trans hown)
  next n _ =>
    obtain rfl := Option.some.inj h
    by_cases heq : m = n
    · subst heq
      exact Or.inr (Function.update_self ..)
    · exact Or.inl ((Function.update_of_ne heq _ _).trans hown)
  next =>
    obtain rfl := Option.some.inj h
    exact Or.inl hown

theorem able_of_free (hop : P.op t (s.point t) = .lock m) (hfree : s.owner m = none) : P.Able s t := by
  simp [Able, step, hop, hfree]

variable (E : Execution P.machine)

theorem point_of_idle {n : ℕ} (hidle : ∀ k, n ≤ k → E.event k ≠ t) {k : ℕ} (hk : n ≤ k) :
    (E.state k).point t = (E.state n).point t := by
  induction k, hk using Nat.le_induction with
  | base => rfl
  | succ k hk ih =>
    rw [point_of_step (E.step k), Function.update_of_ne (Ne.symm (hidle k hk)), ih]

/-- In a fair run a thread that has stopped waits for a mutex that another one keeps for ever. -/
theorem waits_forever (hfair : E.Fair id) {n : ℕ} (hidle : ∀ k, n ≤ k → E.event k ≠ t) :
    ∃ j m u, n ≤ j ∧ P.op t ((E.state n).point t) = .lock m ∧
      ∀ k, j ≤ k → (E.state k).owner m = some u := by
  have hblocked : ∃ j, n ≤ j ∧ ∀ k, j ≤ k → ¬ P.Able (E.state k) t := by
    by_contra hnot
    push Not at hnot
    have hable : ∀ i, ∃ k, i ≤ k ∧ ∃ e, id e = t ∧ (P.machine.step (E.state k) e).isSome = true := by
      intro i
      obtain ⟨k, hk, hable⟩ := hnot (max n i) (Nat.le_max_left n i)
      exact ⟨k, (Nat.le_max_right n i).trans hk, t, rfl, hable⟩
    obtain ⟨k, hk, hacts⟩ := hfair t hable n
    exact hidle k hk hacts
  obtain ⟨j, hj, hnever⟩ := hblocked
  obtain ⟨u, m, hop, hown⟩ := waits_of_not_able (hnever j (Nat.le_refl j))
  rw [point_of_idle E hidle hj] at hop
  refine ⟨j, m, u, hj, hop, fun k hk => ?_⟩
  induction k, hk using Nat.le_induction with
  | base => exact hown
  | succ k hk ih =>
    rcases owner_of_step (E.step k) ih with hkept | hfree
    · exact hkept
    · have hopNow : P.op t ((E.state (k + 1)).point t) = .lock m := by
        rw [point_of_idle E hidle (show n ≤ k + 1 by omega)]
        exact hop
      exact absurd (able_of_free hopNow hfree) (hnever (k + 1) (by omega))

/-- A thread that keeps a mutex for ever stops: it does not come back to the start. -/
theorem stops_of_keeps (hd : P.Discipline holds) {rest : π → ℕ}
    (hrest : ∀ p, p ≠ P.start → rest (P.next p) < rest p) {j : ℕ}
    (hkeeps : ∀ k, j ≤ k → (E.state k).owner m = some u) :
    ∃ k, j ≤ k ∧ ∀ i, k ≤ i → E.event i ≠ u := by
  have hstep : ∀ i, j ≤ i → E.event i = u →
      rest ((E.state (i + 1)).point u) < rest ((E.state i).point u) := by
    intro i hi hu
    have hmem := (owned_reachable hd (E.reachable i) m u).mp (hkeeps i hi)
    have hne : (E.state i).point u ≠ P.start := by
      intro hstart
      rw [hstart, hd.start] at hmem
      exact absurd hmem (Finset.notMem_empty m)
    rw [point_of_step (E.step i), hu, Function.update_self]
    exact hrest _ hne
  apply Execution.finitely_often (f := fun i => rest ((E.state i).point u))
  · intro i hi
    by_cases hu : E.event i = u
    · exact (hstep i hi hu).le
    · rw [point_of_step (E.step i), Function.update_of_ne (Ne.symm hu)]
  · exact hstep

/-- With mutexes taken in ascending order, every thread of a fair run goes on for ever. -/
theorem fair_acts (hd : P.Discipline holds) (rank : μ → ℕ) (bound : ℕ) (hbound : ∀ m, rank m ≤ bound)
    (horder : ∀ t p m, P.op t p = .lock m → ∀ n ∈ holds t p, rank n < rank m) {rest : π → ℕ}
    (hrest : ∀ p, p ≠ P.start → rest (P.next p) < rest p) (hfair : E.Fair id) (t : τ) (n : ℕ) :
    ∃ k, n ≤ k ∧ E.event k = t := by
  have hnobody : ∀ v t n m, bound - rank m = v → (∀ k, n ≤ k → E.event k ≠ t) →
      P.op t ((E.state n).point t) = .lock m → False := by
    intro v
    induction v using Nat.strong_induction_on with
    | _ v ih =>
      intro t n m hv hidle hop
      obtain ⟨j, m', u, hj, hop', hkeeps⟩ := waits_forever E hfair hidle
      obtain rfl : m = m' := MutexOp.lock.inj (hop.symm.trans hop')
      obtain ⟨k, hk, hstopped⟩ := stops_of_keeps E hd hrest hkeeps
      obtain ⟨-, m', -, -, hopu, -⟩ := waits_forever E hfair hstopped
      have hmem := (owned_reachable hd (E.reachable k) m u).mp (hkeeps k hk)
      have hlt := horder u _ m' hopu m hmem
      have hle := hbound m'
      exact ih (bound - rank m') (by omega) u k m' rfl hstopped hopu
  by_contra hstops
  push Not at hstops
  obtain ⟨-, m, -, -, hop, -⟩ := waits_forever E hfair hstops
  exact hnobody _ t n m rfl hstops hop

/-- A thread that goes on for ever comes to every point that its program leads to. -/
theorem comes_to (hacts : ∀ n, ∃ k, n ≤ k ∧ E.event k = t) (i n : ℕ) :
    ∃ k, n ≤ k ∧ (E.state k).point t = P.next^[i] ((E.state n).point t) := by
  induction i generalizing n with
  | zero => exact ⟨n, Nat.le_refl n, rfl⟩
  | succ i ih =>
    -- the first step of the thread from `n` on
    have hfirst := Nat.find_spec (hacts n)
    have hbefore : ∀ k, n ≤ k → k < Nat.find (hacts n) → E.event k ≠ t :=
      fun k hk hlt hact => Nat.find_min (hacts n) hlt ⟨hk, hact⟩
    generalize Nat.find (hacts n) = j at hfirst hbefore
    have hsame : (E.state j).point t = (E.state n).point t := by
      have hkept : ∀ k, n ≤ k → k ≤ j → (E.state k).point t = (E.state n).point t := by
        intro k hk
        induction k, hk using Nat.le_induction with
        | base => exact fun _ => rfl
        | succ k hk ihk =>
          intro hle
          rw [point_of_step (E.step k), Function.update_of_ne (Ne.symm (hbefore k hk (by omega))),
            ihk (by omega)]
      exact hkept j hfirst.1 (Nat.le_refl j)
    have hnext : (E.state (j + 1)).point t = P.next ((E.state n).point t) := by
      rw [point_of_step (E.step j), hfirst.2, Function.update_self, hsame]
    obtain ⟨k, hk, hpoint⟩ := ih (j + 1)
    refine ⟨k, by omega, ?_⟩
    rw [hpoint, hnext, Function.iterate_succ_apply]

end MutexProgram

end OperatingSystems.Library
