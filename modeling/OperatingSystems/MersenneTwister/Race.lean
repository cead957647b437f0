import OperatingSystems.MersenneTwister.Callers

namespace OperatingSystems.MersenneTwister

open Library

variable {τ : Type*} {s s' : Callers τ} {t u : τ} {n : ℕ}

/-- A thread that no other one is in `genrand_int32` with has what its point needs. -/
def Ordered (n : ℕ) (s : Callers τ) : Prop :=
  ∀ t, (∀ u, u ≠ t → s.point u = .outside) → (s.point t).Holds n s.globals

/-- The outputs from the `n`th on, as many as there are in a list of calls. -/
def outputsFrom (n k : ℕ) : List UInt64 := (List.range' n k).map (output State.unseeded)

theorem outputsFrom_append (n k l : ℕ) :
    outputsFrom n k ++ outputsFrom (n + k) l = outputsFrom n (k + l) := by
  rw [outputsFrom, outputsFrom, outputsFrom, ← List.map_append, List.range'_append_1]

theorem ordered_init : Ordered 0 (⟨State.unseeded, fun _ => .outside⟩ : Callers τ) :=
  fun _ _ => Or.inl ⟨rfl, rfl⟩

variable [DecidableEq τ]

/-- What a step is: a statement of one thread. -/
theorem callers_step (h : (callers τ).step s t = some s') :
    ∃ g p, advance s.globals (s.point t) = some (g, p) ∧ s' = s.move t g p := by
  obtain ⟨r, hr, hs'⟩ := Option.map_eq_some_iff.mp h
  exact ⟨r.1, r.2, hr, hs'.symm⟩

/-- Every statement of `genrand_int32` but the last is followed by another one, so a thread that takes
a step was in it before or is in it now. -/
theorem inside_of_advance {g g' : State} {p p' : Point} (h : advance g p = some (g', p'))
    (hout : p = .outside) : p' ≠ .outside := by
  subst hout
  obtain ⟨rfl, rfl⟩ := Prod.mk.inj (Option.some.inj h)
  intro hp
  cases hp

/-- A step between states where at most one thread is in `genrand_int32`. -/
theorem Ordered.step (h : Ordered n s) (hs : s.Serial) (hs' : s'.Serial)
    (hstep : (callers τ).step s t = some s') :
    ∃ k, returned s.globals (s.point t) = outputsFrom n k ∧ Ordered (n + k) s' := by
  obtain ⟨g, p, hadvance, rfl⟩ := callers_step hstep
  have hpoint : (s.move t g p).point t = p := Function.update_self _ _ _
  have hkeep : ∀ u, u ≠ t → (s.move t g p).point u = s.point u :=
    fun u hne => Function.update_of_ne hne _ _
  have halone : ∀ u, u ≠ t → s.point u = .outside := by
    intro u hne
    by_contra hin
    by_cases hout : s.point t = .outside
    · have hnow := inside_of_advance hadvance hout
      exact hne (hs' u t (by rwa [hkeep u hne]) (by rwa [hpoint]))
    · exact hne (hs u t hin hout)
  obtain ⟨k, hreturned, hholds⟩ := (h t halone).advance hadvance
  refine ⟨k, hreturned, fun v hv => ?_⟩
  by_cases heq : v = t
  · subst heq
    rw [hpoint]
    exact hholds
  · have hout : p = .outside := hpoint.symm.trans (hv t (Ne.symm heq))
    rw [hkeep v heq, halone v heq]
    rw [hout] at hholds
    exact hholds

omit [DecidableEq τ] in
/-- With at most one thread in `genrand_int32` the indices that come next are inside. -/
theorem Ordered.inside (h : Ordered n s) (hs : s.Serial) : s.Inside := by
  intro t i hi
  have hinside : s.point t ≠ .outside := by
    intro hout
    rw [hout] at hi
    exact absurd hi List.not_mem_nil
  have halone : ∀ u, u ≠ t → s.point u = .outside := by
    intro u hne
    by_contra hin
    exact hne (hs u t hin hinside)
  exact (h t halone).inside i hi

/-- A run with at most one thread at a time in `genrand_int32` returns the outputs in their order. -/
theorem serial_run {es : List τ} (h : Ordered n s) (hserial : (callers τ).Always Callers.Serial s es)
    (hr : (callers τ).run s es = some s') :
    ∃ k, (callers τ).trace (fun s t => returned s.globals (s.point t)) s es = outputsFrom n k ∧
      Ordered (n + k) s' ∧ (callers τ).Always Callers.Inside s es := by
  induction es generalizing s n with
  | nil =>
    obtain rfl := Option.some.inj hr
    exact ⟨0, rfl, h, h.inside hserial⟩
  | cons e es ih =>
    obtain ⟨v, hv, hr⟩ := Machine.run_cons_eq_some.mp hr
    have hrest := hserial.2 v hv
    obtain ⟨k, hk, hordered⟩ := h.step hserial.1 hrest.head hv
    obtain ⟨l, hl, hlast, hinside⟩ := ih hordered hrest hr
    refine ⟨k + l, ?_, ?_, h.inside hserial.1, fun w hw => ?_⟩
    · rw [Machine.trace_cons hv, hk, hl, outputsFrom_append]
    · rw [← Nat.add_assoc]
      exact hlast
    · obtain rfl := Option.some.inj (hv.symm.trans hw)
      exact hinside

/-- The statements, the last one included, that a thread which goes on alone has left to return. -/
def Point.left (mti : ℕ) : Point → ℕ
  | .outside => if mti = N + 1 then 10 + N + 3 * (N - 1) else if mti ≥ N then 7 + N else 5
  | .testFull => if mti = N + 1 then 9 + N + 3 * (N - 1) else if mti ≥ N then 6 + N else 4
  | .testUnseeded => if mti = N + 1 then 8 + N + 3 * (N - 1) else 5 + N
  | .seedFirst => 7 + N + 3 * (N - 1)
  | .seedStart => 6 + N + 3 * (N - 1)
  | .seedTest => 5 + N + 3 * (N - mti)
  | .seedStore => 4 + N + 3 * (N - mti)
  | .seedNext => 3 + N + 3 * (N - mti)
  | .refill kk => 4 + (N - kk)
  | .reset => 4
  | .load => 3
  | .store _ => 2
  | .read _ => 1

theorem left_advance {g g' : State} {p p' : Point} (h : p.Holds n g)
    (hs : advance g p = some (g', p')) (hread : ∀ i, p ≠ .read i) :
    returned g p = [] ∧ p'.left g'.mti + 1 = p.left g.mti := by
  cases p with
  | read index => exact absurd rfl (hread index)
  | seedStore =>
    obtain ⟨-, hone, hlt, -⟩ := h
    simp only [advance, Option.bind_eq_some_iff, Option.map_eq_some_iff] at hs
    obtain ⟨prev, -, i, -, heq⟩ := hs
    obtain ⟨rfl, rfl⟩ := Prod.mk.inj heq
    refine ⟨rfl, ?_⟩
    simp only [Point.left]
    omega
  | refill kk =>
    rw [advance, Option.map_eq_some_iff] at hs
    obtain ⟨g₁, -, heq⟩ := hs
    obtain ⟨rfl, rfl⟩ := Prod.mk.inj heq
    have hkk := h.1
    refine ⟨rfl, ?_⟩
    split_ifs with hmore <;> simp only [Point.left] <;> omega
  | outside =>
    obtain ⟨rfl, rfl⟩ := Prod.mk.inj (Option.some.inj hs)
    refine ⟨rfl, ?_⟩
    simp only [Point.left]
    split_ifs <;> omega
  | testFull =>
    obtain ⟨rfl, rfl⟩ := Prod.mk.inj (Option.some.inj hs)
    refine ⟨rfl, ?_⟩
    split_ifs <;> simp only [Point.left] <;> split_ifs <;> omega
  | testUnseeded =>
    obtain ⟨rfl, rfl⟩ := Prod.mk.inj (Option.some.inj hs)
    refine ⟨rfl, ?_⟩
    split_ifs <;> simp only [Point.left] <;> split_ifs <;> omega
  | seedTest =>
    obtain ⟨rfl, rfl⟩ := Prod.mk.inj (Option.some.inj hs)
    obtain ⟨-, -, hle, -⟩ := h
    refine ⟨rfl, ?_⟩
    split_ifs <;> simp only [Point.left] <;> omega
  | seedNext =>
    obtain ⟨rfl, rfl⟩ := Prod.mk.inj (Option.some.inj hs)
    obtain ⟨-, -, hlt, -⟩ := h
    refine ⟨rfl, ?_⟩
    simp only [Point.left]
    omega
  | seedFirst | seedStart | reset | load | store =>
    obtain ⟨rfl, rfl⟩ := Prod.mk.inj (Option.some.inj hs)
    exact ⟨rfl, rfl⟩

theorem read_advance {g g' : State} {p' : Point} {index : ℕ} (h : (Point.read index).Holds n g)
    (hs : advance g (.read index) = some (g', p')) :
    (returned g (.read index)).length = 1 ∧ p' = .outside := by
  constructor
  · rw [returned, dif_pos h.2.1, List.length_singleton]
  · rw [advance, Option.map_eq_some_iff] at hs
    obtain ⟨-, -, heq⟩ := hs
    exact (Prod.mk.inj heq).2.symm

theorem left_pos (p : Point) (mti : ℕ) : 0 < p.left mti := by
  cases p with
  | outside | testFull | testUnseeded => simp only [Point.left]; split_ifs <;> omega
  | seedFirst | seedStart | seedTest | seedStore | seedNext | refill => simp only [Point.left]; omega
  | reset | load | store | read => exact Nat.succ_pos _

omit [DecidableEq τ] in
theorem serial_of_alone (h : ∀ u, u ≠ t → s.point u = .outside) : s.Serial := by
  have honly : ∀ u, s.point u ≠ .outside → u = t := fun u hin => not_imp_comm.mp (h u) hin
  exact fun u v hu hv => (honly u hu).trans (honly v hv).symm

/-- A thread that is alone can take its next step. -/
theorem Ordered.step_alone (h : Ordered n s) (halone : ∀ u, u ≠ t → s.point u = .outside) :
    ∃ g p k, advance s.globals (s.point t) = some (g, p) ∧
      (callers τ).step s t = some (s.move t g p) ∧
      (∀ u, u ≠ t → (s.move t g p).point u = .outside) ∧
      returned s.globals (s.point t) = outputsFrom n k ∧ Ordered (n + k) (s.move t g p) := by
  obtain ⟨⟨g, p⟩, hadvance⟩ :=
    Option.isSome_iff_exists.mp ((advance_isSome_iff _ _).mpr (h t halone).inside)
  have hstep : (callers τ).step s t = some (s.move t g p) := by
    show (advance s.globals (s.point t)).map _ = _
    rw [hadvance]
    rfl
  have hothers : ∀ u, u ≠ t → (s.move t g p).point u = .outside :=
    fun u hne => (Function.update_of_ne hne _ _).trans (halone u hne)
  obtain ⟨k, hk, hordered⟩ := h.step (serial_of_alone halone) (serial_of_alone hothers) hstep
  exact ⟨g, p, k, hadvance, hstep, hothers, hk, hordered⟩

/-- A thread that is alone returns the next output after the statements that it has left. -/
theorem Ordered.served {m : ℕ} (h : Ordered n s) (halone : ∀ u, u ≠ t → s.point u = .outside)
    (hleft : (s.point t).left s.globals.mti = m) :
    ∃ s', (callers τ).run s (List.replicate m t) = some s' ∧
      (callers τ).Always Callers.Serial s (List.replicate m t) ∧
      (callers τ).trace (fun s t => returned s.globals (s.point t)) s (List.replicate m t) =
        outputsFrom n 1 ∧
      (∀ u, s'.point u = .outside) ∧ Ordered (n + 1) s' := by
  induction m generalizing s with
  | zero => exact absurd hleft (left_pos _ _).ne'
  | succ m ih =>
    obtain ⟨g, p, k, hadvance, hstep, hothers, hk, hordered⟩ := h.step_alone halone
    have hholds := h t halone
    have hpoint : (s.move t g p).point t = p := Function.update_self _ _ _
    have hlength : (returned s.globals (s.point t)).length = k := by
      rw [hk, outputsFrom, List.length_map, List.length_range']
    have hkeep : ∀ v, (callers τ).step s t = some v → v = s.move t g p :=
      fun v hv => Option.some.inj (hv.symm.trans hstep)
    by_cases hread : ∃ i, s.point t = .read i
    · obtain ⟨i, hi⟩ := hread
      rw [hi] at hleft hholds hadvance hlength
      obtain ⟨hone, rfl⟩ := read_advance hholds hadvance
      obtain rfl : 0 = m := Nat.succ.inj hleft
      obtain rfl : 1 = k := hone.symm.trans hlength
      refine ⟨s.move t g .outside, Machine.run_single hstep, ⟨serial_of_alone halone, ?_⟩, ?_,
        fun u => ?_, hordered⟩
      · intro v hv
        rw [hkeep v hv]
        exact serial_of_alone hothers
      · rw [List.replicate_one, Machine.trace_cons hstep, hk]
        exact List.append_nil _
      · by_cases heq : u = t
        · exact heq ▸ hpoint
        · exact hothers u heq
    · obtain ⟨hsilent, hnext⟩ := left_advance hholds hadvance fun i hi => hread ⟨i, hi⟩
      obtain rfl : 0 = k := by
        rw [hsilent] at hlength
        exact hlength
      have hless : ((s.move t g p).point t).left (s.move t g p).globals.mti = m := by
        rw [hpoint]
        exact Nat.succ.inj (hnext.trans hleft)
      obtain ⟨s', hr, halways, htrace, hout, hlast⟩ := ih hordered hothers hless
      refine ⟨s', (Machine.run_cons hstep _).trans hr, ⟨serial_of_alone halone, ?_⟩, ?_, hout, hlast⟩
      · intro v hv
        rw [hkeep v hv]
        exact halways
      · rw [List.replicate_succ, Machine.trace_cons hstep, hsilent]
        exact htrace

/-- Callers that come one after the other, in any order, are all served. -/
theorem served_in_turn (h : Ordered n s) (hout : ∀ u, s.point u = .outside) (ts : List τ) :
    ∃ cs : List (ℕ × τ), cs.map Prod.snd = ts ∧
      ∃ s', (callers τ).run s (cs.flatMap fun c => List.replicate c.1 c.2) = some s' ∧
        (callers τ).Always Callers.Serial s (cs.flatMap fun c => List.replicate c.1 c.2) ∧
        (callers τ).trace (fun s t => returned s.globals (s.point t)) s
          (cs.flatMap fun c => List.replicate c.1 c.2) = outputsFrom n ts.length := by
  induction ts generalizing s n with
  | nil =>
    have hserial : s.Serial := fun u _ hu _ => absurd (hout u) hu
    exact ⟨[], rfl, s, rfl, hserial, rfl⟩
  | cons t ts ih =>
    obtain ⟨m, hm⟩ : ∃ m, (s.point t).left s.globals.mti = m := ⟨_, rfl⟩
    obtain ⟨v, hv, hserial, htrace, hagain, hordered⟩ := h.served (fun u _ => hout u) hm
    obtain ⟨cs, hcs, s', hr, hrest, hlater⟩ := ih hordered hagain
    refine ⟨(m, t) :: cs, congrArg (t :: ·) hcs, s', (Machine.run_trans hv).trans hr,
      hserial.append hv hrest, ?_⟩
    rw [List.flatMap_cons, Machine.trace_append hv, htrace, hlater, outputsFrom_append,
      List.length_cons, Nat.add_comm]

/-- As long as no two threads are in `genrand_int32` at a time, the calls, from whatever threads they
come, hand out the generator's outputs one after another, each of them once, and no index leaves
`mt`. -/
theorem serial_outputs {s₀ s : Callers τ} {es : List τ} (hi : (callers τ).init s₀)
    (hserial : (callers τ).Always Callers.Serial s₀ es) (hr : (callers τ).run s₀ es = some s) :
    (∃ k, (callers τ).trace (fun s t => returned s.globals (s.point t)) s₀ es = outputsFrom 0 k) ∧
      (callers τ).Always Callers.Inside s₀ es := by
  obtain rfl : s₀ = _ := hi
  obtain ⟨k, hk, -, hinside⟩ := serial_run ordered_init hserial hr
  exact ⟨⟨k, hk⟩, hinside⟩

theorem serial_outputs_in_turn : ∃ cs : List (ℕ × Fin 2), cs.map Prod.snd = [0, 1, 0] ∧
    ∃ s, (callers (Fin 2)).run ⟨State.unseeded, fun _ => .outside⟩
        (cs.flatMap fun c => List.replicate c.1 c.2) = some s ∧
      (callers (Fin 2)).trace (fun s t => returned s.globals (s.point t))
        ⟨State.unseeded, fun _ => .outside⟩ (cs.flatMap fun c => List.replicate c.1 c.2) =
          outputsFrom 0 3 ∧
      (callers (Fin 2)).Always Callers.Inside ⟨State.unseeded, fun _ => .outside⟩
        (cs.flatMap fun c => List.replicate c.1 c.2) := by
  obtain ⟨cs, hcs, s, hr, hserial, htrace⟩ :=
    served_in_turn ordered_init (fun _ => rfl) ([0, 1, 0] : List (Fin 2))
  exact ⟨cs, hcs, s, hr, htrace, (serial_outputs rfl hserial hr).2⟩

/-- A reachable state with two threads at these points and this `mti`. -/
def At (t u : τ) (p q : Point) (mti : ℕ) : Prop :=
  ∃ s, (callers τ).Reachable s ∧ s.point t = p ∧ s.point u = q ∧ s.globals.mti = mti

theorem At.symm {p q : Point} {mti : ℕ} (h : At t u p q mti) : At u t q p mti := by
  obtain ⟨s, hs, ht, hu, hmti⟩ := h
  exact ⟨s, hs, hu, ht, hmti⟩

/-- The first of the two takes a step. -/
theorem At.step {p p' q : Point} {mti mti' : ℕ} (h : At t u p q mti) (hne : t ≠ u)
    (hadvance : ∀ g : State, g.mti = mti → ∃ g', advance g p = some (g', p') ∧ g'.mti = mti') :
    At t u p' q mti' := by
  obtain ⟨s, hs, ht, hu, hmti⟩ := h
  obtain ⟨g', hg', hmti'⟩ := hadvance s.globals hmti
  have hstep : (callers τ).step s t = some (s.move t g' p') := by
    show (advance s.globals (s.point t)).map _ = _
    rw [ht, hg']
    rfl
  exact ⟨s.move t g' p', hs.step hstep, Function.update_self _ _ _,
    (Function.update_of_ne hne.symm _ _).trans hu, hmti'⟩

/-- The store of the loop of `init_genrand`, while its two words are in `mt`. -/
theorem seedStore_advance {g : State} (hone : 1 ≤ g.mti) (hlt : g.mti < N) :
    ∃ g', advance g .seedStore = some (g', .seedNext) ∧ g'.mti = g.mti := by
  obtain ⟨prev, hprev⟩ := Option.isSome_iff_exists.mp (place_isSome.mpr (inTable_pred hone hlt.le))
  obtain ⟨i, hi⟩ := Option.isSome_iff_exists.mp (place_isSome.mpr (inTable_natCast.mpr hlt))
  refine ⟨⟨g.mt.set i (seedWord (g.mt.get prev) g.mti), g.mti⟩, ?_, rfl⟩
  rw [advance, hprev, hi]
  rfl

/-- A round of refilling, whatever `mti` is. -/
theorem refill_advance (g : State) (kk : ℕ) :
    ∃ g', advance g (.refill kk) = some (g', if kk < N - 1 then .refill (kk + 1) else .reset) ∧
      g'.mti = g.mti := by
  obtain ⟨g', hround⟩ := Option.isSome_iff_exists.mp
    (refillRound_isSome_iff.mpr (refillIndices_inTable kk))
  refine ⟨g', ?_, ?_⟩
  · rw [advance, hround]
    rfl
  · simp only [refillRound, Option.bind_eq_some_iff, Option.map_eq_some_iff] at hround
    obtain ⟨-, -, -, -, -, -, rfl⟩ := hround
    rfl

/-- An index that the first of the two uses next. -/
theorem At.uses {p q : Point} {mti : ℕ} {i : ℤ} (h : At t u p q mti) (hi : i ∈ p.indices mti) :
    ∃ s, (callers τ).Reachable s ∧ i ∈ (s.point t).indices s.globals.mti := by
  obtain ⟨s, hs, rfl, -, rfl⟩ := h
  exact ⟨s, hs, hi⟩

/-- A round of the loop of `init_genrand`. -/
theorem At.seedRound {q : Point} {mti : ℕ} (h : At t u .seedTest q mti) (hne : t ≠ u)
    (hone : 1 ≤ mti) (hlt : mti < N) : At t u .seedTest q (mti + 1) := by
  have hstore : At t u .seedStore q mti :=
    h.step hne fun g hg => ⟨g, by rw [advance, if_pos (hg ▸ hlt)], hg⟩
  have hnext : At t u .seedNext q mti := hstore.step hne fun g hg => by
    subst hg
    exact seedStore_advance hone hlt
  exact hnext.step hne fun g hg => ⟨⟨g.mt, g.mti + 1⟩, rfl, congrArg (· + 1) hg⟩

theorem At.seedRounds {q : Point} (h : At t u .seedTest q 1) (hne : t ≠ u) (k : ℕ)
    (hle : 1 + k ≤ N) : At t u .seedTest q (1 + k) := by
  induction k with
  | zero => exact h
  | succ k ih => exact (ih (by omega)).seedRound hne (by omega) (by omega)

theorem At.refillRounds {q : Point} {mti : ℕ} (h : At t u (.refill 0) q mti) (hne : t ≠ u) (k : ℕ)
    (hlt : k < N) : At t u (.refill k) q mti := by
  induction k with
  | zero => exact h
  | succ k ih =>
    refine (ih (by omega)).step hne fun g hg => ?_
    obtain ⟨g', hadvance, hmti⟩ := refill_advance g k
    rw [if_pos (by omega)] at hadvance
    exact ⟨g', hadvance, hmti.trans hg⟩

/-- The first call, once it has found that `mt` was never seeded. -/
theorem unseeded_called (hne : t ≠ u) : At t u .testUnseeded .outside (N + 1) := by
  have hinit : At t u .outside .outside (N + 1) := ⟨_, ⟨_, [], rfl, rfl⟩, rfl, rfl, rfl⟩
  have hcalled : At t u .testFull .outside (N + 1) := hinit.step hne fun g hg => ⟨g, rfl, hg⟩
  exact hcalled.step hne fun g hg => ⟨g, by rw [advance, if_pos (hg ▸ Nat.le_succ N)], hg⟩

theorem At.seeding {q : Point} (h : At t u .testUnseeded q (N + 1)) (hne : t ≠ u) :
    At t u .seedTest q 1 := by
  have hfirst : At t u .seedFirst q (N + 1) :=
    h.step hne fun g hg => ⟨g, by rw [advance, if_pos hg], hg⟩
  have hstart : At t u .seedStart q (N + 1) := hfirst.step hne fun g hg => ⟨_, rfl, hg⟩
  exact hstart.step hne fun g _ => ⟨⟨g.mt, 1⟩, rfl, rfl⟩

/-- The first call of one thread is about to seed the last word when another thread, for which `mti` says
that a word is left, takes that word: `init_genrand` is left with an index past the end. -/
theorem seeding_overtaken (hne : t ≠ u) : At t u .seedStore (.read (N - 1)) N := by
  have hlast : At t u .seedTest .outside (N - 1) :=
    ((unseeded_called hne).seeding hne).seedRounds hne (N - 2) (by decide)
  have hstore : At t u .seedStore .outside (N - 1) :=
    hlast.step hne fun g hg => ⟨g, by rw [advance, if_pos (hg ▸ (by decide : N - 1 < N))], hg⟩
  have hother : At u t .testFull .seedStore (N - 1) :=
    hstore.symm.step hne.symm fun g hg => ⟨g, rfl, hg⟩
  have hload : At u t .load .seedStore (N - 1) := hother.step hne.symm fun g hg =>
    ⟨g, by rw [advance, if_neg (hg ▸ (by decide : ¬ N - 1 ≥ N))], hg⟩
  have hloaded : At u t (.store (N - 1)) .seedStore (N - 1) :=
    hload.step hne.symm fun g hg => ⟨g, by rw [advance, hg], hg⟩
  have hstored : At u t (.read (N - 1)) .seedStore N :=
    hloaded.step hne.symm fun g _ => ⟨⟨g.mt, N - 1 + 1⟩, rfl, rfl⟩
  exact hstored.symm

/-- Both threads find `mt` full; while the first one seeds, the other takes the change of `mti` for a
sign that this is done, refills and resets `mti`: `init_genrand` is left with an index before `mt`. -/
theorem seeding_reset (hne : t ≠ u) : At t u .seedStore .load 0 := by
  have hother : At u t .testFull .testUnseeded (N + 1) :=
    (unseeded_called hne).symm.step hne.symm fun g hg => ⟨g, rfl, hg⟩
  have hboth : At u t .testUnseeded .testUnseeded (N + 1) :=
    hother.step hne.symm fun g hg => ⟨g, by rw [advance, if_pos (hg ▸ Nat.le_succ N)], hg⟩
  have hstore : At t u .seedStore .testUnseeded 1 := (hboth.symm.seeding hne).step hne
    fun g hg => ⟨g, by rw [advance, if_pos (hg ▸ (by decide : 1 < N))], hg⟩
  have hrefill : At u t (.refill 0) .seedStore 1 := hstore.symm.step hne.symm
    fun g hg => ⟨g, by rw [advance, if_neg (hg ▸ (by decide : ¬ 1 = N + 1))], hg⟩
  have hlast := hrefill.refillRounds hne.symm (N - 1) (by decide)
  have hfull : At u t .reset .seedStore 1 := hlast.step hne.symm fun g hg => by
    obtain ⟨g', hadvance, hmti⟩ := refill_advance g (N - 1)
    rw [if_neg (Nat.lt_irrefl _)] at hadvance
    exact ⟨g', hadvance, hmti.trans hg⟩
  have hreset : At u t .load .seedStore 0 := hfull.step hne.symm fun g _ => ⟨⟨g.mt, 0⟩, rfl, rfl⟩
  exact hreset.symm

/-- The generator's indices stay within `mt` exactly when a single thread calls it; any two threads can
come to use `mt[-1]` and `mt[N]`. -/
theorem inside_iff_subsingleton :
    ((∀ s : Callers τ, (callers τ).Reachable s → s.Inside) ↔ Subsingleton τ) ∧
      ∀ t u : τ, t ≠ u → ∀ i ∈ [(-1 : ℤ), (N : ℤ)], ∃ s, (callers τ).Reachable s ∧
        i ∈ (s.point t).indices s.globals.mti := by
  refine ⟨⟨fun h => ⟨fun t u => ?_⟩, fun hone s hs => ?_⟩, fun t u hne i hi => ?_⟩
  · by_contra hne
    obtain ⟨s, hs, hi⟩ := (seeding_overtaken hne).uses (List.mem_cons_of_mem _ List.mem_cons_self)
    exact absurd (h s hs t N hi).2 (lt_irrefl _)
  · obtain ⟨s₀, es, rfl, hr⟩ := hs
    have hserial : (callers τ).Always Callers.Serial ⟨State.unseeded, fun _ => .outside⟩ es :=
      Machine.always_of_forall (fun _ t u _ _ => Subsingleton.elim t u) _ es
    obtain ⟨k, -, -, hinside⟩ := serial_run ordered_init hserial hr
    exact hinside.last hr
  · rw [List.mem_pair] at hi
    rcases hi with rfl | rfl
    · exact (seeding_reset hne).uses List.mem_cons_self
    · exact (seeding_overtaken hne).uses (List.mem_cons_of_mem _ List.mem_cons_self)

end OperatingSystems.MersenneTwister
