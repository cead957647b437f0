import Mathlib.Data.Option.Basic

namespace OperatingSystems.Library

/-- A state machine: where its runs may start, and what an event does to a state
(`none` when the event cannot happen there). -/
structure Machine (σ ε : Type*) where
  init : σ → Prop
  step : σ → ε → Option σ

namespace Machine

variable {σ ε : Type*} (M : Machine σ ε)

/-- The state after a list of events, if every one of them could happen. -/
def run : σ → List ε → Option σ
  | s, [] => some s
  | s, e :: es => (M.step s e).bind fun t => run t es

def Reachable (s : σ) : Prop := ∃ s₀ es, M.init s₀ ∧ M.run s₀ es = some s

/-- `P` holds in every state that the events pass through, the first and the last included. -/
def Always (P : σ → Prop) : σ → List ε → Prop
  | s, [] => P s
  | s, e :: es => P s ∧ ∀ t, M.step s e = some t → Always P t es

/-- Every event of the run meets `C` in the state it happens in. -/
def Meets (C : σ → ε → Prop) : σ → List ε → Prop
  | _, [] => True
  | s, e :: es => C s e ∧ ∀ t, M.step s e = some t → Meets C t es

variable {M}

@[simp] theorem run_nil (s : σ) : M.run s [] = some s := rfl

theorem run_cons {s t : σ} {e : ε} (h : M.step s e = some t) (es : List ε) :
    M.run s (e :: es) = M.run t es := by
  simp [run, h]

theorem run_cons_eq_some {s u : σ} {e : ε} {es : List ε} :
    M.run s (e :: es) = some u ↔ ∃ t, M.step s e = some t ∧ M.run t es = some u := by
  simp [run, Option.bind_eq_some_iff]

theorem run_single {s t : σ} {e : ε} (h : M.step s e = some t) : M.run s [e] = some t :=
  (run_cons h []).trans (run_nil t)

theorem run_append (s : σ) (es fs : List ε) :
    M.run s (es ++ fs) = (M.run s es).bind fun t => M.run t fs := by
  induction es generalizing s with
  | nil => rfl
  | cons e es ih =>
    simp only [List.cons_append, run, Option.bind_assoc]
    exact congrArg _ (funext ih)

/-- Two runs, one after the other. -/
theorem run_trans {s t : σ} {es fs : List ε} (h : M.run s es = some t) :
    M.run s (es ++ fs) = M.run t fs := by
  rw [run_append, h, Option.bind_some]

/-- The same steps from another start. -/
def startingAt (M : Machine σ ε) (s₀ : σ) : Machine σ ε := ⟨fun s => s = s₀, M.step⟩

theorem Reachable.run {s t : σ} {es : List ε} (h : M.Reachable s) (hr : M.run s es = some t) :
    M.Reachable t := by
  obtain ⟨s₀, fs, hi, hs⟩ := h
  exact ⟨s₀, fs ++ es, hi, (run_trans hs).trans hr⟩

theorem Reachable.step {s t : σ} {e : ε} (h : M.Reachable s) (hs : M.step s e = some t) :
    M.Reachable t :=
  h.run (run_single hs)

theorem run_invariant {I : σ → Prop} (hstep : ∀ s e t, I s → M.step s e = some t → I t)
    {s t : σ} {es : List ε} (hs : I s) (h : M.run s es = some t) : I t := by
  induction es generalizing s with
  | nil => exact Option.some.inj h ▸ hs
  | cons e es ih =>
    obtain ⟨u, hu, hr⟩ := run_cons_eq_some.mp h
    exact ih (hstep s e u hs hu) hr

/-- What holds initially and survives every step holds in every reachable state. -/
theorem Reachable.invariant {I : σ → Prop} (hinit : ∀ s, M.init s → I s)
    (hstep : ∀ s e t, I s → M.step s e = some t → I t) {s : σ} (h : M.Reachable s) : I s := by
  obtain ⟨s₀, es, hi, hr⟩ := h
  exact run_invariant hstep (hinit s₀ hi) hr

theorem Always.head {P : σ → Prop} {s : σ} {es : List ε} (h : M.Always P s es) : P s := by
  cases es with
  | nil => exact h
  | cons e es => exact h.1

theorem Always.mono {P Q : σ → Prop} (hPQ : ∀ s, P s → Q s) {s : σ} {es : List ε}
    (h : M.Always P s es) : M.Always Q s es := by
  induction es generalizing s with
  | nil => exact hPQ s h
  | cons e es ih => exact ⟨hPQ s h.1, fun t ht => ih (h.2 t ht)⟩

theorem always_of_forall {P : σ → Prop} (h : ∀ s, P s) (s : σ) (es : List ε) : M.Always P s es := by
  induction es generalizing s with
  | nil => exact h s
  | cons e es ih => exact ⟨h s, fun t _ => ih t⟩

theorem Always.last {P : σ → Prop} {s t : σ} {es : List ε} (h : M.Always P s es)
    (hr : M.run s es = some t) : P t := by
  induction es generalizing s with
  | nil => exact Option.some.inj hr ▸ h
  | cons e es ih =>
    obtain ⟨u, hu, hr⟩ := run_cons_eq_some.mp hr
    exact ih (h.2 u hu) hr

theorem Always.append {P : σ → Prop} {s t : σ} {es fs : List ε} (h : M.Always P s es)
    (hr : M.run s es = some t) (hrest : M.Always P t fs) : M.Always P s (es ++ fs) := by
  induction es generalizing s with
  | nil => exact Option.some.inj hr ▸ hrest
  | cons e es ih =>
    obtain ⟨u, hu, hr⟩ := run_cons_eq_some.mp hr
    refine ⟨h.1, fun v hv => ?_⟩
    obtain rfl := Option.some.inj (hu.symm.trans hv)
    exact ih (h.2 u hu) hr

/-- An invariant whose steps need `P` survives the runs on which `P` always holds. -/
theorem Always.invariant {I P : σ → Prop}
    (hstep : ∀ s e t, I s → P s → M.step s e = some t → I t) {s t : σ} {es : List ε}
    (hs : I s) (h : M.Always P s es) (hr : M.run s es = some t) : I t := by
  induction es generalizing s with
  | nil => exact Option.some.inj hr ▸ hs
  | cons e es ih =>
    obtain ⟨u, hu, hr⟩ := run_cons_eq_some.mp hr
    exact ih (hstep s e u hs h.1 hu) (h.2 u hu) hr

/-- A run that leaves `P` does so at the end of one of its prefixes. -/
theorem exists_prefix_of_not_always {P : σ → Prop} {s t : σ} {es : List ε}
    (hr : M.run s es = some t) (h : ¬ M.Always P s es) :
    ∃ fs gs u, es = fs ++ gs ∧ M.run s fs = some u ∧ ¬ P u := by
  induction es generalizing s with
  | nil => exact ⟨[], [], s, rfl, rfl, h⟩
  | cons e es ih =>
    obtain ⟨u, hu, hr⟩ := run_cons_eq_some.mp hr
    by_cases hs : P s
    · have hrest : ¬ M.Always P u es := fun ha =>
        h ⟨hs, fun v hv => Option.some.inj (hu.symm.trans hv) ▸ ha⟩
      obtain ⟨fs, gs, v, rfl, hf, hv⟩ := ih hr hrest
      exact ⟨e :: fs, gs, v, rfl, (run_cons hu fs).trans hf, hv⟩
    · exact ⟨[], e :: es, s, rfl, rfl, hs⟩

/-- The invariant rule for the runs whose steps all meet a condition. -/
theorem Meets.always {I : σ → Prop} {C : σ → ε → Prop}
    (hstep : ∀ s e t, I s → C s e → M.step s e = some t → I t) {s : σ} {es : List ε}
    (hs : I s) (h : M.Meets C s es) : M.Always I s es := by
  induction es generalizing s with
  | nil => exact hs
  | cons e es ih => exact ⟨hs, fun t ht => ih (hstep s e t hs h.1 ht) (h.2 t ht)⟩

theorem Meets.and {C D : σ → ε → Prop} {s : σ} {es : List ε} (hC : M.Meets C s es)
    (hD : M.Meets D s es) : M.Meets (fun s e => C s e ∧ D s e) s es := by
  induction es generalizing s with
  | nil => trivial
  | cons e es ih => exact ⟨⟨hC.1, hD.1⟩, fun t ht => ih (hC.2 t ht) (hD.2 t ht)⟩

instance decidableMeets {C : σ → ε → Prop} [∀ s e, Decidable (C s e)] :
    ∀ s es, Decidable (M.Meets C s es)
  | _, [] => isTrue trivial
  | s, e :: es =>
    match h : M.step s e with
    | none => decidable_of_iff (C s e)
        ⟨fun hc => ⟨hc, fun _ ht => absurd (h.symm.trans ht) nofun⟩, And.left⟩
    | some t =>
      have : Decidable (M.Meets C t es) := decidableMeets t es
      decidable_of_iff (C s e ∧ M.Meets C t es)
        (and_congr_right fun _ => ⟨fun hm _ hu => Option.some.inj (h.symm.trans hu) ▸ hm,
          fun hm => hm t h⟩)

/-- An invariant that guarantees the condition of every step. -/
theorem meets_of_invariant {I : σ → Prop} {C : σ → ε → Prop}
    (hstep : ∀ s e t, I s → M.step s e = some t → I t) (hC : ∀ s e, I s → C s e) {s : σ}
    (es : List ε) (hs : I s) : M.Meets C s es := by
  induction es generalizing s with
  | nil => trivial
  | cons e es ih => exact ⟨hC s e hs, fun t ht => ih (hstep s e t hs ht)⟩

/-- Conditions that an invariant makes equivalent; it need only survive the steps that meet them. -/
theorem meets_congr {I : σ → Prop} {C D : σ → ε → Prop}
    (hstep : ∀ s e t, I s → D s e → M.step s e = some t → I t)
    (hCD : ∀ s e, I s → (C s e ↔ D s e)) {s : σ} (es : List ε) (hs : I s) :
    M.Meets C s es ↔ M.Meets D s es := by
  induction es generalizing s with
  | nil => exact Iff.rfl
  | cons e es ih =>
    have hhead := hCD s e hs
    constructor
    · rintro ⟨hc, hrest⟩
      have hd := hhead.mp hc
      exact ⟨hd, fun t ht => (ih (hstep s e t hs hd ht)).mp (hrest t ht)⟩
    · rintro ⟨hd, hrest⟩
      exact ⟨hhead.mpr hd, fun t ht => (ih (hstep s e t hs hd ht)).mpr (hrest t ht)⟩

/-- The converse rule: a step whose two ends satisfy `P` meets the condition. -/
theorem Always.meets {I P : σ → Prop} {C : σ → ε → Prop}
    (hinv : ∀ s e t, I s → M.step s e = some t → I t)
    (hstep : ∀ s e t, I s → P s → P t → M.step s e = some t → C s e)
    {s t : σ} {es : List ε} (hs : I s) (h : M.Always P s es) (hr : M.run s es = some t) :
    M.Meets C s es := by
  induction es generalizing s with
  | nil => trivial
  | cons e es ih =>
    obtain ⟨u, hu, hr⟩ := run_cons_eq_some.mp hr
    have hnext := h.2 u hu
    refine ⟨hstep s e u hs h.1 hnext.head hu, fun v hv => ?_⟩
    obtain rfl : u = v := Option.some.inj (hu.symm.trans hv)
    exact ih (hinv s e u hs hu) hnext hr

end Machine

end OperatingSystems.Library
