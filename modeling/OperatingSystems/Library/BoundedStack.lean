import Mathlib.Data.List.Perm.Basic
import Mathlib.Data.List.Nodup
import Mathlib.Logic.Function.Basic
import OperatingSystems.Library.Machine

namespace OperatingSystems.Library

/-- A stack in use. Every value is numbered when it is produced; the lists have the latest
value in front. -/
structure Stack (α : Type*) where
  items : List (ℕ × α)
  produced : List (ℕ × α)
  consumed : List (ℕ × α)

inductive StackOp (α : Type*) where
  | push (a : α)
  | pop (a : α)
  deriving DecidableEq

namespace Stack

variable {α : Type*} [DecidableEq α]

def empty : Stack α := ⟨[], [], []⟩

/-- A push needs room below the capacity, a pop takes the value on top. -/
def step (capacity : ℕ) (s : Stack α) : StackOp α → Option (Stack α)
  | .push a =>
    if s.items.length < capacity then
      some ⟨(s.produced.length, a) :: s.items, (s.produced.length, a) :: s.produced, s.consumed⟩
    else none
  | .pop a =>
    match s.items with
    | [] => none
    | x :: rest => if x.2 = a then some ⟨rest, s.produced, x :: s.consumed⟩ else none

def machine (capacity : ℕ) : Machine (Stack α) (StackOp α) where
  init s := s = empty
  step := step capacity

/-- What holds between the values on the stack, those produced and those consumed. -/
structure Sound (capacity : ℕ) (s : Stack α) : Prop where
  fits : s.items.length ≤ capacity
  conserved : (s.consumed ++ s.items).Perm s.produced
  numbered : ∀ x ∈ s.produced, x.1 < s.produced.length
  distinct : (s.produced.map Prod.fst).Nodup
  descending : s.items.Pairwise fun x y => y.1 < x.1

variable {capacity : ℕ} {s t : Stack α}

omit [DecidableEq α] in
theorem sound_empty : (empty : Stack α).Sound capacity where
  fits := Nat.zero_le _
  conserved := List.Perm.refl _
  numbered := by simp [empty]
  distinct := List.nodup_nil
  descending := List.Pairwise.nil

omit [DecidableEq α] in
theorem Sound.items_subset (h : s.Sound capacity) {x : ℕ × α} (hx : x ∈ s.items) :
    x ∈ s.produced :=
  h.conserved.mem_iff.mp (List.mem_append_right _ hx)

theorem push_eq_some {a : α} (h : step capacity s (.push a) = some t) :
    s.items.length < capacity ∧
      t = ⟨(s.produced.length, a) :: s.items, (s.produced.length, a) :: s.produced, s.consumed⟩ := by
  simp only [step] at h
  split_ifs at h with hroom
  exact ⟨hroom, (Option.some.inj h).symm⟩

theorem pop_eq_some {a : α} (h : step capacity s (.pop a) = some t) :
    ∃ k rest, s.items = (k, a) :: rest ∧ t = ⟨rest, s.produced, (k, a) :: s.consumed⟩ := by
  simp only [step] at h
  split at h
  next => cases h
  next x rest hitems =>
    split_ifs at h with hx
    subst hx
    exact ⟨x.1, rest, hitems, (Option.some.inj h).symm⟩

theorem Sound.push {a : α} (h : s.Sound capacity) (hs : step capacity s (.push a) = some t) :
    t.Sound capacity := by
  obtain ⟨hroom, rfl⟩ := push_eq_some hs
  refine ⟨hroom, ?_, ?_, ?_, ?_⟩
  · exact List.perm_middle.trans (h.conserved.cons _)
  · intro x hx
    rcases List.mem_cons.mp hx with rfl | hx
    · exact Nat.lt_succ_self _
    · exact Nat.lt_succ_of_lt (h.numbered x hx)
  · refine List.nodup_cons.mpr ⟨fun hmem => ?_, h.distinct⟩
    obtain ⟨x, hx, hnum⟩ := List.mem_map.mp hmem
    exact Nat.ne_of_lt (h.numbered x hx) hnum
  · exact List.pairwise_cons.mpr ⟨fun x hx => h.numbered x (h.items_subset hx), h.descending⟩

theorem Sound.pop {a : α} (h : s.Sound capacity) (hs : step capacity s (.pop a) = some t) :
    t.Sound capacity := by
  obtain ⟨k, rest, hitems, rfl⟩ := pop_eq_some hs
  have hfits := h.fits
  have hconserved := h.conserved
  have hdescending := h.descending
  rw [hitems] at hfits hconserved hdescending
  refine ⟨Nat.le_of_succ_le hfits, ?_, h.numbered, h.distinct, hdescending.of_cons⟩
  exact List.perm_middle.symm.trans hconserved

theorem sound_reachable (h : (machine capacity).Reachable s) : s.Sound capacity := by
  apply h.invariant
  · intro s hi
    obtain rfl : s = empty := hi
    exact sound_empty
  · intro s op t hs ht
    cases op with
    | push a => exact hs.push ht
    | pop a => exact hs.pop ht

omit [DecidableEq α] in
theorem Sound.nodup (h : s.Sound capacity) : (s.consumed ++ s.items).Nodup :=
  h.conserved.nodup_iff.mpr (List.Nodup.of_map _ h.distinct)

omit [DecidableEq α] in
/-- The value on top is the latest one that has not been consumed. -/
theorem Sound.top_latest (h : s.Sound capacity) {x : ℕ × α} {rest : List (ℕ × α)}
    (hitems : s.items = x :: rest) :
    x ∉ s.consumed ∧ ∀ y ∈ s.produced, y ∉ s.consumed → y.1 ≤ x.1 := by
  have htop : x ∈ s.items := hitems ▸ List.mem_cons_self
  refine ⟨fun hx => List.disjoint_of_nodup_append h.nodup hx htop, fun y hy hnot => ?_⟩
  have hmem := (List.mem_append.mp (h.conserved.mem_iff.mpr hy)).resolve_left hnot
  have hdescending := h.descending
  rw [hitems] at hmem hdescending
  rcases List.mem_cons.mp hmem with rfl | hrest
  · exact Nat.le_refl _
  · exact Nat.le_of_lt ((List.pairwise_cons.mp hdescending).1 y hrest)

end Stack

/-- The cells of an array below an index, the highest of them in front. -/
def topFirst {α : Type*} {size : ℕ} (cells : Fin size → α) : ℕ → List α
  | 0 => []
  | n + 1 => if h : n < size then cells ⟨n, h⟩ :: topFirst cells n else topFirst cells n

section TopFirst

variable {α : Type*} {size : ℕ}

theorem topFirst_succ (cells : Fin size → α) (i : Fin size) :
    topFirst cells (i.val + 1) = cells i :: topFirst cells i.val := by
  simp [topFirst, i.isLt]

theorem topFirst_update (cells : Fin size → α) (i : Fin size) (a : α) {n : ℕ} (hn : n ≤ i.val) :
    topFirst (Function.update cells i a) n = topFirst cells n := by
  induction n with
  | zero => rfl
  | succ n ih =>
    simp only [topFirst]
    split_ifs with hlt
    · have hne : (⟨n, hlt⟩ : Fin size) ≠ i := fun h => Nat.not_lt_of_le hn (by simp [← h])
      rw [Function.update_of_ne hne, ih (Nat.le_of_succ_le hn)]
    · exact ih (Nat.le_of_succ_le hn)

end TopFirst

end OperatingSystems.Library
