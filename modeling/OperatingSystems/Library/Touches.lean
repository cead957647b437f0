import Mathlib.Data.List.Basic

namespace OperatingSystems.Library

/-- What a call does to a resource `i`. -/
inductive Touch (ι : Type*) where
  | acquire (i : ι)
  | release (i : ι)
  | use (i : ι)
  deriving DecidableEq

namespace Touch

variable {ι : Type*}

/-- Everything acquired has been released exactly once. -/
def Settled [DecidableEq ι] (log : List (Touch ι)) : Prop :=
  ∀ i, acquire i ∈ log → log.count (release i) = 1

/-- Nothing is used after its release. -/
def UsedInTime (log : List (Touch ι)) : Prop := ∀ i, ¬ [release i, use i].Sublist log

variable {log : List (Touch ι)} {i : ι}

theorem not_settled [DecidableEq ι] (hacquired : acquire i ∈ log) (hkept : release i ∉ log) :
    ¬ Settled log := by
  intro h
  have hone := h i hacquired
  rw [List.count_eq_zero.mpr hkept] at hone
  exact absurd hone (by decide)

theorem usedInTime_of_not_mem (h : ∀ i, use i ∉ log) : UsedInTime log := by
  intro i hsub
  exact h i (hsub.subset (by simp))

theorem usedInTime_of_no_release (h : ∀ i, release i ∉ log) : UsedInTime log := by
  intro i hsub
  exact h i (hsub.subset (by simp))

/-- A release comes too late to be followed by a use. -/
theorem UsedInTime.concat_release (h : UsedInTime log) (j : ι) : UsedInTime (log ++ [release j]) := by
  intro i hsub
  have hrev := hsub.reverse
  simp only [List.reverse_cons, List.reverse_nil, List.nil_append, List.cons_append,
    List.reverse_append] at hrev
  cases hrev with
  | cons _ hlog => exact h i (by simpa using hlog.reverse)

end Touch

end OperatingSystems.Library
