import Mathlib.Order.Interval.Finset.Nat
import Mathlib.Algebra.BigOperators.Group.List.Basic
import Mathlib.Algebra.GroupWithZero.Nat

namespace OperatingSystems.Library

/-- Runs of consecutive numbers, each given by its first number and its length, in ascending order
between `lo` and `hi`, with at least `gap` numbers between two of them. -/
def Spaced (gap hi : ℕ) : ℕ → List (ℕ × ℕ) → Prop
  | _, [] => True
  | lo, x :: xs => (lo ≤ x.1 ∧ 0 < x.2 ∧ x.1 + x.2 ≤ hi) ∧ Spaced gap hi (x.1 + x.2 + gap) xs

/-- The numbers in the runs. -/
def Covers (xs : List (ℕ × ℕ)) (u : ℕ) : Prop := ∃ x ∈ xs, x.1 ≤ u ∧ u < x.1 + x.2

def runsSize (xs : List (ℕ × ℕ)) : ℕ := (xs.map Prod.snd).sum

/-- What is left of a run without its part from offset `d` on, `k` numbers long. -/
def carve (x : ℕ × ℕ) (d k : ℕ) : List (ℕ × ℕ) :=
  (if d = 0 then [] else [(x.1, d)]) ++
    if d + k = x.2 then [] else [(x.1 + d + k, x.2 - (d + k))]

/-- A run and those behind it, the first one being joined to it where the two touch. -/
def mergeRight (x : ℕ × ℕ) : List (ℕ × ℕ) → List (ℕ × ℕ)
  | [] => [x]
  | y :: ys => if x.1 + x.2 = y.1 then (x.1, x.2 + y.2) :: ys else x :: y :: ys

/-- A run of numbers that satisfy `P`, between `lo` and `hi`, that cannot be made longer. -/
structure MaximalRun (P : ℕ → Prop) (lo hi : ℕ) (x : ℕ × ℕ) : Prop where
  lo_le : lo ≤ x.1
  pos : 0 < x.2
  le_hi : x.1 + x.2 ≤ hi
  inside : ∀ u, x.1 ≤ u → u < x.1 + x.2 → P u
  left : x.1 = lo ∨ ¬ P (x.1 - 1)
  right : x.1 + x.2 = hi ∨ ¬ P (x.1 + x.2)

variable {gap lo lo' hi u : ℕ} {x y : ℕ × ℕ} {xs ys zs : List (ℕ × ℕ)} {P : ℕ → Prop}

@[simp] theorem covers_nil : ¬ Covers [] u := by
  simp [Covers]

@[simp] theorem covers_cons : Covers (x :: xs) u ↔ (x.1 ≤ u ∧ u < x.1 + x.2) ∨ Covers xs u := by
  simp [Covers]

@[simp] theorem covers_append : Covers (xs ++ ys) u ↔ Covers xs u ∨ Covers ys u := by
  simp [Covers, or_and_right, exists_or]

@[simp] theorem runsSize_nil : runsSize [] = 0 := rfl

@[simp] theorem runsSize_cons : runsSize (x :: xs) = x.2 + runsSize xs := by
  simp [runsSize]

@[simp] theorem runsSize_append : runsSize (xs ++ ys) = runsSize xs + runsSize ys := by
  simp [runsSize]

@[simp] theorem spaced_nil : Spaced gap hi lo [] := trivial

@[simp] theorem spaced_cons : Spaced gap hi lo (x :: xs) ↔
    (lo ≤ x.1 ∧ 0 < x.2 ∧ x.1 + x.2 ≤ hi) ∧ Spaced gap hi (x.1 + x.2 + gap) xs := Iff.rfl

theorem mergeRight_ne_nil : mergeRight x xs ≠ [] := by
  cases xs with
  | nil => exact List.cons_ne_nil x []
  | cons y ys =>
    rw [mergeRight]
    split_ifs <;> exact List.cons_ne_nil _ _

/-- Two maximal runs with a common number are the same. -/
theorem MaximalRun.eq (hx : MaximalRun P lo hi x) (hy : MaximalRun P lo hi y)
    (hux : x.1 ≤ u ∧ u < x.1 + x.2) (huy : y.1 ≤ u ∧ u < y.1 + y.2) : x = y := by
  have hleft : ∀ {x y : ℕ × ℕ}, MaximalRun P lo hi x → MaximalRun P lo hi y →
      (x.1 ≤ u ∧ u < x.1 + x.2) → (y.1 ≤ u ∧ u < y.1 + y.2) → y.1 ≤ x.1 := by
    intro x y hx hy hux huy
    by_contra hlt
    have hlo := hx.lo_le
    rcases hy.left with hy | hy
    · omega
    · exact hy (hx.inside _ (by omega) (by omega))
  have hright : ∀ {x y : ℕ × ℕ}, MaximalRun P lo hi x → MaximalRun P lo hi y →
      (x.1 ≤ u ∧ u < x.1 + x.2) → (y.1 ≤ u ∧ u < y.1 + y.2) → x.1 + x.2 ≤ y.1 + y.2 := by
    intro x y hx hy hux huy
    by_contra hlt
    have hhi := hx.le_hi
    rcases hy.right with hy | hy
    · omega
    · exact hy (hx.inside _ (by omega) (by omega))
  have h₁ := hleft hx hy hux huy
  have h₂ := hleft hy hx huy hux
  have h₃ := hright hx hy hux huy
  have h₄ := hright hy hx huy hux
  exact Prod.ext (by omega) (by omega)

/-- Consecutive numbers that satisfy `P` do not reach beyond the maximal run that they begin in. -/
theorem MaximalRun.add_le {a k : ℕ} (hx : MaximalRun P lo hi x) (hlt : a < x.1 + x.2) (hhi : a + k ≤ hi)
    (hP : ∀ u, a ≤ u → u < a + k → P u) : a + k ≤ x.1 + x.2 := by
  by_contra hlong
  rcases hx.right with hend | hend
  · omega
  · exact hend (hP _ hlt.le (by omega))

namespace Spaced

theorem mono_lo (h : Spaced gap hi lo xs) (hlo : lo' ≤ lo) : Spaced gap hi lo' xs := by
  cases xs with
  | nil => trivial
  | cons x xs => exact ⟨⟨hlo.trans h.1.1, h.1.2⟩, h.2⟩

theorem weaken (h : Spaced gap hi lo xs) : Spaced 0 hi lo xs := by
  induction xs generalizing lo with
  | nil => trivial
  | cons x xs ih => exact ⟨h.1, (ih h.2).mono_lo (Nat.le_add_right _ gap)⟩

theorem bounds (h : Spaced gap hi lo xs) (hu : Covers xs u) : lo ≤ u ∧ u < hi := by
  induction xs generalizing lo with
  | nil => exact absurd hu covers_nil
  | cons x xs ih =>
    obtain ⟨⟨hlo, hpos, hhi⟩, hxs⟩ := h
    rcases covers_cons.mp hu with hu | hu
    · omega
    · have := ih hxs hu
      omega

/-- What stands before a run ends before it, and the rest fits behind it. -/
theorem split (h : Spaced gap hi lo (xs ++ x :: ys)) : Spaced gap (x.1 - gap) lo xs ∧
    (xs ≠ [] → gap ≤ x.1) ∧ (lo ≤ x.1 ∧ 0 < x.2 ∧ x.1 + x.2 ≤ hi) ∧
    Spaced gap hi (x.1 + x.2 + gap) ys := by
  induction xs generalizing lo with
  | nil => exact ⟨trivial, absurd rfl, h.1, h.2⟩
  | cons z zs ih =>
    obtain ⟨hz, hrest⟩ := h
    obtain ⟨hzs, -, hx, hys⟩ := ih hrest
    exact ⟨⟨⟨hz.1, hz.2.1, by omega⟩, hzs⟩, fun _ => by omega, ⟨by omega, hx.2⟩, hys⟩

theorem of_mem (h : Spaced gap hi lo xs) (hx : x ∈ xs) : lo ≤ x.1 ∧ 0 < x.2 ∧ x.1 + x.2 ≤ hi := by
  obtain ⟨ys, zs, rfl⟩ := List.append_of_mem hx
  exact h.split.2.2.1

theorem append {m : ℕ} (hxs : Spaced gap m lo xs) (hm : m ≤ hi) (hgap : xs ≠ [] → m + gap ≤ lo')
    (hlo : lo ≤ lo') (hys : Spaced gap hi lo' ys) : Spaced gap hi lo (xs ++ ys) := by
  induction xs generalizing lo with
  | nil => exact hys.mono_lo hlo
  | cons z zs ih =>
    obtain ⟨hz, hzs⟩ := hxs
    have hle := hgap (List.cons_ne_nil z zs)
    exact ⟨⟨hz.1, hz.2.1, by omega⟩, ih hzs (fun _ => hle) (by omega)⟩

/-- Other runs in the place of one run. -/
theorem replace (h : Spaced gap hi lo (xs ++ x :: ys)) (hzs : Spaced gap hi x.1 zs) :
    Spaced gap hi lo (xs ++ zs) := by
  obtain ⟨hxs, hgap, hx, -⟩ := h.split
  exact hxs.append (by omega) (fun hne => by have := hgap hne; omega) hx.1 hzs

/-- The other runs do not meet a run in the middle. -/
theorem outside (h : Spaced gap hi lo (xs ++ x :: ys)) :
    (∀ u, Covers xs u → u < x.1) ∧ ∀ u, Covers ys u → x.1 + x.2 ≤ u := by
  obtain ⟨hxs, -, -, hys⟩ := h.split
  refine ⟨fun u hu => ?_, fun u hu => ?_⟩
  · have := hxs.bounds hu
    omega
  · have := hys.bounds hu
    omega

/-- The number of numbers in the runs. -/
theorem card_filter (h : Spaced gap hi lo xs) [DecidablePred P]
    (hP : ∀ u, lo ≤ u → u < hi → (Covers xs u ↔ P u)) :
    ((Finset.Ico lo hi).filter P).card = runsSize xs := by
  induction xs generalizing lo with
  | nil =>
    rw [Finset.filter_false_of_mem fun u hu => ?_, Finset.card_empty, runsSize_nil]
    rw [Finset.mem_Ico] at hu
    exact fun hp => covers_nil ((hP u hu.1 hu.2).mpr hp)
  | cons x xs ih =>
    obtain ⟨⟨hlo, hpos, hhi⟩, hxs⟩ := h
    have hrest : ∀ u, x.1 + x.2 + gap ≤ u → u < hi → (Covers xs u ↔ P u) := by
      intro u hle hlt
      rw [← hP u (by omega) hlt, covers_cons]
      refine (or_iff_right_of_imp fun hu => ?_).symm
      omega
    have hunion : (Finset.Ico lo hi).filter P = Finset.Ico x.1 (x.1 + x.2) ∪
        (Finset.Ico (x.1 + x.2 + gap) hi).filter P := by
      ext u
      simp only [Finset.mem_filter, Finset.mem_Ico, Finset.mem_union]
      constructor
      · rintro ⟨⟨hle, hlt⟩, hp⟩
        rcases covers_cons.mp ((hP u hle hlt).mpr hp) with hu | hu
        · exact .inl hu
        · have := hxs.bounds hu
          exact .inr ⟨by omega, hp⟩
      · rintro (⟨hle, hlt⟩ | ⟨⟨hle, hlt⟩, hp⟩)
        · exact ⟨by omega, (hP u (by omega) (by omega)).mp (covers_cons.mpr (.inl ⟨hle, hlt⟩))⟩
        · exact ⟨by omega, hp⟩
    have hdisjoint : Disjoint (Finset.Ico x.1 (x.1 + x.2))
        ((Finset.Ico (x.1 + x.2 + gap) hi).filter P) := by
      rw [Finset.disjoint_left]
      intro u hu hu'
      simp only [Finset.mem_filter, Finset.mem_Ico] at hu hu'
      omega
    rw [hunion, Finset.card_union_of_disjoint hdisjoint, ih hxs hrest, Nat.card_Ico, runsSize_cons]
    omega

/-- Runs and a further run, none of whose numbers they have, take up all the room if their sizes add
up to it. -/
theorem covers_of_size {b k : ℕ} (h : Spaced gap hi lo xs) (hlo : lo ≤ b) (hhi : b + k ≤ hi)
    (hfree : ∀ u, b ≤ u → u < b + k → ¬ Covers xs u) (hsize : runsSize xs + k = hi - lo)
    (hle : lo ≤ u) (hlt : u < hi) : Covers xs u ∨ b ≤ u ∧ u < b + k := by
  classical
  have hcard := h.card_filter (P := Covers xs) fun _ _ _ => Iff.rfl
  have hrest : (Finset.Ico lo hi \ Finset.Ico b (b + k)).card = hi - lo - k := by
    rw [Finset.card_sdiff_of_subset (Finset.Ico_subset_Ico hlo hhi), Nat.card_Ico, Nat.card_Ico]
    omega
  have hsub : (Finset.Ico lo hi).filter (Covers xs) ⊆ Finset.Ico lo hi \ Finset.Ico b (b + k) := by
    intro v hv
    rw [Finset.mem_filter] at hv
    refine Finset.mem_sdiff.mpr ⟨hv.1, fun hb => ?_⟩
    rw [Finset.mem_Ico] at hb
    exact hfree v hb.1 hb.2 hv.2
  have heq := Finset.eq_of_subset_of_card_le hsub (by omega)
  by_contra hnot
  rw [not_or] at hnot
  have hmem : u ∈ Finset.Ico lo hi \ Finset.Ico b (b + k) := by
    refine Finset.mem_sdiff.mpr ⟨Finset.mem_Ico.mpr ⟨hle, hlt⟩, fun hb => ?_⟩
    exact hnot.2 (Finset.mem_Ico.mp hb)
  rw [← heq, Finset.mem_filter] at hmem
  exact hnot.1 hmem.2

theorem runsSize_eq_zero (h : Spaced gap hi lo xs) : runsSize xs = 0 ↔ xs = [] := by
  cases xs with
  | nil => exact iff_of_true rfl rfl
  | cons x xs =>
    have hpos := h.1.2.1
    refine iff_of_false (fun hzero => ?_) (List.cons_ne_nil x xs)
    rw [runsSize_cons] at hzero
    omega

theorem length_le (h : Spaced gap hi lo xs) : xs.length ≤ hi - lo := by
  induction xs generalizing lo with
  | nil => exact Nat.zero_le _
  | cons x xs ih =>
    have := ih h.2
    have := h.1
    rw [List.length_cons]
    omega

/-- Carving takes exactly the carved numbers away. -/
theorem carve {d k : ℕ} (h : Spaced gap hi lo (xs ++ x :: ys)) (hk : gap ≤ k) (hpos : 0 < k)
    (hfit : d + k ≤ x.2) : Spaced gap hi lo (xs ++ (carve x d k ++ ys)) ∧
    (∀ u, Covers (xs ++ (Library.carve x d k ++ ys)) u ↔
      Covers (xs ++ x :: ys) u ∧ ¬ (x.1 + d ≤ u ∧ u < x.1 + d + k)) ∧
    runsSize (xs ++ (Library.carve x d k ++ ys)) + k = runsSize (xs ++ x :: ys) := by
  obtain ⟨-, -, hx, hys⟩ := h.split
  obtain ⟨hbefore, hafter⟩ := h.outside
  refine ⟨h.replace ?_, fun u => ?_, ?_⟩
  · unfold Library.carve
    split_ifs with hd hend hend
    · exact hys.mono_lo (by omega)
    · exact ⟨by omega, hys.mono_lo (by omega)⟩
    · exact ⟨by omega, hys.mono_lo (by omega)⟩
    · exact ⟨by omega, by omega, hys.mono_lo (by omega)⟩
  · have hleft := hbefore u
    have hright := hafter u
    simp only [Library.carve, covers_append, covers_cons]
    by_cases hxs : Covers xs u
    · have := hleft hxs
      simp only [hxs, true_or, true_and, true_iff]
      omega
    by_cases hyu : Covers ys u
    · have := hright hyu
      simp only [hyu, or_true, true_and, true_iff]
      omega
    simp only [hxs, hyu, false_or, or_false]
    split_ifs <;> simp only [covers_nil, covers_cons, false_or, or_false, false_iff] <;> omega
  · simp only [Library.carve, runsSize_append, runsSize_cons]
    split_ifs <;> simp only [runsSize_nil, runsSize_cons] <;> omega

theorem mergeRight (h : Spaced 1 hi (x.1 + x.2) xs) (hpos : 0 < x.2) (hhi : x.1 + x.2 ≤ hi) :
    Spaced 1 hi x.1 (mergeRight x xs) ∧
    (∀ u, Covers (Library.mergeRight x xs) u ↔ (x.1 ≤ u ∧ u < x.1 + x.2) ∨ Covers xs u) ∧
    runsSize (Library.mergeRight x xs) = x.2 + runsSize xs := by
  cases xs with
  | nil => exact ⟨⟨⟨le_rfl, hpos, hhi⟩, trivial⟩, fun u => covers_cons, rfl⟩
  | cons y ys =>
    obtain ⟨hy, hys⟩ := h
    rw [Library.mergeRight]
    split_ifs with htouch
    · refine ⟨⟨⟨le_rfl, by omega, by omega⟩, hys.mono_lo (by omega)⟩, fun u => ?_, ?_⟩
      · rw [covers_cons, covers_cons, ← or_assoc]
        apply or_congr_left
        omega
      · simp only [runsSize_cons]
        omega
    · refine ⟨⟨⟨le_rfl, hpos, hhi⟩, ⟨by omega, hy.2⟩, hys⟩, fun u => covers_cons, ?_⟩
      simp only [runsSize_cons]

theorem pairwise (h : Spaced gap hi lo xs) : xs.Pairwise fun x y => x.1 + x.2 + gap ≤ y.1 := by
  induction xs generalizing lo with
  | nil => exact List.Pairwise.nil
  | cons x xs ih =>
    refine List.pairwise_cons.mpr ⟨fun y hy => ?_, ih h.2⟩
    obtain ⟨ys, zs, rfl⟩ := List.append_of_mem hy
    exact h.2.split.2.2.1.1

/-- Runs that do not touch are the maximal runs of the numbers in them. -/
theorem mem_iff_maximalRun (h : Spaced 1 hi lo xs)
    (hP : ∀ u, lo ≤ u → u < hi → (Covers xs u ↔ P u)) : x ∈ xs ↔ MaximalRun P lo hi x := by
  have hmax : ∀ x ∈ xs, MaximalRun P lo hi x := by
    intro x hx
    obtain ⟨ys, zs, rfl⟩ := List.append_of_mem hx
    obtain ⟨hys, -, hbounds, hzs⟩ := h.split
    have hnot : ∀ u, (u + 1 = x.1 ∨ u = x.1 + x.2) → ¬ Covers (ys ++ x :: zs) u := by
      intro u hu hcov
      rw [covers_append, covers_cons] at hcov
      rcases hcov with hcov | hcov | hcov
      · have := hys.bounds hcov
        omega
      · omega
      · have := hzs.bounds hcov
        omega
    refine ⟨hbounds.1, hbounds.2.1, hbounds.2.2, fun u hle hlt => ?_, ?_, ?_⟩
    · rw [← hP u (by omega) (by omega)]
      simp [hle, hlt]
    · rcases Nat.eq_or_lt_of_le hbounds.1 with hlo | hlo
      · exact .inl hlo.symm
      · refine .inr fun hp => hnot (x.1 - 1) (.inl (by omega)) ((hP _ ?_ ?_).mpr hp) <;> omega
    · rcases Nat.eq_or_lt_of_le hbounds.2.2 with hhi | hhi
      · exact .inl hhi
      · refine .inr fun hp => hnot (x.1 + x.2) (.inr rfl) ((hP _ ?_ ?_).mpr hp) <;> omega
  refine ⟨hmax x, fun hx => ?_⟩
  have hcov : Covers xs x.1 := by
    have := hx.lo_le
    have := hx.pos
    have := hx.le_hi
    exact (hP x.1 (by omega) (by omega)).mpr (hx.inside x.1 le_rfl (by omega))
  obtain ⟨y, hy, hle, hlt⟩ := hcov
  have hpos := hx.pos
  rw [hx.eq (hmax y hy) (u := x.1) ⟨le_rfl, by omega⟩ ⟨hle, hlt⟩]
  exact hy

/-- Runs that do not touch are determined by the numbers in them. -/
theorem eq_of_covers (h : Spaced 1 hi lo xs) (h' : Spaced 1 hi lo ys)
    (hsame : ∀ u, lo ≤ u → u < hi → (Covers xs u ↔ Covers ys u)) : xs = ys := by
  have hmem : ∀ x, x ∈ xs ↔ x ∈ ys := by
    intro x
    rw [h.mem_iff_maximalRun hsame, h'.mem_iff_maximalRun fun u _ _ => Iff.rfl]
  have hne : ∀ x y : ℕ × ℕ, x.1 + x.2 + 1 ≤ y.1 → x ≠ y := by
    rintro x y hxy rfl
    omega
  have hperm : xs.Perm ys := (List.perm_ext_iff_of_nodup (h.pairwise.imp (hne _ _))
    (h'.pairwise.imp (hne _ _))).mpr hmem
  refine hperm.eq_of_pairwise (fun x y _ _ hxy hyx => ?_) h.pairwise h'.pairwise
  omega

end Spaced

end OperatingSystems.Library
