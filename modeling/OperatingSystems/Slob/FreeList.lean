import OperatingSystems.Library.Runs
import OperatingSystems.Slob.Heap

namespace OperatingSystems.Slob

open Library

variable {g : Config}

/-- The free blocks that a walk from `p` to `q` meets. -/
abbrev Blocks (g : Config) (cell : ℕ → ℤ) (p : ℕ) (xs : List (ℕ × ℕ)) (q : ℕ) : Prop :=
  Chain Prod.fst (Encodes g cell) p xs q

/-- The runs lie on page `sp`, at least `gap` units apart. -/
abbrev OnPage (g : Config) (gap sp : ℕ) (xs : List (ℕ × ℕ)) : Prop :=
  Spaced gap ((sp + 1) * g.pageUnits) (sp * g.pageUnits) xs

/-- The address of the last block, `NULL` when there is none. -/
def lastOf (xs : List (ℕ × ℕ)) : Option ℕ := xs.getLast?.map Prod.fst

/-- The room that a block has left over for a request, which fits when it is not negative. -/
def slack (g : Config) (units align : ℕ) (x : ℕ × ℕ) : ℤ :=
  x.2 - (units + (alignBlock g align x.1).2)

variable {cell cell' : ℕ → ℤ} {p q sp gap units align : ℕ} {x : ℕ × ℕ} {xs ys zs : List (ℕ × ℕ)}

@[simp] theorem lastOf_append : lastOf (xs ++ [x]) = some x.1 := by
  simp [lastOf]

namespace OnPage

theorem base_eq (h : OnPage g gap sp (ys ++ x :: zs)) : g.base x.1 = sp * g.pageUnits := by
  have hx := h.split.2.2.1
  exact Config.base_eq hx.1 (by omega)

end OnPage

namespace Blocks

/-- Blocks whose units keep their contents stay linked. -/
theorem congr (h : Blocks g cell p xs q) (hsame : ∀ u, Covers xs u → cell' u = cell u) :
    Blocks g cell' p xs q :=
  Chain.congr (fun x hx _ hr => hr.congr fun u hle hlt => hsame u ⟨x, hx, hle, hlt⟩) h

theorem encodes (h : Blocks g cell p (ys ++ x :: zs) q) :
    ∃ r, Encodes g cell x r ∧ Blocks g cell p ys x.1 ∧ Blocks g cell r zs q := by
  obtain ⟨hys, r, hr, hzs⟩ := Chain.split_iff.mp h
  exact ⟨r, hr, hys, hzs⟩

/-- A walk goes forward. -/
theorem le (h : Blocks g cell p xs q) : p ≤ q := by
  induction xs generalizing p with
  | nil => exact h.le
  | cons x xs ih =>
    obtain ⟨rfl, r, hr, hxs⟩ := h
    have := ih hxs
    have := hr.before
    omega

end Blocks

section Scan

/-- The block that a scan has chosen among `xs`, and what stands before it. -/
structure Picks (g : Config) (units align : ℕ) (xs : List (ℕ × ℕ)) (b : BestFit) : Prop where
  split : ∃ ys n zs, xs = ys ++ (b.cur, n) :: zs ∧ b.prev = lastOf ys ∧
    b.diff = slack g units align (b.cur, n)
  align : (b.aligned, b.delta) = alignBlock g align b.cur
  fits : 0 ≤ b.diff

/-- The state of the best-fit scan after the blocks `xs`: it has chosen the first of those with the
least slack, if any fits. -/
structure Scanned (g : Config) (units align : ℕ) (xs : List (ℕ × ℕ)) (best : Option BestFit) :
    Prop where
  none : best = none → ∀ x ∈ xs, slack g units align x < 0
  picks : ∀ b, best = some b → Picks g units align xs b
  least : ∀ b, best = some b → ∀ x ∈ xs, 0 ≤ slack g units align x → b.diff ≤ slack g units align x
  first : ∀ b, best = some b → ∀ x ∈ xs, 0 ≤ slack g units align x → x.1 < b.cur →
    b.diff < slack g units align x

theorem Picks.append {b : BestFit} (h : Picks g units align xs b) : Picks g units align (xs ++ zs) b := by
  obtain ⟨⟨ys, n, ws, rfl, hprev, hdiff⟩, halign, hfits⟩ := h
  exact ⟨⟨ys, n, ws ++ zs, by simp, hprev, hdiff⟩, halign, hfits⟩

theorem scanned_nil : Scanned g units align [] none := ⟨nofun, nofun, nofun, nofun⟩

/-- One round of the best-fit scan. -/
theorem Scanned.round {best : Option BestFit} (h : Scanned g units align xs best)
    (hsorted : ∀ y ∈ xs, y.1 < x.1) : Scanned g units align (xs ++ [x])
      (if (x.2 : ℤ) ≥ units + (alignBlock g align x.1).2 ∧ best.all (fun b =>
          (x.2 : ℤ) - (units + (alignBlock g align x.1).2) < b.diff) = true then
        some ⟨lastOf xs, x.1, (alignBlock g align x.1).1, (alignBlock g align x.1).2,
          x.2 - (units + (alignBlock g align x.1).2)⟩
      else best) := by
  have hmem : ∀ y, y ∈ xs ++ [x] ↔ y ∈ xs ∨ y = x := by simp
  split_ifs with htake
  · obtain ⟨hfits, hless⟩ := htake
    have hbetter : ∀ y ∈ xs, 0 ≤ slack g units align y → slack g units align x < slack g units align y := by
      intro y hy hslack
      cases hb : best with
      | none =>
        have := h.none hb y hy
        omega
      | some b =>
        rw [hb, Option.all_some, decide_eq_true_iff] at hless
        exact lt_of_lt_of_le hless (h.least b hb y hy hslack)
    refine ⟨nofun, ?_, ?_, ?_⟩
    · rintro _ ⟨⟩
      exact ⟨⟨xs, x.2, [], rfl, rfl, rfl⟩, rfl, Int.sub_nonneg_of_le hfits⟩
    · rintro _ ⟨⟩ y hy hslack
      rcases (hmem y).mp hy with hy | rfl
      · exact (hbetter y hy hslack).le
      · exact le_rfl
    · rintro _ ⟨⟩ y hy hslack hlt
      rcases (hmem y).mp hy with hy | rfl
      · exact hbetter y hy hslack
      · exact absurd hlt (lt_irrefl _)
  · rw [not_and_or] at htake
    refine ⟨fun hb y hy => ?_, fun b hb => (h.picks b hb).append, fun b hb y hy hslack => ?_,
      fun b hb y hy hslack hlt => ?_⟩
    · rcases (hmem y).mp hy with hy | rfl
      · exact h.none hb y hy
      · rw [hb] at htake
        have hnot := htake.resolve_right (fun hall => hall rfl)
        rw [slack]
        omega
    · rcases (hmem y).mp hy with hy | rfl
      · exact h.least b hb y hy hslack
      · rw [hb, Option.all_some, decide_eq_true_iff] at htake
        rw [slack] at hslack ⊢
        omega
    · rcases (hmem y).mp hy with hy | rfl
      · exact h.first b hb y hy hslack hlt
      · obtain ⟨ys, n, zs, rfl, -, -⟩ := (h.picks b hb).split
        have := hsorted (b.cur, n) (by simp)
        omega

/-- The best-fit scan comes to the end of the list. -/
theorem bestFitScan_spec {fuel : ℕ} {best : Option BestFit} (hpage : OnPage g 0 sp (xs ++ ys))
    (hblocks : Blocks g cell p ys ((sp + 1) * g.pageUnits)) (hne : ys ≠ []) (hfuel : ys.length ≤ fuel)
    (hbest : Scanned g units align xs best) :
    ∃ best', bestFitScan g cell units align fuel (lastOf xs) p best = some best' ∧
      Scanned g units align (xs ++ ys) best' := by
  induction ys generalizing xs p best fuel with
  | nil => exact absurd rfl hne
  | cons x ys ih =>
    obtain ⟨rfl, r, hr, hys⟩ := hblocks
    obtain ⟨fuel, rfl⟩ : ∃ f, fuel = f + 1 := ⟨fuel - 1, by rw [List.length_cons] at hfuel; omega⟩
    have hsorted : ∀ y ∈ xs, y.1 < x.1 := by
      intro y hy
      have hpos := (hpage.of_mem (List.mem_append_left _ hy)).2.1
      exact hpage.outside.1 y.1 ⟨y, hy, le_rfl, by omega⟩
    have hround := hbest.round hsorted
    have hlast := hr.slobLast_iff
    rw [hpage.base_eq, ← Nat.succ_mul, Nat.succ_eq_add_one] at hlast
    rw [bestFitScan, hr.slobUnits_eq, hr.slobNext_eq]
    dsimp only
    cases ys with
    | nil =>
      rw [if_pos (hlast.mpr hys)]
      exact ⟨_, rfl, hround⟩
    | cons y ys =>
      have hy := hpage.split.2.2.2.1
      have hry : r = y.1 := hys.1
      have hprev : lastOf (xs ++ [x]) = some x.1 := lastOf_append
      rw [if_neg (hlast.not.mpr (by omega)), ← hprev]
      rw [List.append_cons xs x (y :: ys)] at hpage ⊢
      exact ih hpage hys (List.cons_ne_nil y ys) (Nat.le_of_succ_le_succ hfuel) hround

end Scan

end OperatingSystems.Slob
