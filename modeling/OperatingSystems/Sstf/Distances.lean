import OperatingSystems.Sstf.SeekOrder

namespace OperatingSystems.Sstf

open Library

variable {ρ : Type*} {blkRqPos : ρ → UInt64} {s : State ρ} {q : List ρ} {rq : ρ}

/-- The place of a new request when distances are unbounded integers. -/
def insertExactly (blkRqPos : ρ → UInt64) (rq : ρ) : UInt64 → List ρ → List ρ
  | _, [] => [rq]
  | ref, x :: xs =>
    if seekDistance (blkRqPos x) ref ≥ seekDistance (blkRqPos rq) ref then rq :: x :: xs
    else x :: insertExactly blkRqPos rq (blkRqPos x) xs

/-- As far as the walk with unbounded distances comes, the distances modulo `2 ^ 32` compare as the
distances do. -/
def ComparesExactly (blkRqPos : ρ → UInt64) (rq : ρ) : UInt64 → List ρ → Prop
  | _, [] => True
  | ref, x :: xs =>
    (seekDistance (blkRqPos x) ref % 2 ^ 32 ≥ seekDistance (blkRqPos rq) ref % 2 ^ 32 ↔
      seekDistance (blkRqPos x) ref ≥ seekDistance (blkRqPos rq) ref) ∧
    (seekDistance (blkRqPos x) ref < seekDistance (blkRqPos rq) ref →
      ComparesExactly blkRqPos rq (blkRqPos x) xs)

instance ComparesExactly.decidable (blkRqPos : ρ → UInt64) (rq : ρ) :
    ∀ ref q, Decidable (ComparesExactly blkRqPos rq ref q)
  | _, [] => isTrue trivial
  | _, x :: xs =>
    have := ComparesExactly.decidable blkRqPos rq (blkRqPos x) xs
    inferInstanceAs (Decidable ((_ ↔ _) ∧ (_ → ComparesExactly blkRqPos rq (blkRqPos x) xs)))

/-- The `unsigned int` keeps the distance modulo `2 ^ 32`. -/
theorem sectorDiff_toNat (a b : UInt64) : (sectorDiff a b).toNat = seekDistance a b % 2 ^ 32 := by
  rw [sectorDiff, seekDistance]
  split_ifs with hle
  · have hle' : b.toNat ≤ a.toNat := UInt64.le_iff_toNat_le.mp hle
    rw [UInt64.toNat_toUInt32, UInt64.toNat_sub_of_le _ _ hle, Nat.dist_eq_sub_of_le_right hle']
  · have hlt : a < b := UInt64.not_le.mp hle
    have hlt' : a.toNat ≤ b.toNat := (UInt64.lt_iff_toNat_lt.mp hlt).le
    rw [UInt64.toNat_toUInt32, UInt64.toNat_sub_of_le _ _ (UInt64.le_of_lt hlt),
      Nat.dist_eq_sub_of_le hlt']

/-- The comparison that the loop makes. -/
theorem sectorDiff_ge_iff (a b ref : UInt64) :
    sectorDiff a ref ≥ sectorDiff b ref ↔ seekDistance a ref % 2 ^ 32 ≥ seekDistance b ref % 2 ^ 32 := by
  rw [← sectorDiff_toNat, ← sectorDiff_toNat]
  exact UInt32.le_iff_toNat_le

/-- On a disk of at most `2 ^ 32` sectors all comparisons are exact. -/
theorem comparesExactly_of_lt {ref : UInt64} (href : ref.toNat < 2 ^ 32)
    (hrq : (blkRqPos rq).toNat < 2 ^ 32) (hq : ∀ x ∈ q, (blkRqPos x).toNat < 2 ^ 32) :
    ComparesExactly blkRqPos rq ref q := by
  have hsmall : ∀ a b : UInt64, a.toNat < 2 ^ 32 → b.toNat < 2 ^ 32 →
      seekDistance a b % 2 ^ 32 = seekDistance a b := by
    intro a b ha hb
    apply Nat.mod_eq_of_lt
    rw [seekDistance, Nat.dist]
    omega
  induction q generalizing ref with
  | nil => trivial
  | cons x xs ih =>
    have hx := hq x List.mem_cons_self
    refine ⟨?_, fun _ => ih hx fun y hy => hq y (List.mem_cons_of_mem x hy)⟩
    rw [hsmall _ _ hx href, hsmall _ _ hrq href]

/-- The request is put at its exact place exactly when all comparisons on the way there are exact. -/
theorem insertRequest_eq_iff {ref : UInt64} (hnew : rq ∉ q) :
    insertRequest blkRqPos rq ref q = insertExactly blkRqPos rq ref q ↔
      ComparesExactly blkRqPos rq ref q := by
  induction q generalizing ref with
  | nil => exact iff_of_true rfl trivial
  | cons x xs ih =>
    rw [List.mem_cons, not_or] at hnew
    simp only [insertRequest, insertExactly, ComparesExactly, sectorDiff_ge_iff]
    by_cases hexact : seekDistance (blkRqPos x) ref ≥ seekDistance (blkRqPos rq) ref
    · rw [if_pos hexact]
      split_ifs with hmod
      · exact iff_of_true rfl ⟨iff_of_true hmod hexact, fun hlt => absurd hexact (not_le.mpr hlt)⟩
      · refine iff_of_false (fun heq => hnew.1 ?_) fun hand => hmod (hand.1.mpr hexact)
        exact (List.cons.inj heq).1.symm
    · rw [if_neg hexact]
      split_ifs with hmod
      · refine iff_of_false (fun heq => hnew.1 ?_) fun hand => hexact (hand.1.mp hmod)
        exact (List.cons.inj heq).1
      · rw [List.cons_inj_right, ih hnew.2]
        constructor
        · intro hrest
          exact ⟨iff_of_false hmod hexact, fun _ => hrest⟩
        · intro hand
          exact hand.2 (not_le.mp hexact)

variable [DecidableEq ρ] [Fintype ρ]

/-- `sstf_add_request` puts a request where unbounded distances would put it exactly when, on the way
there, no comparison comes out differently modulo `2 ^ 32`. -/
theorem add_exact_iff (blkRqPos : ρ → UInt64) (h : Queued s q) (hnew : rq ∉ q) :
    ∃ s', sstfAddRequest blkRqPos s rq = some s' ∧
      (pending s' = insertExactly blkRqPos rq s.endSector q ↔
        ComparesExactly blkRqPos rq s.endSector q) := by
  obtain ⟨s', hs, -, hq, -⟩ := h.add blkRqPos hnew
  refine ⟨s', hs, ?_⟩
  rw [hq.pending_eq]
  exact insertRequest_eq_iff hnew

/-- The second request goes in front of the first, which is farther away. -/
theorem add_exact_below : ∃ s s', (machine (ρ := Fin 2) ![125, 110]).run (initial 100) [.add 0] = some s ∧
    sstfAddRequest ![125, 110] s 1 = some s' ∧
    pending s' = insertExactly ![125, 110] (1 : Fin 2) 100 [0] := by
  obtain ⟨s, hr, hend, hring⟩ : ∃ s,
      (machine (ρ := Fin 2) ![125, 110]).run (initial 100) [.add 0] = some s ∧ s.endSector = 100 ∧
        Queued s [0] := ⟨_, rfl, rfl, ⟨⟨rfl, rfl⟩, rfl, rfl⟩, by decide⟩
  obtain ⟨s', hs, hiff⟩ := add_exact_iff ![125, 110] hring (show (1 : Fin 2) ∉ [0] by decide)
  rw [hend] at hiff
  exact ⟨s, s', hr, hs, hiff.mpr (comparesExactly_of_lt (by decide) (by decide) (by decide))⟩

/-- A request `2 ^ 32` sectors away from the head counts as next to it: one at distance 1 is put
behind it. -/
theorem far_request_counts_as_near : ∃ s s',
    (machine (ρ := Fin 2) ![4294967296, 1]).run (initial 0) [.add 0] = some s ∧ Queued s [0] ∧
      sstfAddRequest ![4294967296, 1] s 1 = some s' ∧ pending s' = [0, 1] ∧
      insertExactly ![4294967296, 1] (1 : Fin 2) s.endSector [0] = [1, 0] :=
  ⟨_, _, rfl, ⟨⟨⟨rfl, rfl⟩, rfl, rfl⟩, by decide⟩, rfl, rfl, by decide⟩

end OperatingSystems.Sstf
