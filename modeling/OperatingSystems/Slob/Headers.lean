import OperatingSystems.Slob.Block

namespace OperatingSystems.Slob

/-- The values of `slobidx_t`. -/
def Config.InIdx (g : Config) (v : ℤ) : Prop := -2 ^ (g.idxBits - 1) ≤ v ∧ v < 2 ^ (g.idxBits - 1)

/-- The units of a free block that hold its header. -/
def headerUnits (s n : ℕ) : List ℕ := List.range' s (min n 2)

/-- What the header of `n` units before a gap that ends at offset `x` says, unit by unit, in unbounded
integers. -/
def headerValues (n x : ℕ) : List ℤ := if n = 1 then [-(x : ℤ)] else [(n : ℤ), (x : ℤ)]

/-- `m'` is `m` with the header written for the block of `n` units at offset `o` of page `p`, whose next
one is at offset `x`, and the header reads back. -/
structure HeaderSet (g : Config) (m m' : Units) (p o n x : ℕ) : Prop where
  units : slobUnits m'.cell (p * g.pageUnits + o) = n
  next : slobNext g m'.cell (p * g.pageUnits + o) = p * g.pageUnits + x
  last : slobLast g m'.cell (p * g.pageUnits + o) = true ↔ x = g.pageUnits
  written : m'.log = m.log ++ headerUnits (p * g.pageUnits + o) n
  inside : ∀ u ∈ headerUnits (p * g.pageUnits + o) n,
    p * g.pageUnits + o ≤ u ∧ u < p * g.pageUnits + o + n
  kept : ∀ u, u ∉ headerUnits (p * g.pageUnits + o) n → m'.cell u = m.cell u
  stored : (headerUnits (p * g.pageUnits + o) n).map m'.cell = headerValues n x
  inIdx : ∀ v ∈ headerValues n x, g.InIdx v

variable {g : Config} {m : Units} {a n q : ℕ}

theorem headerUnits_one (s : ℕ) : headerUnits s 1 = [s] := rfl

theorem headerUnits_of_two_le (s : ℕ) (htwo : 2 ≤ n) : headerUnits s n = [s, s + 1] := by
  rw [headerUnits, Nat.min_eq_right htwo]
  rfl

/-- A header lies in its block. -/
theorem headerUnits_inside {s u : ℕ} (hu : u ∈ headerUnits s n) : s ≤ u ∧ u < s + n := by
  rw [headerUnits, List.mem_range'_1] at hu
  omega

/-- Offsets up to the end of the page, with either sign, are values of `slobidx_t`. -/
theorem Config.inIdx_of_le {v : ℤ} (hlo : -g.pageUnits ≤ v) (hhi : v ≤ g.pageUnits) : g.InIdx v := by
  obtain ⟨-, -, hlt, -⟩ := g.sizes
  have hcast : (g.pageUnits : ℤ) < 2 ^ (g.idxBits - 1) := by exact_mod_cast hlt
  exact ⟨by omega, by omega⟩

theorem headerValues_inIdx {x : ℕ} (hn : n ≤ x) (hx : x ≤ g.pageUnits) :
    ∀ v ∈ headerValues n x, g.InIdx v := by
  intro v hv
  rw [headerValues] at hv
  split_ifs at hv
  · rw [List.mem_singleton] at hv
    exact Config.inIdx_of_le (by omega) (by omega)
  · rw [List.mem_pair] at hv
    exact Config.inIdx_of_le (by omega) (by omega)

theorem setSlob_log (hpos : 0 < n) (hbefore : a + n ≤ q) (hin : q ≤ g.base a + g.pageUnits) :
    (m.setSlob g a n q).log = m.log ++ headerUnits a n := by
  rw [setSlob_eq hpos hbefore hin]
  by_cases hone : n = 1
  · rw [if_pos hone, hone, headerUnits_one]
    rfl
  · rw [if_neg hone, headerUnits_of_two_le a (by omega)]
    exact List.append_assoc m.log [a] [a + 1]

theorem setSlob_kept (hpos : 0 < n) (hbefore : a + n ≤ q) (hin : q ≤ g.base a + g.pageUnits) {u : ℕ}
    (hu : u ∉ headerUnits a n) : (m.setSlob g a n q).cell u = m.cell u := by
  rw [setSlob_eq hpos hbefore hin]
  by_cases hone : n = 1
  · rw [hone, headerUnits_one, List.mem_singleton] at hu
    rw [if_pos hone]
    exact Function.update_of_ne hu ..
  · rw [headerUnits_of_two_le a (by omega), List.mem_pair, not_or] at hu
    rw [if_neg hone]
    exact (Function.update_of_ne hu.2 ..).trans (Function.update_of_ne hu.1 ..)

/-- The units hold the values themselves, not only what is left of them in `slobidx_t`. -/
theorem setSlob_stored (hpos : 0 < n) (hbefore : a + n ≤ q) (hin : q ≤ g.base a + g.pageUnits) :
    (headerUnits a n).map (m.setSlob g a n q).cell = headerValues n (q - g.base a) := by
  obtain ⟨hencodes, -⟩ := setSlob_spec (m := m) hpos hbefore hin
  have hbase := Config.base_le (g := g) (a := a)
  have hoffset : ((q - g.base a : ℕ) : ℤ) = q - g.base a := by omega
  have hheader := hencodes.header
  rw [headerValues, hoffset]
  by_cases hone : n = 1
  · rw [if_pos hone] at hheader ⊢
    rw [hone, headerUnits_one]
    rw [hone] at hheader
    exact congrArg (fun v => [v]) hheader
  · rw [if_neg hone] at hheader ⊢
    rw [headerUnits_of_two_le a (by omega), List.map_cons, List.map_singleton, hheader.1, hheader.2]

/-- What `set_slob` stores about a block anywhere in a page, whatever the page size, the readers of the
header get back. -/
theorem setSlob_reads_back (g : Config) (m : Units) (p o n x : ℕ) (hpos : 1 ≤ n)
    (hblock : o + n ≤ g.pageUnits) (hnext : o + n ≤ x) (hx : x ≤ g.pageUnits) :
    HeaderSet g m (m.setSlob g (p * g.pageUnits + o) n (p * g.pageUnits + x)) p o n x := by
  have hbase : g.base (p * g.pageUnits + o) = p * g.pageUnits := by
    apply Config.base_eq (Nat.le_add_right _ _)
    rw [Nat.add_mul, Nat.one_mul]
    omega
  have hbefore : p * g.pageUnits + o + n ≤ p * g.pageUnits + x := by omega
  have hin : p * g.pageUnits + x ≤ g.base (p * g.pageUnits + o) + g.pageUnits := by omega
  have hstored := setSlob_stored (m := m) hpos hbefore hin
  rw [hbase, Nat.add_sub_cancel_left] at hstored
  obtain ⟨hencodes, -⟩ := setSlob_spec (m := m) hpos hbefore hin
  exact
    { units := hencodes.slobUnits_eq
      next := hencodes.slobNext_eq
      last := by
        rw [hencodes.slobLast_iff, hbase]
        exact Nat.add_left_cancel_iff
      written := setSlob_log hpos hbefore hin
      inside := fun u hu => headerUnits_inside hu
      kept := fun u hu => setSlob_kept hpos hbefore hin hu
      stored := hstored
      inIdx := headerValues_inIdx (by omega) hx }

/-- The last unit of page 3, free by itself: its header is the negated offset of the page's end. -/
theorem setSlob_reads_back_last_unit : ∃ (g : Config) (m : Units), g.pageSize = 4096 ∧
    HeaderSet g m (m.setSlob g (3 * g.pageUnits + 2047) (1 : ℕ) (3 * g.pageUnits + 2048)) 3 2047 1 2048 ∧
    (m.setSlob g (3 * 2048 + 2047) 1 (4 * 2048)).cell (3 * 2048 + 2047) = -2048 :=
  ⟨⟨12, 8, by decide, by decide⟩, ⟨fun _ => 0, []⟩, rfl,
    setSlob_reads_back _ _ 3 2047 1 2048 (by decide) (by decide) (by decide) (by decide), by decide⟩

end OperatingSystems.Slob
