import Mathlib.Data.Int.Notation
import Mathlib.Data.Set.Basic
import Mathlib.Tactic.IntervalCases
import Mathlib.Tactic.NormNum
import OperatingSystems.Library.Chain

namespace OperatingSystems.Slob

open Library

/-- A kernel configuration: `PAGE_SIZE` is `2 ^ pageShift`, and there are `frames` pages. -/
structure Config where
  pageShift : ℕ
  frames : ℕ
  shift_ge : 12 ≤ pageShift
  shift_le : pageShift ≤ 32

namespace Config

variable (g : Config)

def pageSize : ℕ := 2 ^ g.pageShift

/-- The width of `slobidx_t`. -/
def idxBits : ℕ := if g.pageSize ≤ 32767 * 2 then 16 else 32

/-- `SLOB_UNIT`, in bytes; from here on addresses count units. -/
def slobUnit : ℕ := g.idxBits / 8

/-- `SLOB_UNITS(size)` -/
def unitsOf (size : ℕ) : ℕ := (size + g.slobUnit - 1) / g.slobUnit

/-- `SLOB_UNITS(PAGE_SIZE)` -/
def pageUnits : ℕ := g.unitsOf g.pageSize

/-- `virt_to_page` -/
def pageOf (a : ℕ) : ℕ := a / g.pageUnits

/-- The address with `PAGE_MASK` applied. -/
def base (a : ℕ) : ℕ := g.pageOf a * g.pageUnits

/-- Conversion to `slobidx_t`. -/
def toIdx (x : ℤ) : ℤ := x.bmod (2 ^ g.idxBits)

end Config

/-- The memory, one `slob_t` a unit; `log` lists the units that were written through `set_slob`. -/
structure Units where
  cell : ℕ → ℤ
  log : List ℕ

def Units.write (m : Units) (a : ℕ) (v : ℤ) : Units := ⟨Function.update m.cell a v, m.log ++ [a]⟩

section Functions

variable (g : Config)

/-- `set_slob` -/
def Units.setSlob (m : Units) (s : ℕ) (size : ℤ) (next : ℕ) : Units :=
  let offset := g.toIdx (next - g.base s)
  if g.toIdx size > 1 then (m.write s (g.toIdx size)).write (s + 1) offset
  else m.write s (g.toIdx (-offset))

/-- `slob_units` -/
def slobUnits (cell : ℕ → ℤ) (s : ℕ) : ℤ := if cell s > 0 then cell s else 1

/-- `slob_next` -/
def slobNext (cell : ℕ → ℤ) (s : ℕ) : ℕ :=
  (g.base s + if cell s < 0 then g.toIdx (-cell s) else cell (s + 1)).toNat

/-- `slob_last` -/
def slobLast (cell : ℕ → ℤ) (s : ℕ) : Bool := slobNext g cell s % g.pageUnits = 0

end Functions

namespace Config

variable (g : Config)

theorem sizes : (g.slobUnit = 2 ∨ g.slobUnit = 4) ∧ g.pageUnits * g.slobUnit = g.pageSize ∧
    g.pageUnits < 2 ^ (g.idxBits - 1) ∧ 0 < g.idxBits := by
  obtain ⟨shift, frames, hge, hle⟩ := g
  simp only [pageUnits, unitsOf, slobUnit, idxBits, pageSize]
  interval_cases shift <;> simp

theorem slobUnit_pow : ∃ j, g.slobUnit = 2 ^ j :=
  g.sizes.1.elim (fun h => ⟨1, h⟩) fun h => ⟨2, h⟩

theorem slobUnit_pos : 0 < g.slobUnit := by
  obtain ⟨j, hj⟩ := g.slobUnit_pow
  rw [hj]
  exact Nat.two_pow_pos j

theorem pageUnits_pos : 0 < g.pageUnits := by
  obtain ⟨hunit, hpage, -⟩ := g.sizes
  have hpos : 0 < g.pageSize := Nat.two_pow_pos _
  rcases Nat.eq_zero_or_pos g.pageUnits with h | h
  · rw [h, Nat.zero_mul] at hpage
    omega
  · exact h

theorem unitsOf_pos {size : ℕ} (hsize : 0 < size) : 0 < g.unitsOf size := by
  obtain ⟨hunit, -⟩ := g.sizes
  exact Nat.div_pos (by omega) (by omega)

variable {g} {a p : ℕ}

theorem pageOf_eq (hle : p * g.pageUnits ≤ a) (hlt : a < (p + 1) * g.pageUnits) : g.pageOf a = p := by
  exact Nat.div_eq_of_lt_le hle hlt

theorem pageOf_eq_iff : g.pageOf a = p ↔ p * g.pageUnits ≤ a ∧ a < (p + 1) * g.pageUnits := by
  refine ⟨?_, fun h => pageOf_eq h.1 h.2⟩
  intro heq
  subst heq
  refine ⟨Nat.div_mul_le_self a g.pageUnits, ?_⟩
  rw [Nat.succ_mul]
  exact Nat.lt_div_mul_add g.pageUnits_pos

theorem base_eq (hle : p * g.pageUnits ≤ a) (hlt : a < (p + 1) * g.pageUnits) :
    g.base a = p * g.pageUnits := by
  rw [base, pageOf_eq hle hlt]

theorem base_le : g.base a ≤ a := Nat.div_mul_le_self a g.pageUnits

/-- Offsets within a page, and their negations, fit in `slobidx_t`. -/
theorem toIdx_eq {x : ℤ} (hlo : -g.pageUnits ≤ x) (hhi : x ≤ g.pageUnits) : g.toIdx x = x := by
  obtain ⟨-, -, hlt, hpos⟩ := g.sizes
  have htwo : 2 ^ g.idxBits = 2 * 2 ^ (g.idxBits - 1) := by
    rw [← Nat.pow_succ', Nat.succ_eq_add_one, Nat.sub_add_cancel hpos]
  rw [toIdx, htwo]
  apply Int.bmod_eq_of_le <;> omega

end Config

/-- `m'` is `m` after writes to units of `S`. -/
structure WritesIn (S : Set ℕ) (m m' : Units) : Prop where
  cell : ∀ a, a ∉ S → m'.cell a = m.cell a
  log : ∃ ws, m'.log = m.log ++ ws ∧ ∀ a ∈ ws, a ∈ S

namespace WritesIn

variable {S T : Set ℕ} {m m' m'' : Units}

theorem refl (m : Units) : WritesIn S m m := ⟨fun _ _ => rfl, [], (List.append_nil _).symm, nofun⟩

theorem trans (h : WritesIn S m m') (h' : WritesIn S m' m'') : WritesIn S m m'' := by
  obtain ⟨ws, hws, hin⟩ := h.log
  obtain ⟨ws', hws', hin'⟩ := h'.log
  refine ⟨fun a ha => (h'.cell a ha).trans (h.cell a ha), ws ++ ws', ?_, fun a ha => ?_⟩
  · rw [hws', hws, List.append_assoc]
  · exact (List.mem_append.mp ha).elim (hin a) (hin' a)

theorem mono (h : WritesIn S m m') (hST : S ⊆ T) : WritesIn T m m' := by
  obtain ⟨ws, hws, hin⟩ := h.log
  exact ⟨fun a ha => h.cell a fun hS => ha (hST hS), ws, hws, fun a ha => hST (hin a ha)⟩

theorem write {a : ℕ} {v : ℤ} (ha : a ∈ S) : WritesIn S m (m.write a v) := by
  refine ⟨fun b hb => Function.update_of_ne ?_ _ _, [a], rfl, fun b hb => ?_⟩
  · intro heq
    subst heq
    exact hb ha
  · exact List.mem_singleton.mp hb ▸ ha

end WritesIn

section Headers

variable (g : Config)

/-- The header of the free block `x` says how long it is, and that the next one is at `q`. -/
structure Encodes (cell : ℕ → ℤ) (x : ℕ × ℕ) (q : ℕ) : Prop where
  pos : 0 < x.2
  before : x.1 + x.2 ≤ q
  inPage : q ≤ g.base x.1 + g.pageUnits
  header : if x.2 = 1 then cell x.1 = -(q - g.base x.1 : ℤ)
    else cell x.1 = x.2 ∧ cell (x.1 + 1) = q - g.base x.1

variable {g} {cell cell' : ℕ → ℤ} {m : Units} {x : ℕ × ℕ} {a n q : ℕ}

namespace Encodes

theorem congr (h : Encodes g cell x q) (hsame : ∀ u, x.1 ≤ u → u < x.1 + x.2 → cell' u = cell u) :
    Encodes g cell' x q := by
  refine ⟨h.pos, h.before, h.inPage, ?_⟩
  have hpos := h.pos
  have hheader := h.header
  split_ifs at hheader ⊢ with hone
  · rw [hsame x.1 le_rfl (by omega)]
    exact hheader
  · rw [hsame x.1 le_rfl (by omega), hsame (x.1 + 1) (by omega) (by omega)]
    exact hheader

theorem slobUnits_eq (h : Encodes g cell x q) : slobUnits cell x.1 = x.2 := by
  have hpos := h.pos
  have hheader := h.header
  have hbefore := h.before
  have hbase := Config.base_le (g := g) (a := x.1)
  rw [slobUnits]
  split_ifs at hheader with hone
  · rw [if_neg (by omega), hone]
    rfl
  · rw [if_pos (by omega)]
    exact hheader.1

theorem slobNext_eq (h : Encodes g cell x q) : slobNext g cell x.1 = q := by
  have hpos := h.pos
  have hheader := h.header
  have hbefore := h.before
  have hin := h.inPage
  have hbase := Config.base_le (g := g) (a := x.1)
  rw [slobNext]
  split_ifs at hheader with hone
  · rw [if_pos (by omega), hheader, neg_neg, Config.toIdx_eq (by omega) (by omega)]
    omega
  · rw [if_neg (by omega), hheader.2]
    omega

theorem slobLast_iff (h : Encodes g cell x q) :
    slobLast g cell x.1 = true ↔ q = g.base x.1 + g.pageUnits := by
  have hpos := h.pos
  have hbefore := h.before
  have hbase := Config.base_le (g := g) (a := x.1)
  rw [slobLast, h.slobNext_eq, decide_eq_true_iff]
  constructor
  · intro hmod
    rcases Nat.lt_or_eq_of_le h.inPage with hlt | heq
    · have hq : g.pageOf q = g.pageOf x.1 := by
        apply Config.pageOf_eq
        · show g.base x.1 ≤ q
          omega
        · rw [Nat.add_mul, Nat.one_mul]
          exact hlt
      have hdiv := Nat.div_add_mod q g.pageUnits
      rw [hmod, Nat.add_zero, Nat.mul_comm] at hdiv
      have hbaseq : g.base q = q := hdiv
      rw [Config.base, hq] at hbaseq
      have hbasex : g.base x.1 = g.pageOf x.1 * g.pageUnits := rfl
      omega
    · exact heq
  · intro heq
    subst heq
    rw [Nat.add_mod_right]
    exact Nat.mul_mod_left _ _

end Encodes

/-- For a block within its page none of the conversions to `slobidx_t` changes a value. -/
theorem setSlob_eq (hpos : 0 < n) (hbefore : a + n ≤ q) (hin : q ≤ g.base a + g.pageUnits) :
    m.setSlob g a n q =
      if n = 1 then m.write a (-(q - g.base a : ℤ))
      else (m.write a n).write (a + 1) (q - g.base a : ℤ) := by
  have hbase := Config.base_le (g := g) (a := a)
  have hoffset : g.toIdx (q - g.base a) = q - g.base a :=
    Config.toIdx_eq (by omega) (by omega)
  have hneg : g.toIdx (-(q - g.base a)) = -(q - g.base a : ℤ) :=
    Config.toIdx_eq (by omega) (by omega)
  have hsize : g.toIdx n = n := Config.toIdx_eq (by omega) (by omega)
  rw [Units.setSlob, hsize, hoffset, hneg]
  by_cases hone : n = 1
  · rw [if_neg (by omega), if_pos hone]
  · rw [if_pos (by omega), if_neg hone]

/-- `set_slob` writes a header inside the block, and it is the header asked for. -/
theorem setSlob_spec (hpos : 0 < n) (hbefore : a + n ≤ q) (hin : q ≤ g.base a + g.pageUnits) :
    Encodes g (m.setSlob g a n q).cell (a, n) q ∧
      WritesIn {u | a ≤ u ∧ u < a + n} m (m.setSlob g a n q) := by
  rw [setSlob_eq hpos hbefore hin]
  by_cases hone : n = 1
  · rw [if_pos hone]
    refine ⟨⟨hpos, hbefore, hin, ?_⟩, .write ⟨le_rfl, by omega⟩⟩
    rw [if_pos hone]
    exact Function.update_self ..
  · rw [if_neg hone]
    refine ⟨⟨hpos, hbefore, hin, ?_⟩, WritesIn.trans (.write ⟨le_rfl, by omega⟩) (.write ⟨?_, ?_⟩)⟩
    · rw [if_neg hone]
      refine ⟨(Function.update_of_ne (Nat.ne_of_lt (Nat.lt_succ_self a)) _ _).trans ?_, ?_⟩
      · exact Function.update_self ..
      · exact Function.update_self ..
    · omega
    · omega

end Headers

end OperatingSystems.Slob
