import Mathlib.Algebra.Order.Ring.Int
import Mathlib.Tactic.Ring
import OperatingSystems.Brdd.ReadBack

namespace OperatingSystems.Brdd

open Library

/-- The widths of `unsigned long` and of `sector_t`, the last being no smaller. -/
structure Widths where
  long : ℕ
  sector : ℕ
  int_le_long : 32 ≤ long
  long_le_sector : long ≤ sector

/-- `Device.size = nsectors * logical_block_size`: a product of two `int`, then an
`unsigned long`. -/
def deviceSize (w : ℕ) (nsectors logicalBlockSize : Int32) : ℕ :=
  ((nsectors * logicalBlockSize).toInt % 2 ^ w).toNat

/-- `set_capacity(Device.gd, nsectors)`: an `int`, then a `sector_t`. -/
def capacity (w : ℕ) (nsectors : Int32) : ℕ := (nsectors.toInt % 2 ^ w).toNat

/-- What the block layer may ask for: whole logical blocks below the capacity, both counted in
sectors of 512 bytes. -/
structure MayAsk (logicalBlockSize cap sector nsect : ℕ) : Prop where
  sector_dvd : logicalBlockSize / 512 ∣ sector
  nsect_dvd : logicalBlockSize / 512 ∣ nsect
  below : sector + nsect ≤ cap

/-- Every index that `brdd_transfer` uses lies in its array. -/
def InBounds {w : ℕ} (tfm : Cipher) (logicalBlockSize : ℕ) (data : Bytes w) (sector nsect : ℕ)
    (buffer : Bytes w) (write : Bool) : Prop :=
  (brddTransfer tfm logicalBlockSize data sector nsect buffer write).isSome = true

/-- Every transfer that the block layer may ask for stays in bounds. -/
def AllInBounds {w : ℕ} (tfm : Cipher) (logicalBlockSize cap : ℕ) (data : Bytes w) : Prop :=
  ∀ (write : Bool) (sector nsect : ℕ) (buffer : Bytes w), MayAsk logicalBlockSize cap sector nsect →
    buffer.size = nsect * 512 → InBounds tfm logicalBlockSize data sector nsect buffer write

variable {w : ℕ} {tfm : Cipher} {logicalBlockSize sector nsect : ℕ} {data buffer : Bytes w}
  {write : Bool}

/-- Blocks laid out one after the other fit exactly when the last one does. -/
theorem blocks_fit_iff (start n blocksize size : ℕ) :
    (∀ k, k < n → start + k * blocksize + blocksize ≤ size) ↔
      n = 0 ∨ start + n * blocksize ≤ size := by
  constructor
  · intro h
    rcases Nat.eq_zero_or_pos n with rfl | hn
    · exact .inl rfl
    · have hlast := h (n - 1) (by omega)
      have hend : (n - 1 + 1) * blocksize = n * blocksize := by rw [Nat.sub_add_cancel hn]
      rw [Nat.add_mul, Nat.one_mul] at hend
      exact .inr (by omega)
  · rintro (rfl | h) k hk
    · exact absurd hk (Nat.not_lt_zero k)
    · have hle : (k + 1) * blocksize ≤ n * blocksize := Nat.mul_le_mul_right _ hk
      rw [Nat.add_mul, Nat.one_mul] at hle
      omega

/-- A transfer moves nothing, or its bytes lie in the data and, for a write, in the buffer; a read
uses the first block of the buffer only. -/
theorem inBounds_iff (hpos : 0 < tfm.blocksize) {n : ℕ}
    (hn : nsect * logicalBlockSize % 2 ^ w = n * tfm.blocksize) :
    InBounds tfm logicalBlockSize data sector nsect buffer write ↔
      nsect * logicalBlockSize % 2 ^ w = 0 ∨
      (sector * logicalBlockSize % 2 ^ w + nsect * logicalBlockSize % 2 ^ w ≤ data.size ∧
        (if write then nsect * logicalBlockSize % 2 ^ w else tfm.blocksize) ≤ buffer.size) := by
  have hlt : n * tfm.blocksize < 2 ^ w := hn ▸ Nat.mod_lt _ (Nat.two_pow_pos w)
  have hfuel : n < n * tfm.blocksize + 1 + 0 := by
    have hle : n * 1 ≤ n * tfm.blocksize := Nat.mul_le_mul_left n hpos
    omega
  have hzero : n * tfm.blocksize = 0 ↔ n = 0 := by simp [hpos.ne']
  unfold InBounds brddTransfer
  dsimp only
  rw [hn, hzero]
  generalize sector * logicalBlockSize % 2 ^ w = offset
  have hdata := blocks_fit_iff offset n tfm.blocksize data.size
  cases write with
  | true =>
    have hbuffer := blocks_fit_iff 0 n tfm.blocksize buffer.size
    rw [if_pos rfl, if_pos rfl, Option.isSome_map]
    have hloop := forLoop_isSome_iff (w := w) (P := fun target : Bytes w => target.size = data.size)
      (Q := fun m => offset + m * tfm.blocksize + tfm.blocksize ≤ data.size ∧
        m * tfm.blocksize + tfm.blocksize ≤ buffer.size)
      (fun i target => cipherOne tfm.encryptOne target (offset + i) buffer i) hpos hlt
      (fun m target _ hsize hok => ⟨_, if_pos (by rwa [hsize]), hsize⟩)
      (fun m target _ hsize hnot => if_neg (by rwa [hsize]))
      (n * tfm.blocksize + 1) (Nat.zero_le n) hfuel rfl
    rw [Nat.zero_mul] at hloop
    simp only [Nat.zero_add] at hbuffer
    rw [hloop, or_and_left, ← hdata, ← hbuffer]
    exact ⟨fun h => ⟨fun k hk => (h k k.zero_le hk).1, fun k hk => (h k k.zero_le hk).2⟩,
      fun h k _ hk => ⟨h.1 k hk, h.2 k hk⟩⟩
  | false =>
    rw [if_neg Bool.false_ne_true, if_neg Bool.false_ne_true, Option.isSome_map]
    have hloop := forLoop_isSome_iff (w := w)
      (P := fun target : Bytes w => target.size = buffer.size)
      (Q := fun m => 0 + tfm.blocksize ≤ buffer.size ∧
        offset + m * tfm.blocksize + tfm.blocksize ≤ data.size)
      (fun i target => cipherOne tfm.decryptOne target 0 data (offset + i)) hpos hlt
      (fun m target _ hsize hok => ⟨_, if_pos (by rwa [hsize]), hsize⟩)
      (fun m target _ hsize hnot => if_neg (by rwa [hsize]))
      (n * tfm.blocksize + 1) (Nat.zero_le n) hfuel rfl
    rw [Nat.zero_mul] at hloop
    simp only [Nat.zero_add] at hloop
    rw [hloop, or_and_left, ← hdata]
    constructor
    · intro h
      refine ⟨fun k hk => (h k k.zero_le hk).2, ?_⟩
      rcases Nat.eq_zero_or_pos n with hn0 | hn0
      · exact .inl hn0
      · exact .inr (h 0 le_rfl hn0).1
    · rintro ⟨hall, hfirst⟩ k - hk
      exact ⟨hfirst.resolve_left (by omega), hall k hk⟩

section Configuration

variable {r cap : ℕ}

theorem whole_blocks (hdvd : tfm.blocksize ∣ 512) (hw : 9 ≤ w) (nsect : ℕ) :
    ∃ n, nsect * (r * 512) % 2 ^ w = n * tfm.blocksize := by
  have hlong : 512 ∣ 2 ^ w := Nat.pow_dvd_pow 2 hw
  have hmod : tfm.blocksize ∣ nsect * (r * 512) % 2 ^ w := by
    apply hdvd.trans
    exact (Nat.dvd_mod_iff hlong).mpr ⟨nsect * r, by ring⟩
  obtain ⟨n, hn⟩ := hmod
  exact ⟨n, hn.trans (mul_comm _ _)⟩

/-- If all transfers stay in bounds and one of them moves a logical block, a logical block is one
kernel sector: otherwise a write of the first one reads past its buffer. -/
theorem block_eq_sector (hdvd : tfm.blocksize ∣ 512) (hr : 0 < r) (hrw : r * 512 < 2 ^ w) (hw : 9 < w)
    (h : AllInBounds tfm (r * 512) cap data) (hfit : r ≤ cap) (hmoves : r * (r * 512) < 2 ^ w) :
    r = 1 := by
  have hpos : 0 < tfm.blocksize := Nat.pos_of_dvd_of_pos hdvd (by decide)
  have hratio : r * 512 / 512 = r := Nat.mul_div_cancel r (by decide)
  obtain ⟨n, hn⟩ := whole_blocks hdvd hw.le r
  have hask : MayAsk (r * 512) cap 0 r := ⟨dvd_zero _, hratio.symm ▸ dvd_rfl, by omega⟩
  have hfirst := (inBounds_iff hpos hn).mp (h true 0 r ⟨r * 512, fun _ => 0, hrw⟩ hask rfl)
  rw [Nat.mod_eq_of_lt hmoves] at hfirst
  have hsmall : r * (r * 512) ≤ 1 * (r * 512) := by
    rcases hfirst with hzero | ⟨-, hbuffer⟩
    · exact hzero.le.trans (Nat.zero_le _)
    · simpa using hbuffer
  exact le_antisymm (Nat.le_of_mul_le_mul_right hsmall (by omega)) hr

/-- If all transfers of kernel sectors stay in bounds, the data area holds the whole capacity:
otherwise there is a first sector that it does not hold. -/
theorem holds_capacity (hdvd : tfm.blocksize ∣ 512) (hw : 9 < w) (h : AllInBounds tfm 512 cap data) :
    cap * 512 ≤ data.size := by
  have hpos : 0 < tfm.blocksize := Nat.pos_of_dvd_of_pos hdvd (by decide)
  have hsector : 512 < 2 ^ w := by
    rw [show (512 : ℕ) = 2 ^ 9 from rfl]
    exact (Nat.pow_lt_pow_iff_right (by decide)).mpr hw
  by_contra hover
  have hfull : data.size / 512 * 512 < 2 ^ w :=
    (Nat.div_mul_le_self _ _).trans_lt data.size_lt
  obtain ⟨m, hm⟩ := whole_blocks (r := 1) hdvd hw.le 1
  have hask : MayAsk 512 cap (data.size / 512) 1 := ⟨one_dvd _, dvd_rfl, by omega⟩
  have hlast := (inBounds_iff hpos hm).mp
    (h true (data.size / 512) 1 ⟨512, fun _ => 0, hsector⟩ hask rfl)
  rw [Nat.one_mul, Nat.one_mul, Nat.mod_eq_of_lt hsector, Nat.mod_eq_of_lt hfull] at hlast
  rcases hlast with hzero | ⟨hlast, -⟩
  · exact absurd hzero (by decide)
  · clear * - hlast
    omega

/-- A transfer of kernel sectors below the capacity stays in a data area that holds the capacity. -/
theorem inBounds_of_sectors (hdvd : tfm.blocksize ∣ 512) (hw : 9 < w) (hholds : cap * 512 ≤ data.size)
    (hbelow : sector + nsect ≤ cap) (hbuffer : buffer.size = nsect * 512) :
    InBounds tfm 512 data sector nsect buffer write := by
  have hpos : 0 < tfm.blocksize := Nat.pos_of_dvd_of_pos hdvd (by decide)
  have hblock : tfm.blocksize ≤ 512 := Nat.le_of_dvd (by decide) hdvd
  have hbytes : sector * 512 + nsect * 512 ≤ data.size := by
    rw [← Nat.add_mul]
    exact (Nat.mul_le_mul_right 512 hbelow).trans hholds
  have hlt := hbytes.trans_lt data.size_lt
  obtain ⟨n, hn⟩ := whole_blocks (r := 1) hdvd hw.le nsect
  apply (inBounds_iff hpos hn).mpr
  rw [Nat.mod_eq_of_lt ((Nat.le_add_left _ _).trans_lt hlt),
    Nat.mod_eq_of_lt ((Nat.le_add_right _ _).trans_lt hlt), hbuffer]
  rcases Nat.eq_zero_or_pos nsect with rfl | hsome
  · exact .inl (Nat.zero_mul _)
  · refine .inr ⟨hbytes, ?_⟩
    split_ifs
    · exact le_rfl
    · exact hblock.trans (Nat.le_mul_of_pos_left 512 hsome)

/-- For logical blocks of `r` kernel sectors and any data area and capacity: no logical block fits,
or it is one kernel sector and the data area holds the capacity, or no transfer moves anything. -/
theorem all_inBounds_iff (hdvd : tfm.blocksize ∣ 512) (hr : 0 < r) (hrw : r * 512 < 2 ^ w)
    (hw : 9 < w) (hbytes : 2 ^ w ∣ r * (r * 512) ∨ r * (r * 512) < 2 ^ w) :
    AllInBounds tfm (r * 512) cap data ↔
      cap < r ∨ (r = 1 ∧ cap * 512 ≤ data.size) ∨ 2 ^ w ∣ r * (r * 512) := by
  have hpos : 0 < tfm.blocksize := Nat.pos_of_dvd_of_pos hdvd (by decide)
  constructor
  · intro h
    rcases Nat.lt_or_ge cap r with hfew | hfit
    · exact .inl hfew
    rcases hbytes with hnone | hmoves
    · exact .inr (.inr hnone)
    obtain rfl := block_eq_sector hdvd hr hrw hw h hfit hmoves
    exact .inr (.inl ⟨rfl, holds_capacity hdvd hw h⟩)
  · intro h write sector nsect buffer hask hbuffer
    have hwhole := hask.nsect_dvd
    have hbelow := hask.below
    rw [Nat.mul_div_cancel r (by decide)] at hwhole
    obtain ⟨n, hn⟩ := whole_blocks (r := r) hdvd hw.le nsect
    rcases h with hfew | ⟨rfl, hholds⟩ | hnone
    · have hzero : nsect = 0 := Nat.eq_zero_of_dvd_of_lt hwhole (by omega)
      apply (inBounds_iff hpos hn).mpr
      exact .inl (by rw [hzero, Nat.zero_mul, Nat.zero_mod])
    · exact inBounds_of_sectors hdvd hw hholds hbelow hbuffer
    · obtain ⟨m, rfl⟩ := hwhole
      apply (inBounds_iff hpos hn).mpr
      refine .inl (Nat.mod_eq_zero_of_dvd (hnone.trans ⟨m, ?_⟩))
      ring

end Configuration

section Parameters

variable (W : Widths) {nsectors lbs : Int32} {k : ℕ}

/-- A logical block size that is a power of two is a power of two of kernel sectors. -/
theorem logicalBlockSize_eq (hk : 9 ≤ k) (hlbs : lbs.toInt = 2 ^ k) :
    lbs.toInt.toNat = 2 ^ (k - 9) * 512 ∧ 2 ^ (k - 9) < 2 ^ 22 := by
  have hpow : (lbs.toInt.toNat : ℤ) = (2 ^ k : ℕ) := by
    rw [hlbs]
    simp
  have hsplit : 2 ^ k = 2 ^ (k - 9) * 512 := by
    rw [show (512 : ℕ) = 2 ^ 9 from rfl, ← Nat.pow_add, Nat.sub_add_cancel hk]
  refine ⟨(Int.ofNat_inj.mp hpow).trans hsplit, ?_⟩
  have hlt : ((2 ^ k : ℕ) : ℤ) < (2 ^ 31 : ℕ) := by
    have hmax := lbs.toInt_lt
    rw [hlbs] at hmax
    simpa using hmax
  have hk31 := (Nat.pow_lt_pow_iff_right (by decide)).mp (Int.ofNat_lt.mp hlt)
  exact Nat.pow_lt_pow_right (by decide) (by omega)

/-- What one logical block makes `brdd_transfer` move is nothing at all, or all of it. -/
theorem block_bytes_lt (k w : ℕ) : 2 ^ w ∣ 2 ^ (k - 9) * (2 ^ (k - 9) * 512) ∨
    2 ^ (k - 9) * (2 ^ (k - 9) * 512) < 2 ^ w := by
  have hpow : 2 ^ (k - 9) * (2 ^ (k - 9) * 512) = 2 ^ (k - 9 + (k - 9 + 9)) := by
    rw [show (512 : ℕ) = 2 ^ 9 from rfl, ← Nat.pow_add, ← Nat.pow_add]
  rw [hpow]
  rcases Nat.lt_or_ge (k - 9 + (k - 9 + 9)) w with hlt | hge
  · exact .inr (Nat.pow_lt_pow_right (by decide) hlt)
  · exact .inl (Nat.pow_dvd_pow 2 hge)

/-- All transfers of a loaded module stay in bounds exactly when no logical block fits on the disk,
or logical blocks are kernel sectors and the data area holds the capacity that the disk announces
(or, with 32 bits, logical blocks are so large that no transfer moves anything). -/
theorem transfers_in_bounds_iff (tfm : Cipher) (hdvd : tfm.blocksize ∣ 512) (nsectors lbs : Int32)
    (k : ℕ) (hk : 9 ≤ k) (hlbs : lbs.toInt = 2 ^ k) (data : Bytes W.long)
    (hdata : data.size = deviceSize W.long nsectors lbs) :
    (∀ (write : Bool) (sector nsect : ℕ) (buffer : Bytes W.long),
      MayAsk lbs.toInt.toNat (capacity W.sector nsectors) sector nsect →
      buffer.size = nsect * 512 →
      InBounds tfm lbs.toInt.toNat data sector nsect buffer write) ↔
      capacity W.sector nsectors < lbs.toInt.toNat / 512 ∨
      (lbs = 512 ∧ capacity W.sector nsectors * 512 ≤ deviceSize W.long nsectors lbs) ∨
      2 ^ W.long ∣ lbs.toInt.toNat / 512 * lbs.toInt.toNat := by
  obtain ⟨hsize, hsmall⟩ := logicalBlockSize_eq hk hlbs
  have hword : 2 ^ 32 ≤ 2 ^ W.long := Nat.pow_le_pow_right (by decide) W.int_le_long
  have hsector : lbs = 512 ↔ 2 ^ (k - 9) = 1 := by
    rw [← Int32.toInt_inj, show (512 : Int32).toInt = 512 from rfl]
    omega
  rw [hsector, hsize, Nat.mul_div_cancel _ (by decide), ← hdata]
  apply all_inBounds_iff hdvd (Nat.two_pow_pos _)
  · omega
  · have hlong := W.int_le_long
    omega
  · exact block_bytes_lt k W.long

end Parameters

/-- A machine with 64 bits. -/
def lp64 : Widths := ⟨64, 64, by decide, le_rfl⟩

/-- With the default parameters the last two sectors of the disk can be written. -/
theorem last_sectors_in_bounds : MayAsk 512 (capacity 64 1024) 1022 2 ∧
    InBounds (keyCipher 16) 512 ⟨524288, fun _ => 0, by decide⟩ 1022 2
      (⟨1024, fun _ => 0, by decide⟩ : Bytes 64) true := by
  have hask : MayAsk 512 (capacity 64 1024) 1022 2 := ⟨by decide, by decide, by decide⟩
  have hall := (transfers_in_bounds_iff lp64 (keyCipher 16) (by decide) 1024 512 9 le_rfl rfl
    ⟨524288, fun _ => 0, by decide⟩ rfl).mpr (.inr (.inl ⟨rfl, by decide⟩))
  exact ⟨hask, hall true 1022 2 ⟨1024, fun _ => 0, by decide⟩ hask rfl⟩

/-- Writing the first block of a disk with blocks of 1024 bytes reads past the buffer; on a disk of
8388609 sectors, whose size an `int` cannot hold, writing sector 1 leaves the data area. -/
theorem transfers_out_of_bounds :
    (MayAsk 1024 (capacity 64 1024) 0 2 ∧ deviceSize 64 1024 1024 = 1048576 ∧
      ∀ data buffer : Bytes 64, data.size = 1048576 → buffer.size = 2 * 512 →
        ¬ InBounds (keyCipher 16) 1024 data 0 2 buffer true) ∧
    (MayAsk 512 (capacity 64 8388609) 1 1 ∧ deviceSize 64 8388609 512 = 512 ∧
      ∀ data buffer : Bytes 64, data.size = 512 → buffer.size = 512 →
        ¬ InBounds (keyCipher 16) 512 data 1 1 buffer true) := by
  refine ⟨⟨⟨by decide, by decide, by decide⟩, by decide, fun data buffer hdata hbuffer h => ?_⟩,
    ⟨by decide, by decide, by decide⟩, by decide, fun data buffer hdata hbuffer h => ?_⟩
  · have hin := (inBounds_iff (n := 128) (by decide) rfl).mp h
    simp [hdata, hbuffer] at hin
  · have hin := (inBounds_iff (n := 32) (by decide) rfl).mp h
    simp [hdata, hbuffer] at hin

end OperatingSystems.Brdd
