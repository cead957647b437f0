import OperatingSystems.Library.Machine
import OperatingSystems.Brdd.Transfer

namespace OperatingSystems.Brdd

open Library

/-- The data of the device; `plain` keeps the plaintext last written to each of its bytes. -/
structure State (w : ℕ) where
  data : Bytes w
  plain : ℕ → Option UInt8

/-- A call of `brdd_transfer`, the logical block size being 512. -/
structure Call (w : ℕ) where
  write : Bool
  sector : ℕ
  nsect : ℕ
  buffer : Bytes w

/-- The sectors lie on the device, and the buffer has their size. -/
def InRange {w : ℕ} (s : State w) (c : Call w) : Prop :=
  c.sector * 512 + c.nsect * 512 ≤ s.data.size ∧ c.buffer.size = c.nsect * 512

instance {w : ℕ} (s : State w) (c : Call w) : Decidable (InRange s c) :=
  inferInstanceAs (Decidable (_ ∧ _))

variable {w : ℕ} (tfm : Cipher)

/-- A write overwrites the plaintext of its sectors. -/
def remember (plain : ℕ → Option UInt8) (c : Call w) (j : ℕ) : Option UInt8 :=
  if c.write = true ∧ c.sector * 512 ≤ j ∧ j < c.sector * 512 + c.nsect * 512 then
    some (c.buffer.byte (j - c.sector * 512))
  else plain j

def step (s : State w) (c : Call w) : Option (State w) :=
  if InRange s c then
    (brddTransfer tfm 512 s.data c.sector c.nsect c.buffer c.write).map fun (data, _) =>
      { data := data, plain := remember s.plain c }
  else none

/-- A device with the given contents, nothing of which has been written. -/
def initial (data : Bytes w) : State w := ⟨data, fun _ => none⟩

def machine (data : Bytes w) : Machine (State w) (Call w) where
  init s := s = initial data
  step := step tfm

/-- A read comes back with the plaintext of every byte that was written before, and with every byte
of the buffer filled: none of them depends on what the buffer held. -/
def ReadsBack (s : State w) (c : Call w) : Prop :=
  c.write = false → InRange s c → ∃ buffer',
    brddTransfer tfm 512 s.data c.sector c.nsect c.buffer false = some (s.data, buffer') ∧
    (∀ j v, j < c.nsect * 512 → s.plain (c.sector * 512 + j) = some v → buffer'.byte j = v) ∧
    ∀ other r : Bytes w, other.size = c.buffer.size →
      brddTransfer tfm 512 s.data c.sector c.nsect other false = some (s.data, r) →
      ∀ j, j < c.nsect * 512 → r.byte j = buffer'.byte j

/-- A read asks for at most one block of the cipher. -/
def AtMostOneBlock (s : State w) (c : Call w) : Prop :=
  c.write = false → InRange s c → c.nsect * 512 ≤ tfm.blocksize

/-- Every block of the device holds the encryption of the plaintext written to it, if any. -/
def Stored (s : State w) : Prop :=
  ∀ b, (∀ k, k < tfm.blocksize → s.plain (b * tfm.blocksize + k) = none) ∨
    ∃ pt, s.data.block tfm.blocksize (b * tfm.blocksize) = tfm.encryptOne pt ∧
      ∀ k : Fin tfm.blocksize, s.plain (b * tfm.blocksize + k) = some (pt k)

variable {tfm} {s s' : State w} {c : Call w}

/-- Sectors are whole blocks of the cipher. -/
theorem sectors_eq_blocks (hdvd : tfm.blocksize ∣ 512) (nsect : ℕ) :
    ∃ n, nsect * 512 = n * tfm.blocksize := by
  obtain ⟨k, hk⟩ := hdvd
  exact ⟨nsect * k, by rw [hk, mul_comm tfm.blocksize, mul_assoc]⟩

theorem stored_step (hdvd : tfm.blocksize ∣ 512) (hs : Stored tfm s) (hstep : step tfm s c = some s') :
    Stored tfm s' := by
  have hpos : 0 < tfm.blocksize := Nat.pos_of_dvd_of_pos hdvd (by decide)
  obtain ⟨first, hfirst⟩ := sectors_eq_blocks hdvd c.sector
  obtain ⟨n, hn⟩ := sectors_eq_blocks hdvd c.nsect
  simp only [step, Option.ite_none_right_eq_some, Option.map_eq_some_iff] at hstep
  obtain ⟨⟨hdata, hbuffer⟩, ⟨data', buffer'⟩, htransfer, rfl⟩ := hstep
  intro b
  cases hw : c.write with
  | false =>
    rw [hw, brddTransfer_read hpos hn hdata hbuffer.ge] at htransfer
    obtain ⟨rfl, -⟩ := Prod.mk.inj (Option.some.inj htransfer)
    have hsame : remember s.plain c = s.plain := by
      funext j
      exact if_neg fun h => Bool.false_ne_true (hw.symm.trans h.1)
    rw [hsame]
    exact hs b
  | true =>
    obtain ⟨data'', hwrite, -, hnew, hrest⟩ := brddTransfer_write hpos hn hdata hbuffer.ge
    rw [hw, hwrite] at htransfer
    obtain ⟨rfl, -⟩ := Prod.mk.inj (Option.some.inj htransfer)
    -- the range of the write starts and ends between two blocks
    rw [hfirst] at hnew
    rw [hfirst, hn] at hrest
    have hplain : ∀ j, first * tfm.blocksize ≤ j → j < first * tfm.blocksize + n * tfm.blocksize →
        remember s.plain c j = some (c.buffer.byte (j - first * tfm.blocksize)) := by
      intro j hle hlt
      rw [remember, hfirst, hn, if_pos ⟨hw, hle, hlt⟩]
    have hother : ∀ j, j < first * tfm.blocksize ∨ first * tfm.blocksize + n * tfm.blocksize ≤ j →
        remember s.plain c j = s.plain j := by
      intro j hj
      rw [remember, hfirst, hn]
      exact if_neg fun h => by omega
    by_cases hin : first ≤ b ∧ b < first + n
    · obtain ⟨m, rfl⟩ := Nat.exists_eq_add_of_le hin.1
      have hm : m < n := by omega
      refine .inr ⟨c.buffer.block tfm.blocksize (m * tfm.blocksize), ?_, fun k => ?_⟩
      · rw [Nat.add_mul]
        exact hnew m hm
      · have hlast : (m + 1) * tfm.blocksize ≤ n * tfm.blocksize := Nat.mul_le_mul_right _ hm
        rw [Nat.add_mul, Nat.one_mul] at hlast
        have hk := k.isLt
        show remember s.plain c ((first + m) * tfm.blocksize + k) = _
        rw [Nat.add_mul, hplain _ (by omega) (by omega), add_assoc, Nat.add_sub_cancel_left]
        rfl
    · have hout : ∀ k, k < tfm.blocksize → b * tfm.blocksize + k < first * tfm.blocksize ∨
          first * tfm.blocksize + n * tfm.blocksize ≤ b * tfm.blocksize + k := by
        intro k hk
        rcases Nat.lt_or_ge b first with hlt | hge
        · have hle : (b + 1) * tfm.blocksize ≤ first * tfm.blocksize := Nat.mul_le_mul_right _ hlt
          rw [Nat.add_mul, Nat.one_mul] at hle
          omega
        · have hle : (first + n) * tfm.blocksize ≤ b * tfm.blocksize :=
            Nat.mul_le_mul_right _ (by omega)
          rw [Nat.add_mul] at hle
          omega
      refine (hs b).imp (fun hnone k hk => ?_) ?_
      · exact (hother _ (hout k hk)).trans (hnone k hk)
      · rintro ⟨pt, hpt, hsome⟩
        refine ⟨pt, ?_, fun k => (hother _ (hout k k.isLt)).trans (hsome k)⟩
        rw [← hpt]
        funext k
        exact hrest _ (hout k k.isLt)

theorem stored_initial (data : Bytes w) : Stored tfm (initial data) := fun _ => .inl fun _ _ => rfl

/-- A read of at most one block comes back with what was written; a longer one leaves the rest of
the buffer as it was. -/
theorem readsBack_iff (hinv : Function.LeftInverse tfm.decryptOne tfm.encryptOne)
    (hdvd : tfm.blocksize ∣ 512) (hs : Stored tfm s) : ReadsBack tfm s c ↔ AtMostOneBlock tfm s c := by
  have hpos : 0 < tfm.blocksize := Nat.pos_of_dvd_of_pos hdvd (by decide)
  obtain ⟨n, hn⟩ := sectors_eq_blocks hdvd c.nsect
  constructor
  · intro hread hw hin
    obtain ⟨buffer', hbuffer', -, hfill⟩ := hread hw hin
    rw [brddTransfer_read hpos hn hin.1 hin.2.ge] at hbuffer'
    obtain ⟨-, rfl⟩ := Prod.mk.inj (Option.some.inj hbuffer')
    by_contra hlong
    obtain ⟨v, hv⟩ : ∃ v, v ≠ c.buffer.byte tfm.blocksize := by
      by_cases hzero : c.buffer.byte tfm.blocksize = 0
      · exact ⟨1, by rw [hzero]; decide⟩
      · exact ⟨0, fun h => hzero h.symm⟩
    -- the byte after the first block keeps what the buffer held
    let other := c.buffer.store tfm.blocksize (fun _ : Fin 1 => v)
    have hkeep : ∀ b : Bytes w, (if n = 0 then b else b.store 0 (tfm.decryptOne (s.data.block
        tfm.blocksize (c.sector * 512 + (n - 1) * tfm.blocksize)))).byte tfm.blocksize =
          b.byte tfm.blocksize := by
      intro b
      split_ifs
      · rfl
      · exact Bytes.byte_store_of_not (by omega)
    have hother : other.byte tfm.blocksize = v := Bytes.byte_store (0 : Fin 1)
    have hsame := hfill other _ rfl (brddTransfer_read hpos hn hin.1 hin.2.ge) tfm.blocksize
      (by omega)
    rw [hkeep, hkeep, hother] at hsame
    exact hv hsame
  · intro hshort hw hin
    refine ⟨_, brddTransfer_read hpos hn hin.1 hin.2.ge, ?_⟩
    have hle : n * tfm.blocksize ≤ 1 * tfm.blocksize := by
      rw [← hn, Nat.one_mul]
      exact hshort hw hin
    rcases Nat.le_one_iff_eq_zero_or_eq_one.mp (Nat.le_of_mul_le_mul_right hle hpos) with rfl | rfl
    · rw [Nat.zero_mul] at hn
      rw [hn]
      exact ⟨fun j v hj => absurd hj (Nat.not_lt_zero j),
        fun other r _ _ j hj => absurd hj (Nat.not_lt_zero j)⟩
    · obtain ⟨first, hfirst⟩ := sectors_eq_blocks hdvd c.sector
      rw [Nat.one_mul] at hn
      have hread : ∀ b : Bytes w, ∀ k : Fin tfm.blocksize, (b.store 0 (tfm.decryptOne (s.data.block
          tfm.blocksize (c.sector * 512 + (1 - 1) * tfm.blocksize)))).byte k =
            tfm.decryptOne (s.data.block tfm.blocksize (first * tfm.blocksize)) k := by
        intro b k
        have hbyte := Bytes.byte_store (b := b) (i := 0) (x := tfm.decryptOne (s.data.block
          tfm.blocksize (c.sector * 512 + (1 - 1) * tfm.blocksize))) k
        rw [Nat.zero_add] at hbyte
        rw [hbyte, Nat.sub_self, Nat.zero_mul, Nat.add_zero, hfirst]
      rw [if_neg one_ne_zero]
      refine ⟨fun j v hj hv => ?_, fun other r hsize hr j hj => ?_⟩
      · rw [hread c.buffer ⟨j, by omega⟩]
        rcases hs first with hnone | ⟨pt, hpt, hsome⟩
        · rw [hfirst, hnone j (by omega)] at hv
          exact absurd hv nofun
        · rw [hfirst] at hv
          rw [hpt, hinv pt]
          exact Option.some.inj ((hsome ⟨j, by omega⟩).symm.trans hv)
      · rw [brddTransfer_read hpos (by rw [hn, Nat.one_mul]) hin.1 (by rw [hsize]; exact hin.2.ge)] at hr
        obtain ⟨-, rfl⟩ := Prod.mk.inj (Option.some.inj hr)
        rw [if_neg one_ne_zero, hread other ⟨j, by omega⟩, hread c.buffer ⟨j, by omega⟩]

/-- In a run of reads and writes every read comes back right exactly when none of them asks for
more than one block of the cipher. -/
theorem reads_back_iff (tfm : Cipher) (hinv : Function.LeftInverse tfm.decryptOne tfm.encryptOne)
    (hdvd : tfm.blocksize ∣ 512) (data : Bytes w) (cs : List (Call w)) :
    (machine tfm data).Meets (ReadsBack tfm) (initial data) cs ↔
      (machine tfm data).Meets (AtMostOneBlock tfm) (initial data) cs := by
  refine Machine.meets_congr (I := Stored tfm) ?_ ?_ cs (stored_initial data)
  · intro s c t hs _ hstep
    exact stored_step hdvd hs hstep
  · intro s c hs
    exact readsBack_iff hinv hdvd hs

/-- A cipher that adds a key byte, and what the runs below use: a device of two sectors, a sector
of text, and an empty buffer. -/
def keyCipher (blocksize : ℕ) : Cipher where
  blocksize := blocksize
  encryptOne x k := x k ^^^ 0x31
  decryptOne x k := x k ^^^ 0x31

theorem keyCipher_inv (n : ℕ) :
    Function.LeftInverse (keyCipher n).decryptOne (keyCipher n).encryptOne := by
  intro x
  funext k
  change x k ^^^ 0x31 ^^^ 0x31 = x k
  rw [UInt8.xor_assoc, UInt8.xor_self, UInt8.xor_zero]

def disk : Bytes 64 := ⟨1024, fun _ => 0, by decide⟩

def text : Bytes 64 := ⟨512, fun j => j.toUInt8, by decide⟩

def blank : Bytes 64 := ⟨512, fun _ => 0, by decide⟩

/-- With blocks of 512 bytes a sector that is written can be read. -/
theorem sector_reads_back : (machine (keyCipher 512) disk).Meets (ReadsBack (keyCipher 512))
    (initial disk) [⟨true, 1, 1, text⟩, ⟨false, 1, 1, blank⟩] := by
  apply (reads_back_iff (keyCipher 512) (keyCipher_inv 512) (by decide) disk _).mpr
  exact ⟨nofun, fun s _ => ⟨fun _ _ => le_rfl, fun t _ => trivial⟩⟩

/-- With blocks of 16 bytes a sector of text is written; the read puts its last block at the start
of the buffer and leaves the rest of the buffer empty. -/
theorem sector_lost_after_first_block :
    ∃ s buffer', (machine (keyCipher 16) disk).run (initial disk) [⟨true, 0, 1, text⟩] = some s ∧
      brddTransfer (keyCipher 16) 512 s.data 0 1 blank false = some (s.data, buffer') ∧
      s.plain 0 = some 0 ∧ buffer'.byte 0 = 240 ∧ s.plain 16 = some 16 ∧ buffer'.byte 16 = 0 ∧
      ¬ ReadsBack (keyCipher 16) s ⟨false, 0, 1, blank⟩ := by
  refine ⟨_, _, rfl, rfl, rfl, rfl, rfl, rfl, fun h => ?_⟩
  obtain ⟨buffer', hread, hplain, -⟩ := h rfl ⟨by decide, rfl⟩
  have hbyte : buffer'.byte 16 = 16 := hplain 16 16 (by decide) rfl
  obtain rfl := (Prod.mk.inj (Option.some.inj hread)).2
  exact absurd hbyte (by decide)

end OperatingSystems.Brdd
