import OperatingSystems.Brdd.ReadBack
import OperatingSystems.Brdd.RequestLoop
import OperatingSystems.Library.Blockwise

namespace OperatingSystems.Brdd

open Library

variable {ι : Type*} {w : ℕ} {tfm : Cipher} {data data' : Bytes w} {start len len' : ℕ}
  {plain plain' : ℕ → UInt8} {segs : List (Segment (Bytes w))} {queue : List (Request ι (Bytes w))}
  {r : Request ι (Bytes w)}

/-- What `bio_data` gives for a request without a bio. -/
def noData : Bytes w := ⟨0, fun _ => 0, Nat.two_pow_pos w⟩

/-- One pass through the loop of `brdd_request`, on the data of the device. -/
def devicePass (tfm : Cipher) : Bytes w × LoopState ι (Bytes w) →
    Option (Bytes w × LoopState ι (Bytes w))
  | (data, s) => match s.req with
    | none => some (data, s)
    | some req =>
      if req.cmdType ≠ reqTypeFs then some (data, pass s)
      else (brddTransfer tfm 512 data req.pos req.curSectors (req.curData.getD noData) req.write).map
        fun (data, _) => (data, pass s)

def devicePasses (tfm : Cipher) : ℕ → Bytes w × LoopState ι (Bytes w) →
    Option (Bytes w × LoopState ι (Bytes w))
  | 0, x => some x
  | n + 1, x => (devicePass tfm x).bind (devicePasses tfm n)

/-- `brdd_request` on the device after a number of passes. -/
def deviceRequest (tfm : Cipher) (data : Bytes w) (queue : List (Request ι (Bytes w))) (passes : ℕ) :
    Option (Bytes w × LoopState ι (Bytes w)) :=
  devicePasses tfm passes (data, fetch ⟨queue, none, []⟩)

/-- The sectors of a request. -/
def sectorsOf (segs : List (Segment (Bytes w))) : ℕ := (segs.map Segment.sectors).sum

/-- The segments of a request, one after the other. -/
def contents : List (Segment (Bytes w)) → ℕ → UInt8
  | [] => fun _ => 0
  | seg :: segs => joined (seg.sectors * 512) seg.data.byte (contents segs)

/-- The block-by-block encryption of a text is stored from byte `start` on. -/
def storeEncrypted (tfm : Cipher) (data : Bytes w) (start len : ℕ) (text : ℕ → UInt8) : Bytes w :=
  { data with byte := fun j => if start ≤ j ∧ j < start + len then
      blockwise tfm.blocksize tfm.encryptOne text (j - start) else data.byte j }

/-- What a request does to the device: a write stores the encryption of its segments at its sectors, a
read nothing. -/
def applyRequest (tfm : Cipher) (data : Bytes w) (r : Request ι (Bytes w)) : Bytes w :=
  if r.write then
    storeEncrypted tfm data (r.pos * 512) (sectorsOf r.segments * 512) (contents r.segments)
  else data

/-- The control of the loop does not depend on the data. -/
theorem devicePass_control {x y : Bytes w × LoopState ι (Bytes w)} (h : devicePass tfm x = some y) :
    y.2 = pass x.2 := by
  obtain ⟨data, s⟩ := x
  rw [devicePass] at h
  cases hreq : s.req with
  | none =>
    simp only [hreq] at h
    rw [← Option.some.inj h, pass, hreq]
  | some req =>
    simp only [hreq] at h
    split_ifs at h
    · rw [← Option.some.inj h]
    · obtain ⟨z, -, rfl⟩ := Option.map_eq_some_iff.mp h
      rfl

theorem devicePasses_control {n : ℕ} {x y : Bytes w × LoopState ι (Bytes w)}
    (h : devicePasses tfm n x = some y) : y.2 = pass^[n] x.2 := by
  induction n generalizing x with
  | zero => rw [← Option.some.inj h, Function.iterate_zero_apply]
  | succ n ih =>
    obtain ⟨z, hz, hy⟩ := Option.bind_eq_some_iff.mp h
    rw [ih hy, devicePass_control hz, Function.iterate_succ_apply]

theorem devicePasses_add {n m : ℕ} {x y : Bytes w × LoopState ι (Bytes w)}
    (h : devicePasses tfm n x = some y) : devicePasses tfm (n + m) x = devicePasses tfm m y := by
  induction n generalizing x with
  | zero => rw [← Option.some.inj h, Nat.zero_add]
  | succ n ih =>
    obtain ⟨z, hz, hy⟩ := Option.bind_eq_some_iff.mp h
    rw [Nat.succ_add, devicePasses, hz]
    exact ih hy

@[simp] theorem storeEncrypted_size : (storeEncrypted tfm data start len plain).size = data.size := rfl

@[simp] theorem storeEncrypted_zero : storeEncrypted tfm data start 0 plain = data := by
  obtain ⟨size, byte, hsize⟩ := data
  simp only [storeEncrypted, Bytes.mk.injEq, true_and]
  funext j
  exact if_neg (by omega)

/-- Two texts of whole blocks that are stored one behind the other are stored as one. -/
theorem storeEncrypted_joined (hpos : 0 < tfm.blocksize) (hdvd : tfm.blocksize ∣ len) :
    storeEncrypted tfm (storeEncrypted tfm data start len plain) (start + len) len' plain' =
      storeEncrypted tfm data start (len + len') (joined len plain plain') := by
  simp only [storeEncrypted, Bytes.mk.injEq, true_and]
  funext j
  rw [blockwise_joined hpos hdvd, joined]
  rcases Nat.lt_or_ge j start with hbefore | hge
  · rw [if_neg (by omega), if_neg (by omega), if_neg (by omega)]
  obtain ⟨i, rfl⟩ := Nat.exists_eq_add_of_le hge
  rw [Nat.add_sub_cancel_left]
  rcases Nat.lt_or_ge i len with hfirst | hsecond
  · rw [if_neg (by omega), if_pos (by omega), if_pos (by omega), if_pos hfirst]
  · rw [if_neg (not_lt.mpr hsecond), Nat.add_sub_add_left]
    by_cases hin : i < len + len'
    · rw [if_pos (by omega), if_pos (by omega)]
    · rw [if_neg (by omega), if_neg (by omega), if_neg (by omega)]

section Transfers

variable {sector nsect : ℕ} {buffer : Bytes w} {write : Bool} {id : ι} {pos : ℕ}
  {seg next : Segment (Bytes w)} {log : List (Action ι (Bytes w))} {cmdType : ℕ}

/-- A write of whole sectors stores the encryption of the buffer. -/
theorem transfer_write (hdvd : tfm.blocksize ∣ 512) (hdata : sector * 512 + nsect * 512 ≤ data.size)
    (hbuffer : nsect * 512 ≤ buffer.size) :
    brddTransfer tfm 512 data sector nsect buffer true =
      some (storeEncrypted tfm data (sector * 512) (nsect * 512) buffer.byte, buffer) := by
  have hpos : 0 < tfm.blocksize := Nat.pos_of_dvd_of_pos hdvd (by decide)
  obtain ⟨n, hn⟩ := sectors_eq_blocks hdvd nsect
  obtain ⟨⟨size, byte, hlt⟩, hwrite, hsize, hnew, hrest⟩ := brddTransfer_write hpos hn hdata hbuffer
  rw [hwrite]
  simp only [storeEncrypted, Option.some.injEq, Prod.mk.injEq, and_true, Bytes.mk.injEq]
  refine ⟨hsize, ?_⟩
  funext j
  split_ifs with hin
  · obtain ⟨i, rfl⟩ := Nat.exists_eq_add_of_le hin.1
    have hi : i < n * tfm.blocksize := by omega
    have hblock := congrFun (hnew (i / tfm.blocksize) ((Nat.div_lt_iff_lt_mul hpos).mpr hi))
      ⟨i % tfm.blocksize, Nat.mod_lt i hpos⟩
    rw [Nat.add_sub_cancel_left, blockwise_eq hpos]
    simp only [Bytes.block, Nat.add_assoc, Nat.div_add_mod'] at hblock
    exact hblock
  · exact hrest j (by omega)

/-- What the transfer of a segment does to the data. -/
def applySegment (tfm : Cipher) (data : Bytes w) (write : Bool) (pos : ℕ) (seg : Segment (Bytes w)) :
    Bytes w :=
  if write then storeEncrypted tfm data (pos * 512) (seg.sectors * 512) seg.data.byte else data

theorem transfer_segment (seg : Segment (Bytes w)) (write : Bool) (hdvd : tfm.blocksize ∣ 512)
    (hdata : pos * 512 + seg.sectors * 512 ≤ data.size) (hseg : seg.data.size = seg.sectors * 512) :
    ∃ buffer', brddTransfer tfm 512 data pos seg.sectors seg.data write =
      some (applySegment tfm data write pos seg, buffer') := by
  cases write with
  | true => exact ⟨_, transfer_write hdvd hdata hseg.ge⟩
  | false =>
    have hpos : 0 < tfm.blocksize := Nat.pos_of_dvd_of_pos hdvd (by decide)
    obtain ⟨n, hn⟩ := sectors_eq_blocks hdvd seg.sectors
    exact ⟨_, brddTransfer_read hpos hn hdata hseg.ge⟩

/-- A request without a bio moves nothing. -/
theorem transfer_none (write : Bool) (hdvd : tfm.blocksize ∣ 512) (hdata : pos * 512 ≤ data.size) :
    ∃ buffer', brddTransfer tfm 512 data pos 0 noData write = some (data, buffer') := by
  have hrange : pos * 512 + 0 * 512 ≤ data.size := by
    simpa using hdata
  obtain ⟨buffer', htransfer⟩ := transfer_segment ⟨0, noData⟩ write hdvd hrange (Nat.zero_mul 512).symm
  refine ⟨buffer', htransfer.trans ?_⟩
  rw [applySegment, Nat.zero_mul, storeEncrypted_zero, ite_self]

theorem applyRequest_nil : applyRequest tfm data (⟨id, cmdType, write, pos, []⟩ : Request ι _) = data := by
  rw [applyRequest, sectorsOf, List.map_nil, List.sum_nil, Nat.zero_mul, storeEncrypted_zero, ite_self]

/-- A request is its first segment and a request for the rest, where the segment ends. -/
theorem applyRequest_cons (hdvd : tfm.blocksize ∣ 512) :
    applyRequest tfm data (⟨id, cmdType, write, pos, seg :: segs⟩ : Request ι _) =
      applyRequest tfm (applySegment tfm data write pos seg)
        ⟨id, cmdType, write, pos + seg.sectors, segs⟩ := by
  cases write with
  | false => simp only [applyRequest, applySegment, Bool.false_eq_true, if_false]
  | true =>
    have hpos : 0 < tfm.blocksize := Nat.pos_of_dvd_of_pos hdvd (by decide)
    have hwhole : tfm.blocksize ∣ seg.sectors * 512 := Dvd.dvd.mul_left hdvd _
    simp only [applyRequest, applySegment, if_true, sectorsOf, List.map_cons, List.sum_cons, contents]
    rw [Nat.add_mul, Nat.add_mul, storeEncrypted_joined hpos hwhole]

/-- A pass transfers the current segment, and goes on as `pass` does. -/
theorem devicePass_fs {s : LoopState ι (Bytes w)} {buffer' : Bytes w} (hreq : s.req = some r)
    (hcmd : r.cmdType = reqTypeFs)
    (htransfer : brddTransfer tfm 512 data r.pos r.curSectors (r.curData.getD noData) r.write =
      some (data', buffer')) : devicePass tfm (data, s) = some (data', pass s) := by
  simp only [devicePass, hreq, hcmd, htransfer, ne_eq, not_true_eq_false, if_false, Option.map_some]

/-- A request is worked off segment by segment. -/
theorem request_applied (hdvd : tfm.blocksize ∣ 512) (queue : List (Request ι (Bytes w))) (id : ι)
    (write : Bool) (pos : ℕ) (segs : List (Segment (Bytes w))) (log : List (Action ι (Bytes w)))
    (data : Bytes w) (hsegs : ∀ seg ∈ segs, seg.data.size = seg.sectors * 512)
    (hrange : (pos + sectorsOf segs) * 512 ≤ data.size) :
    ∃ n log', devicePasses tfm n (data, ⟨queue, some ⟨id, reqTypeFs, write, pos, segs⟩, log⟩) =
      some (applyRequest tfm data ⟨id, reqTypeFs, write, pos, segs⟩, fetch ⟨queue, none, log'⟩) := by
  induction segs generalizing pos log data with
  | nil =>
    rw [sectorsOf, List.map_nil, List.sum_nil, Nat.add_zero] at hrange
    obtain ⟨buffer', htransfer⟩ := transfer_none write hdvd hrange
    refine ⟨1, log ++ served id write pos [], ?_⟩
    rw [devicePasses, devicePass_fs rfl rfl htransfer, applyRequest_nil]
    simp [devicePasses, pass, served, LoopState.record, Request.endCur, Request.curSectors,
      Request.curData, fetch]
  | cons seg segs ih =>
    have hseg := hsegs seg List.mem_cons_self
    have hsegs' := fun s hs => hsegs s (List.mem_cons_of_mem seg hs)
    rw [sectorsOf, List.map_cons, List.sum_cons, ← sectorsOf] at hrange
    have hfirst : pos * 512 + seg.sectors * 512 ≤ data.size := by
      rw [← Nat.add_mul]
      exact (Nat.mul_le_mul_right 512 (by omega)).trans hrange
    obtain ⟨buffer', htransfer⟩ := transfer_segment seg write hdvd hfirst hseg
    have hsize : (applySegment tfm data write pos seg).size = data.size := by
      rw [applySegment]
      split_ifs <;> rfl
    cases segs with
    | nil =>
      refine ⟨1, log ++ served id write pos [seg], ?_⟩
      rw [devicePasses, devicePass_fs rfl rfl htransfer, applyRequest_cons hdvd, applyRequest_nil]
      simp [devicePasses, pass, served, LoopState.record, Request.endCur, Request.curSectors,
        Request.curData, fetch]
    | cons next segs =>
      obtain ⟨n, log', hn⟩ := ih (pos + seg.sectors)
        (log ++ [.look id, .transfer id pos seg.sectors (some seg.data) write, .endCur id])
        (applySegment tfm data write pos seg) hsegs' (by rw [hsize, Nat.add_assoc]; exact hrange)
      refine ⟨n + 1, log', ?_⟩
      rw [applyRequest_cons hdvd, ← hn, devicePasses, devicePass_fs rfl rfl htransfer,
        Option.bind_some, pass_fs]

end Transfers

/-- The sectors of every request lie on the device, and its segments have the size of their sectors. -/
structure OnDevice (data : Bytes w) (r : Request ι (Bytes w)) : Prop where
  range : (r.pos + sectorsOf r.segments) * 512 ≤ data.size
  segments : ∀ seg ∈ r.segments, seg.data.size = seg.sectors * 512

theorem applyRequest_size : (applyRequest tfm data r).size = data.size := by
  rw [applyRequest]
  split_ifs <;> rfl

theorem queue_applied (hdvd : tfm.blocksize ∣ 512) (hfs : ∀ r ∈ queue, r.cmdType = reqTypeFs)
    (hqueue : ∀ r ∈ queue, OnDevice data r) (log : List (Action ι (Bytes w))) :
    ∃ n log', devicePasses tfm n (data, fetch ⟨queue, none, log⟩) =
      some (queue.foldl (applyRequest tfm) data, ⟨[], none, log'⟩) := by
  induction queue generalizing data log with
  | nil => exact ⟨0, log, rfl⟩
  | cons r queue ih =>
    have hr : r = ⟨r.id, reqTypeFs, r.write, r.pos, r.segments⟩ := by
      rw [← hfs r List.mem_cons_self]
    have hon := hqueue r List.mem_cons_self
    obtain ⟨n, log₁, hn⟩ := request_applied hdvd queue r.id r.write r.pos r.segments log data
      hon.segments hon.range
    rw [← hr] at hn
    have hrest : ∀ r' ∈ queue, OnDevice (applyRequest tfm data r) r' := by
      intro r' hr'
      have hon' := hqueue r' (List.mem_cons_of_mem r hr')
      exact ⟨by rw [applyRequest_size]; exact hon'.range, hon'.segments⟩
    obtain ⟨m, log₂, hm⟩ := ih (fun r' hr' => hfs r' (List.mem_cons_of_mem r hr')) hrest log₁
    refine ⟨n + m, log₂, ?_⟩
    have hfetch : fetch ⟨r :: queue, none, log⟩ = ⟨queue, some r, log⟩ := rfl
    rw [hfetch, devicePasses_add hn, hm, List.foldl_cons]

/-- `brdd_request` comes to the end of a queue of requests of the file system, and the device then
holds what the requests, applied in order, leave there, however each is cut into segments. -/
theorem device_after_queue (hdvd : tfm.blocksize ∣ 512) (queue : List (Request ι (Bytes w)))
    (hfs : ∀ r ∈ queue, r.cmdType = reqTypeFs) (hqueue : ∀ r ∈ queue, OnDevice data r) :
    ∃ passes, deviceRequest tfm data queue passes =
        some (queue.foldl (applyRequest tfm) data, brddRequest queue passes) ∧
      (brddRequest queue passes).req = none ∧ (brddRequest queue passes).queue = [] := by
  obtain ⟨n, log, hn⟩ := queue_applied hdvd hfs hqueue []
  have hcontrol : ⟨[], none, log⟩ = brddRequest queue n := devicePasses_control hn
  refine ⟨n, ?_, ?_, ?_⟩
  · rw [deviceRequest, hn, hcontrol]
  · rw [← hcontrol]
  · rw [← hcontrol]

/-- A write of two sectors in two segments, and a read of one. -/
def twoRequests : List (Request ℕ (Bytes 64)) :=
  [⟨0, 1, true, 0, [⟨1, text⟩, ⟨1, text⟩]⟩, ⟨1, 1, false, 0, [⟨1, blank⟩]⟩]

/-- The second segment lies behind the first one. -/
theorem device_after_twoRequests : ∃ passes data',
    deviceRequest (keyCipher 16) disk twoRequests passes =
        some (data', brddRequest twoRequests passes) ∧
      (brddRequest twoRequests passes).req = none ∧
      data'.byte 1 = 1 ^^^ 0x31 ∧ data'.byte 513 = 1 ^^^ 0x31 := by
  have hqueue : ∀ r ∈ twoRequests, OnDevice disk r := by
    intro r hr
    rcases List.mem_cons.mp hr with rfl | hr
    · exact ⟨by decide, by simp [text]⟩
    · obtain rfl := List.mem_singleton.mp hr
      exact ⟨by decide, by simp [blank]⟩
  obtain ⟨passes, hdevice, hdone, -⟩ := device_after_queue
    (show (keyCipher 16).blocksize ∣ 512 by decide) twoRequests (by decide) hqueue
  exact ⟨passes, _, hdevice, hdone, by decide +kernel, by decide +kernel⟩

end OperatingSystems.Brdd
