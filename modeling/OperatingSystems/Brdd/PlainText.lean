import OperatingSystems.Brdd.Device

namespace OperatingSystems.Brdd

open Library

section Definitions

variable {ι : Type*} {w : ℕ} (tfm : Cipher)

/-- `brdd_request` at work, with what its reads have left in their buffers. -/
structure Serving (ι : Type*) (w : ℕ) where
  data : Bytes w
  loop : LoopState ι (Bytes w)
  buffers : List (ι × Bytes w)

/-- One pass through the loop of `brdd_request`, on the data of the device and on the buffers. -/
def servePass (s : Serving ι w) : Option (Serving ι w) :=
  match s.loop.req with
  | none => some s
  | some req =>
    if req.cmdType ≠ reqTypeFs then some { s with loop := pass s.loop }
    else (brddTransfer tfm 512 s.data req.pos req.curSectors (req.curData.getD noData) req.write).map
      fun (data, buffer) => {
        data := data
        loop := pass s.loop
        buffers := s.buffers ++
          if req.write ∨ req.curData.isNone then [] else [(req.id, buffer)] }

def servePasses : ℕ → Serving ι w → Option (Serving ι w)
  | 0, s => some s
  | n + 1, s => (servePass tfm s).bind (servePasses n)

/-- `brdd_request` after a number of passes. -/
def serveRequest (data : Bytes w) (queue : List (Request ι (Bytes w))) (passes : ℕ) :
    Option (Serving ι w) :=
  servePasses tfm passes ⟨data, fetch ⟨queue, none, []⟩, []⟩

/-- The device as its users know it: the decryption of its data, block by block. -/
def plainText (data : Bytes w) : ℕ → UInt8 := blockwise tfm.blocksize tfm.decryptOne data.byte

/-- A write puts its segments at its sectors. -/
def plainAfter (plain : ℕ → UInt8) (r : Request ι (Bytes w)) : ℕ → UInt8 :=
  if r.write then spliced (r.pos * 512) (sectorsOf r.segments * 512) plain (contents r.segments)
  else plain

/-- A read puts the last block of its sectors at the start of its buffer. -/
def readInto (blocksize : ℕ) (plain : ℕ → UInt8) (pos : ℕ) (seg : Segment (Bytes w)) : Bytes w :=
  if seg.sectors = 0 then seg.data
  else seg.data.store 0 fun k : Fin blocksize => plain ((pos + seg.sectors) * 512 - blocksize + k)

/-- The buffers of the segments of a read. -/
def readSegments (blocksize : ℕ) (plain : ℕ → UInt8) : ℕ → List (Segment (Bytes w)) → List (Bytes w)
  | _, [] => []
  | pos, seg :: segs => readInto blocksize plain pos seg ::
      readSegments blocksize plain (pos + seg.sectors) segs

def readRequest (blocksize : ℕ) (plain : ℕ → UInt8) (r : Request ι (Bytes w)) : List (ι × Bytes w) :=
  if r.write then [] else (readSegments blocksize plain r.pos r.segments).map (r.id, ·)

/-- What the reads of a queue find, each after the writes before it. -/
def readQueue (blocksize : ℕ) : (ℕ → UInt8) → List (Request ι (Bytes w)) → List (ι × Bytes w)
  | _, [] => []
  | plain, r :: queue =>
    readRequest blocksize plain r ++ readQueue blocksize (plainAfter plain r) queue

end Definitions

variable {ι : Type*} {w : ℕ} {tfm : Cipher} {data data' : Bytes w} {start len : ℕ}
  {plain : ℕ → UInt8} {segs : List (Segment (Bytes w))} {queue : List (Request ι (Bytes w))}
  {r : Request ι (Bytes w)} {s : Serving ι w}

/-- The buffers are all that the passes here have beside those of `devicePass`. -/
theorem servePass_device (s : Serving ι w) :
    (servePass tfm s).map (fun t => (t.data, t.loop)) = devicePass tfm (s.data, s.loop) := by
  rw [servePass, devicePass]
  cases s.loop.req with
  | none => rfl
  | some req =>
    simp only
    by_cases hcmd : req.cmdType ≠ reqTypeFs
    · rw [if_pos hcmd, if_pos hcmd]
      rfl
    · rw [if_neg hcmd, if_neg hcmd, Option.map_map]
      rfl

/-- A block of the device is decrypted to a block of the plaintext. -/
theorem decrypt_block (hpos : 0 < tfm.blocksize) (data : Bytes w) (b : ℕ) :
    tfm.decryptOne (data.block tfm.blocksize (b * tfm.blocksize)) =
      fun k : Fin tfm.blocksize => plainText tfm data (b * tfm.blocksize + k) := by
  funext k
  have hdiv : (b * tfm.blocksize + k) / tfm.blocksize = b := by
    rw [Nat.mul_comm, Nat.mul_add_div hpos, Nat.div_eq_of_lt k.isLt, Nat.add_zero]
  have hmod : (b * tfm.blocksize + k) % tfm.blocksize = k := by
    rw [Nat.mul_comm, Nat.mul_add_mod, Nat.mod_eq_of_lt k.isLt]
  rw [plainText, blockwise_eq hpos]
  simp only [hdiv, hmod]
  rfl

/-- A write changes the plaintext at its own sectors only, and to what it writes. -/
theorem plainText_applyRequest (hinv : Function.LeftInverse tfm.decryptOne tfm.encryptOne)
    (hdvd : tfm.blocksize ∣ 512) (data : Bytes w) (r : Request ι (Bytes w)) :
    plainText tfm (applyRequest tfm data r) = plainAfter (plainText tfm data) r := by
  have hpos : 0 < tfm.blocksize := Nat.pos_of_dvd_of_pos hdvd (by decide)
  rw [applyRequest, plainAfter]
  split_ifs
  · have hbytes : (storeEncrypted tfm data (r.pos * 512) (sectorsOf r.segments * 512)
        (contents r.segments)).byte = spliced (r.pos * 512) (sectorsOf r.segments * 512) data.byte
          (blockwise tfm.blocksize tfm.encryptOne (contents r.segments)) := rfl
    rw [plainText, hbytes, blockwise_spliced hpos (Dvd.dvd.mul_left hdvd _)
      (Dvd.dvd.mul_left hdvd _), blockwise_leftInverse hpos hinv, plainText]
  · rfl

section Requests

variable {id : ι} {cmdType pos : ℕ} {write : Bool} {seg : Segment (Bytes w)}

/-- A read finds the last block of its sectors, decrypted. -/
theorem transfer_reads (hdvd : tfm.blocksize ∣ 512) (seg : Segment (Bytes w))
    (hdata : pos * 512 + seg.sectors * 512 ≤ data.size) (hseg : seg.data.size = seg.sectors * 512) :
    brddTransfer tfm 512 data pos seg.sectors seg.data false =
      some (data, readInto tfm.blocksize (plainText tfm data) pos seg) := by
  have hpos : 0 < tfm.blocksize := Nat.pos_of_dvd_of_pos hdvd (by decide)
  obtain ⟨first, hfirst⟩ := sectors_eq_blocks hdvd pos
  obtain ⟨n, hn⟩ := sectors_eq_blocks hdvd seg.sectors
  rw [brddTransfer_read hpos hn hdata hseg.ge, readInto]
  cases n with
  | zero =>
    rw [if_pos rfl, if_pos (by omega)]
  | succ n =>
    have hsectors : seg.sectors ≠ 0 := by
      intro hzero
      rw [hzero, Nat.succ_mul] at hn
      omega
    have hlast : (pos + seg.sectors) * 512 - tfm.blocksize = (first + n) * tfm.blocksize := by
      rw [Nat.add_mul, hfirst, hn, Nat.succ_mul, Nat.add_mul]
      omega
    rw [if_neg (Nat.succ_ne_zero n), if_neg hsectors, hlast, ← decrypt_block hpos, hfirst,
      Nat.add_sub_cancel, Nat.add_mul]

theorem transfer_served (hdvd : tfm.blocksize ∣ 512) (seg : Segment (Bytes w)) (write : Bool)
    (hdata : pos * 512 + seg.sectors * 512 ≤ data.size) (hseg : seg.data.size = seg.sectors * 512) :
    ∃ buffer', brddTransfer tfm 512 data pos seg.sectors seg.data write =
      some (applySegment tfm data write pos seg, buffer') ∧
      (write = false → buffer' = readInto tfm.blocksize (plainText tfm data) pos seg) := by
  cases write with
  | true =>
    obtain ⟨buffer', htransfer⟩ := transfer_segment seg true hdvd hdata hseg
    exact ⟨buffer', htransfer, by simp⟩
  | false => exact ⟨_, transfer_reads hdvd seg hdata hseg, fun _ => rfl⟩

theorem readRequest_cons {blocksize : ℕ} : readRequest blocksize plain
    (⟨id, cmdType, write, pos, seg :: segs⟩ : Request ι (Bytes w)) =
      (if write then [] else [(id, readInto blocksize plain pos seg)]) ++
        readRequest blocksize plain ⟨id, cmdType, write, pos + seg.sectors, segs⟩ := by
  cases write with
  | true => rfl
  | false => rfl

/-- The reads of one request are not between its writes. -/
theorem readRequest_applySegment :
    readRequest tfm.blocksize (plainText tfm (applySegment tfm data write pos seg))
      (⟨id, cmdType, write, start, segs⟩ : Request ι (Bytes w)) =
    readRequest tfm.blocksize (plainText tfm data) ⟨id, cmdType, write, start, segs⟩ := by
  cases write with
  | true => rfl
  | false => rfl

theorem servePass_fs {buffer' : Bytes w} (hreq : s.loop.req = some r) (hcmd : r.cmdType = reqTypeFs)
    (htransfer : brddTransfer tfm 512 s.data r.pos r.curSectors (r.curData.getD noData) r.write =
      some (data', buffer')) : servePass tfm s = some ⟨data', pass s.loop,
        s.buffers ++ if r.write ∨ r.curData.isNone then [] else [(r.id, buffer')]⟩ := by
  simp only [servePass, hreq, hcmd, htransfer, ne_eq, not_true_eq_false, if_false, Option.map_some]

theorem request_answered (hdvd : tfm.blocksize ∣ 512) (queue : List (Request ι (Bytes w))) (id : ι)
    (write : Bool) (pos : ℕ) (segs : List (Segment (Bytes w))) (log : List (Action ι (Bytes w)))
    (data : Bytes w) (buffers : List (ι × Bytes w))
    (hsegs : ∀ seg ∈ segs, seg.data.size = seg.sectors * 512)
    (hrange : (pos + sectorsOf segs) * 512 ≤ data.size) :
    ∃ n log', servePasses tfm n
        ⟨data, ⟨queue, some ⟨id, reqTypeFs, write, pos, segs⟩, log⟩, buffers⟩ =
      some ⟨applyRequest tfm data ⟨id, reqTypeFs, write, pos, segs⟩, fetch ⟨queue, none, log'⟩,
        buffers ++ readRequest tfm.blocksize (plainText tfm data)
          ⟨id, reqTypeFs, write, pos, segs⟩⟩ := by
  induction segs generalizing pos log data buffers with
  | nil =>
    rw [sectorsOf, List.map_nil, List.sum_nil, Nat.add_zero] at hrange
    obtain ⟨buffer', htransfer⟩ := transfer_none write hdvd hrange
    refine ⟨1, log ++ served id write pos [], ?_⟩
    rw [servePasses, servePass_fs rfl rfl htransfer, applyRequest_nil]
    simp [servePasses, pass, served, LoopState.record, Request.endCur, Request.curSectors,
      Request.curData, fetch, readRequest, readSegments]
  | cons seg segs ih =>
    have hseg := hsegs seg List.mem_cons_self
    have hsegs' := fun s hs => hsegs s (List.mem_cons_of_mem seg hs)
    rw [sectorsOf, List.map_cons, List.sum_cons, ← sectorsOf] at hrange
    have hfirst : pos * 512 + seg.sectors * 512 ≤ data.size := by
      rw [← Nat.add_mul]
      exact (Nat.mul_le_mul_right 512 (by omega)).trans hrange
    obtain ⟨buffer', htransfer, hbuffer⟩ := transfer_served hdvd seg write hfirst hseg
    have hrecorded : (if write = true ∨ (some seg.data).isNone = true then [] else [(id, buffer')]) =
        if write then [] else [(id, readInto tfm.blocksize (plainText tfm data) pos seg)] := by
      cases write with
      | true => rfl
      | false =>
        rw [hbuffer rfl]
        rfl
    have hpass : servePass tfm
        ⟨data, ⟨queue, some ⟨id, reqTypeFs, write, pos, seg :: segs⟩, log⟩, buffers⟩ =
          some ⟨applySegment tfm data write pos seg,
            pass ⟨queue, some ⟨id, reqTypeFs, write, pos, seg :: segs⟩, log⟩, buffers ++
              if write then [] else [(id, readInto tfm.blocksize (plainText tfm data) pos seg)]⟩ := by
      rw [← hrecorded]
      exact servePass_fs (s := ⟨data, ⟨queue, some _, log⟩, buffers⟩)
        (r := ⟨id, reqTypeFs, write, pos, seg :: segs⟩) rfl rfl htransfer
    rw [applyRequest_cons hdvd, readRequest_cons, ← List.append_assoc]
    cases segs with
    | nil =>
      refine ⟨1, log ++ served id write pos [seg], ?_⟩
      rw [servePasses, hpass, applyRequest_nil]
      simp [servePasses, pass, served, LoopState.record, Request.endCur, Request.curSectors,
        Request.curData, fetch, readRequest, readSegments]
    | cons next segs =>
      have hsize : (applySegment tfm data write pos seg).size = data.size := by
        rw [applySegment]
        split_ifs <;> rfl
      obtain ⟨n, log', hn⟩ := ih (pos + seg.sectors)
        (log ++ [.look id, .transfer id pos seg.sectors (some seg.data) write, .endCur id])
        (applySegment tfm data write pos seg)
        (buffers ++ if write then [] else
          [(id, readInto tfm.blocksize (plainText tfm data) pos seg)])
        hsegs' (by rw [hsize, Nat.add_assoc]; exact hrange)
      refine ⟨n + 1, log', ?_⟩
      rw [readRequest_applySegment] at hn
      rw [servePasses, hpass, Option.bind_some, pass_fs, hn]

end Requests

theorem servePasses_add {n m : ℕ} {s t : Serving ι w} (h : servePasses tfm n s = some t) :
    servePasses tfm (n + m) s = servePasses tfm m t := by
  induction n generalizing s with
  | zero => rw [← Option.some.inj h, Nat.zero_add]
  | succ n ih =>
    obtain ⟨u, hu, ht⟩ := Option.bind_eq_some_iff.mp h
    rw [Nat.succ_add, servePasses, hu]
    exact ih ht

theorem servePasses_device {n : ℕ} {s t : Serving ι w} (h : servePasses tfm n s = some t) :
    devicePasses tfm n (s.data, s.loop) = some (t.data, t.loop) := by
  induction n generalizing s with
  | zero =>
    obtain rfl := Option.some.inj h
    rfl
  | succ n ih =>
    obtain ⟨u, hu, ht⟩ := Option.bind_eq_some_iff.mp h
    rw [devicePasses, ← servePass_device, hu, Option.map_some, Option.bind_some, ih ht]

theorem queue_answered (hinv : Function.LeftInverse tfm.decryptOne tfm.encryptOne)
    (hdvd : tfm.blocksize ∣ 512) (hfs : ∀ r ∈ queue, r.cmdType = reqTypeFs)
    (hqueue : ∀ r ∈ queue, OnDevice data r) (log : List (Action ι (Bytes w)))
    (buffers : List (ι × Bytes w)) :
    ∃ n log' data', servePasses tfm n ⟨data, fetch ⟨queue, none, log⟩, buffers⟩ =
        some ⟨data', ⟨[], none, log'⟩,
          buffers ++ readQueue tfm.blocksize (plainText tfm data) queue⟩ ∧
      plainText tfm data' = queue.foldl plainAfter (plainText tfm data) := by
  induction queue generalizing data log buffers with
  | nil =>
    refine ⟨0, log, data, ?_, rfl⟩
    rw [readQueue, List.append_nil]
    rfl
  | cons r queue ih =>
    have hr : r = ⟨r.id, reqTypeFs, r.write, r.pos, r.segments⟩ := by
      rw [← hfs r List.mem_cons_self]
    have hon := hqueue r List.mem_cons_self
    obtain ⟨n, log₁, hn⟩ := request_answered hdvd queue r.id r.write r.pos r.segments log data
      buffers hon.segments hon.range
    rw [← hr] at hn
    have hrest : ∀ r' ∈ queue, OnDevice (applyRequest tfm data r) r' := by
      intro r' hr'
      have hon' := hqueue r' (List.mem_cons_of_mem r hr')
      exact ⟨by rw [applyRequest_size]; exact hon'.range, hon'.segments⟩
    obtain ⟨m, log₂, data', hm, hplain⟩ := ih (fun r' hr' => hfs r' (List.mem_cons_of_mem r hr'))
      hrest log₁ (buffers ++ readRequest tfm.blocksize (plainText tfm data) r)
    rw [plainText_applyRequest hinv hdvd] at hm hplain
    refine ⟨n + m, log₂, data', ?_, ?_⟩
    · have hfetch : fetch ⟨r :: queue, none, log⟩ = ⟨queue, some r, log⟩ := rfl
      rw [hfetch, servePasses_add hn, hm, readQueue, List.append_assoc]
    · rw [hplain, List.foldl_cons]

/-- `brdd_request` refines a disk that keeps plaintext: a queue of requests changes the decryption of
the data as its writes, in order, change the plaintext; and each segment that is read gets, from the
plaintext at that moment, the last block of its sectors at its start, and nothing else. -/
theorem refines_plain_disk (hinv : Function.LeftInverse tfm.decryptOne tfm.encryptOne)
    (hdvd : tfm.blocksize ∣ 512) (data : Bytes w) (queue : List (Request ι (Bytes w)))
    (hfs : ∀ r ∈ queue, r.cmdType = reqTypeFs) (hqueue : ∀ r ∈ queue, OnDevice data r) :
    ∃ passes data', serveRequest tfm data queue passes = some ⟨data', brddRequest queue passes,
        readQueue tfm.blocksize (plainText tfm data) queue⟩ ∧
      (brddRequest queue passes).req = none ∧ (brddRequest queue passes).queue = [] ∧
      plainText tfm data' = queue.foldl plainAfter (plainText tfm data) := by
  obtain ⟨n, log, data', hn, hplain⟩ := queue_answered hinv hdvd hfs hqueue [] []
  have hcontrol : ⟨[], none, log⟩ = brddRequest queue n := devicePasses_control (servePasses_device hn)
  refine ⟨n, data', ?_, ?_, ?_, hplain⟩
  · rw [serveRequest, hn, hcontrol, List.nil_append]
  · rw [← hcontrol]
  · rw [← hcontrol]

/-- The text can be found on the device, but what is read of it is its last block. -/
theorem refines_plain_disk_twoRequests : ∃ passes data' buffer,
    serveRequest (keyCipher 16) disk twoRequests passes =
      some ⟨data', brddRequest twoRequests passes, [(1, buffer)]⟩ ∧
    plainText (keyCipher 16) data' 17 = 17 ∧ plainText (keyCipher 16) data' 529 = 17 ∧
    buffer.byte 1 = 241 ∧ buffer.byte 17 = 0 := by
  have hqueue : ∀ r ∈ twoRequests, OnDevice disk r := by
    intro r hr
    rcases List.mem_cons.mp hr with rfl | hr
    · exact ⟨by decide, by simp [text]⟩
    · obtain rfl := List.mem_singleton.mp hr
      exact ⟨by decide, by simp [blank]⟩
  obtain ⟨passes, data', hserve, -, -, hplain⟩ := refines_plain_disk (keyCipher_inv 16)
    (show (keyCipher 16).blocksize ∣ 512 by decide) disk twoRequests (by decide) hqueue
  refine ⟨passes, data', _, hserve, ?_, ?_, ?_, ?_⟩
  · rw [hplain]
    decide +kernel
  · rw [hplain]
    decide +kernel
  · decide +kernel
  · decide +kernel

end OperatingSystems.Brdd
