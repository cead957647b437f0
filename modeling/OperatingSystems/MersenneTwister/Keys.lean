import OperatingSystems.MersenneTwister.Outputs

namespace OperatingSystems.MersenneTwister

open Library

/-- What `init_by_array` adds in round `r` of its first loop: a word of the key, and its index. -/
def keySum {keyLength : ℕ} (key : Vector UInt64 keyLength) (hkey : 0 < keyLength) (r : ℕ) : BitVec 32 :=
  narrow (key.get ⟨r % keyLength, Nat.mod_lt r hkey⟩) + BitVec.ofNat 32 (r % keyLength)

/-- The word that the first loop makes of the word in its place and the one before. -/
def keyedWord (word prev sum : BitVec 32) : BitVec 32 :=
  (word ^^^ (shiftRightXor 30 prev * 1664525#32)) + sum

/-- The word that the second loop makes of them at `i`. -/
def mixedWord (word prev : BitVec 32) (i : ℕ) : BitVec 32 :=
  (word ^^^ (shiftRightXor 30 prev * 1566083941#32)) - BitVec.ofNat 32 i

/-- The words that the first loop leaves in one pass, of the sums it adds. -/
def keyedWords (sum : ℕ → BitVec 32) : ℕ → BitVec 32
  | 0 => seedWords 19650218#32 0
  | k + 1 => keyedWord (seedWords 19650218#32 (k + 1)) (keyedWords sum k) (sum k)

variable {keyLength : ℕ} {c d : Cursor keyLength}

theorem narrow_spread {mt : Vector UInt64 N} (h : Narrow mt) {i : ℕ} (hi : i < N) (factor : UInt64) :
    narrow (spread mt[i] factor) = shiftRightXor 30 (words mt i) * narrow factor := by
  have hshift := wide_shiftRight (narrow mt[i]) (show 30 < 64 by decide)
  have hmix : mt[i] ^^^ (mt[i] >>> 30) = wide (shiftRightXor 30 (narrow mt[i])) := by
    rw [shiftRightXor, ← wide_xor, ← hshift, ← h i hi]
    rfl
  rw [spread, hmix, narrow_mul, narrow_wide, words_of_lt hi]

theorem narrow_ofNat (i : ℕ) : narrow (UInt64.ofNat i) = BitVec.ofNat 32 i := by
  simp [narrow, UInt64.ofNat]

theorem words_set {mt : Vector UInt64 N} {i k : ℕ} (a : BitVec 32) (hi : i < N) :
    words (mt.set i (wide a)) k = if k = i then a else words mt k := by
  by_cases hk : k < N
  · rw [words_of_lt hk, words_of_lt hk, Vector.getElem_set]
    by_cases heq : i = k
    · rw [if_pos heq, if_pos heq.symm, narrow_wide]
    · rw [if_neg heq, if_neg (Ne.symm heq)]
  · have hne : k ≠ i := by omega
    rw [if_neg hne, words, words, dif_neg hk, dif_neg hk]

section Store

variable (c) (word : UInt64) {j : ℕ} (hj : j < keyLength)

theorem Cursor.store_i : (c.store word j hj).i = if c.i + 1 ≥ N then 1 else c.i + 1 := by
  unfold Cursor.store
  split_ifs <;> rfl

theorem Cursor.store_j : (c.store word j hj).j = j := by
  unfold Cursor.store
  split_ifs <;> rfl

/-- At the last place the word is stored twice. -/
theorem Cursor.store_mt_of_eq (hend : c.i = N - 1) :
    (c.store word j hj).mt = (c.mt.set c.i word c.i_lt).set 0 word := by
  have hle : c.i + 1 ≥ N := by omega
  have hlast : (c.mt.set c.i word c.i_lt)[N - 1] = word := by
    simp only [hend]
    exact Vector.getElem_set_self _
  unfold Cursor.store
  rw [dif_pos hle]
  exact congrArg ((c.mt.set c.i word c.i_lt).set 0) hlast

theorem Cursor.store_mt_of_lt (hlt : c.i + 1 < N) :
    (c.store word j hj).mt = c.mt.set c.i word c.i_lt := by
  unfold Cursor.store
  rw [dif_neg (Nat.not_le.mpr hlt)]

theorem Cursor.store_words (a : BitVec 32) {k : ℕ} (hk : 0 < k) :
    words (c.store (wide a) j hj).mt k = if k = c.i then a else words c.mt k := by
  have hi := c.i_lt
  by_cases hend : c.i = N - 1
  · rw [c.store_mt_of_eq _ hj hend, words_set a (show 0 < N by decide), if_neg (Nat.ne_of_gt hk),
      words_set a hi]
  · rw [c.store_mt_of_lt _ hj (by omega), words_set _ hi]

/-- A cursor that has come back to the first place finds the last word in front of it. -/
def Cursor.Wrapped (c : Cursor keyLength) : Prop := c.i = 1 → words c.mt 0 = words c.mt (N - 1)

theorem Cursor.store_wrapped (a : BitVec 32) : (c.store (wide a) j hj).Wrapped := by
  intro hone
  have hi := c.i_lt
  have hle := c.one_le
  rw [Cursor.store_i] at hone
  have hend : c.i = N - 1 := by
    split_ifs at hone <;> omega
  have hpos : 0 < N := by decide
  rw [c.store_mt_of_eq _ hj hend]
  calc words ((c.mt.set c.i (wide a) hi).set 0 (wide a) hpos) 0 = a := by
        rw [words_set a hpos, if_pos rfl]
    _ = words ((c.mt.set c.i (wide a) hi).set 0 (wide a) hpos) (N - 1) := by
        rw [words_set a hpos, if_neg (show N - 1 ≠ 0 by decide), words_set a hi, if_pos hend.symm]

end Store

theorem Cursor.mixKey_eq (key : Vector UInt64 keyLength) (hkey : 0 < keyLength) (h : Narrow c.mt)
    {r : ℕ} (hr : c.j = r % keyLength) : ∃ hj, c.mixKey key =
    c.store (wide (keyedWord (words c.mt c.i) (words c.mt (c.i - 1)) (keySum key hkey r)))
      ((r + 1) % keyLength) hj := by
  have hi := c.i_lt
  have hj := c.j_lt
  have hnext : (if c.j + 1 ≥ keyLength then 0 else c.j + 1) = (r + 1) % keyLength := by
    rw [← Nat.mod_add_mod, ← hr]
    split_ifs with hend
    · rw [show c.j + 1 = keyLength by omega, Nat.mod_self]
    · exact (Nat.mod_eq_of_lt (Nat.lt_of_not_le hend)).symm
  have hfactor : narrow 1664525 = 1664525#32 := by decide
  have hsum : narrow key[c.j] + BitVec.ofNat 32 c.j = keySum key hkey r := by
    simp only [hr]
    rfl
  refine ⟨Nat.mod_lt _ hkey, ?_⟩
  have hword : narrow ((c.mt[c.i] ^^^ spread c.mt[c.i - 1] 1664525) + key[c.j] + UInt64.ofNat c.j) =
      keyedWord (words c.mt c.i) (words c.mt (c.i - 1)) (keySum key hkey r) := by
    rw [narrow_add, narrow_add, narrow_xor, narrow_ofNat, narrow_spread h (by omega), hfactor,
      ← words_of_lt hi, BitVec.add_assoc, hsum, keyedWord]
  rw [Cursor.mixKey, and_mask, hword]
  simp only [hnext]

theorem Cursor.mix_eq (h : Narrow c.mt) : c.mix =
    c.store (wide (mixedWord (words c.mt c.i) (words c.mt (c.i - 1)) c.i)) c.j c.j_lt := by
  have hi := c.i_lt
  have hfactor : narrow 1566083941 = 1566083941#32 := by decide
  have hword : narrow ((c.mt[c.i] ^^^ spread c.mt[c.i - 1] 1566083941) - UInt64.ofNat c.i) =
      mixedWord (words c.mt c.i) (words c.mt (c.i - 1)) c.i := by
    rw [narrow_sub, narrow_xor, narrow_ofNat, narrow_spread h (by omega), hfactor, ← words_of_lt hi,
      mixedWord]
  rw [Cursor.mix, and_mask, hword]

/-- Two cursors at the same place, whose words agree from the second one on. -/
structure SameTail (c d : Cursor keyLength) : Prop where
  place : c.i = d.i
  word : ∀ k, 0 < k → k < N → words c.mt k = words d.mt k

/-- A round of the second loop can be taken back. -/
theorem SameTail.of_mix (hc : Narrow c.mt) (hd : Narrow d.mt) (hcw : c.Wrapped) (hdw : d.Wrapped)
    (hi : c.i = d.i) (h : SameTail c.mix d.mix) : SameTail c d := by
  have hone := c.one_le
  have hlt := c.i_lt
  have hother : ∀ k, 0 < k → k < N → k ≠ c.i → words c.mt k = words d.mt k := by
    intro k hpos hk hne
    have hword := h.word k hpos hk
    rwa [Cursor.mix_eq hc, Cursor.mix_eq hd, Cursor.store_words _ _ _ hpos,
      Cursor.store_words _ _ _ hpos, if_neg hne, if_neg (hi ▸ hne)] at hword
  have hprev : words c.mt (c.i - 1) = words d.mt (c.i - 1) := by
    rcases Nat.eq_or_lt_of_le hone with hfirst | hlater
    · rw [← hfirst, hcw hfirst.symm, hdw (hi ▸ hfirst.symm)]
      exact hother (N - 1) (by decide) (by decide) (by rw [← hfirst]; decide)
    · exact hother (c.i - 1) (by omega) (by omega) (by omega)
  have hhere : words c.mt c.i = words d.mt c.i := by
    have hword := h.word c.i hone hlt
    rw [Cursor.mix_eq hc, Cursor.mix_eq hd, Cursor.store_words _ _ _ hone,
      Cursor.store_words _ _ _ hone, if_pos rfl, if_pos hi, ← hi, mixedWord, mixedWord, hprev] at hword
    exact (BitVec.xor_left_inj _).mp ((BitVec.sub_left_inj _).mp hword)
  constructor
  · exact hi
  · intro k hpos hk
    by_cases heq : k = c.i
    · rw [heq]
      exact hhere
    · exact hother k hpos hk heq

/-- So can all its rounds. -/
theorem SameTail.of_iterate_mix (n : ℕ) (hc : Narrow c.mt) (hd : Narrow d.mt) (hcw : c.Wrapped)
    (hdw : d.Wrapped) (hi : c.i = d.i) (h : SameTail (Cursor.mix^[n] c) (Cursor.mix^[n] d)) :
    SameTail c d := by
  induction n generalizing c d with
  | zero => exact h
  | succ n ih =>
    rw [Function.iterate_succ_apply, Function.iterate_succ_apply] at h
    have hnext : c.mix.i = d.mix.i := by
      rw [Cursor.mix_eq hc, Cursor.mix_eq hd, Cursor.store_i, Cursor.store_i, hi]
    have hwrapped : ∀ {e : Cursor keyLength}, Narrow e.mt → e.mix.Wrapped := by
      intro e he
      rw [Cursor.mix_eq he]
      exact e.store_wrapped _ _
    exact SameTail.of_mix hc hd hcw hdw hi
      (ih (Cursor.mix_narrow hc) (Cursor.mix_narrow hd) (hwrapped hc) (hwrapped hd) hnext h)

/-- Where the first loop stands after round `r` of its pass through `mt`. -/
structure Keyed (sum : ℕ → BitVec 32) (r : ℕ) (c : Cursor keyLength) : Prop where
  bounded : Narrow c.mt
  wrapped : 0 < r → c.Wrapped
  place : c.i = if r < N - 1 then r + 1 else r - (N - 1) + 1
  key : c.j = r % keyLength
  first : r < N - 1 → words c.mt 0 = seedWords 19650218#32 0
  done : ∀ k, (if r < N then 0 else 1) < k → k ≤ r → k < N → words c.mt k = keyedWords sum k
  rest : ∀ k, r < k → k < N → words c.mt k = seedWords 19650218#32 k

theorem Keyed.start (hkey : 0 < keyLength) (g : State) (sum : ℕ → BitVec 32) :
    Keyed sum 0 (Cursor.start hkey g) := by
  have hseed : narrow 19650218 = 19650218#32 := by decide
  have hword : ∀ k, k < N → words (Cursor.start hkey g).mt k = seedWords 19650218#32 k := by
    intro k hk
    have hstored : (Cursor.start hkey g).mt[k] = wide (seedWords (narrow 19650218) k) :=
      initGenrand_word 19650218 g hk
    rw [words_of_lt hk, hstored, narrow_wide, hseed]
  exact
    { bounded := initGenrand_narrow 19650218 g
      wrapped := fun hpos => absurd hpos (Nat.lt_irrefl 0)
      place := rfl
      key := (Nat.zero_mod _).symm
      first := fun _ => hword 0 (by decide)
      done := fun k hpos hle _ => by
        rw [if_pos (by decide)] at hpos
        omega
      rest := fun k _ hk => hword k hk }

section Pass

variable {key : Vector UInt64 keyLength} {hkey : 0 < keyLength} {r : ℕ}

/-- A round of the first loop on the way through `mt`. -/
theorem Keyed.mixKey_of_lt (h : Keyed (keySum key hkey) r c) (hr : r < N - 1) :
    Keyed (keySum key hkey) (r + 1) (c.mixKey key) := by
  obtain ⟨hj, hmix⟩ := Cursor.mixKey_eq key hkey h.bounded h.key
  have hi : c.i = r + 1 := h.place.trans (if_pos hr)
  have hprev : words c.mt r = keyedWords (keySum key hkey) r := by
    rcases Nat.eq_zero_or_pos r with rfl | hpos
    · exact h.first hr
    · exact h.done r (by rw [if_pos (by omega)]; exact hpos) (Nat.le_refl r) (by omega)
  have hnew : keyedWord (words c.mt c.i) (words c.mt (c.i - 1)) (keySum key hkey r) =
      keyedWords (keySum key hkey) (r + 1) := by
    rw [hi, Nat.add_sub_cancel, hprev, h.rest (r + 1) (Nat.lt_succ_self r) (by omega), keyedWords]
  rw [hnew] at hmix
  rw [hmix]
  exact
    { bounded := Cursor.store_narrow h.bounded _ _
      wrapped := fun _ => c.store_wrapped _ _
      place := by
        rw [Cursor.store_i, hi]
        split_ifs <;> omega
      key := c.store_j _ _
      first := by
        intro hlt
        rw [c.store_mt_of_lt _ _ (by omega), words_set _ c.i_lt, if_neg (by omega)]
        exact h.first hr
      done := by
        intro k hpos hle hk
        rw [if_pos (by omega)] at hpos
        rw [c.store_words _ _ hpos, hi]
        by_cases heq : k = r + 1
        · rw [if_pos heq, heq]
        · rw [if_neg heq]
          exact h.done k (by rw [if_pos (by omega)]; exact hpos) (by omega) hk
      rest := by
        intro k hlt hk
        rw [c.store_words _ _ (by omega), if_neg (by omega)]
        exact h.rest k (by omega) hk }

/-- The round after the pass: it returns to the second word. -/
theorem Keyed.mixKey_last (h : Keyed (keySum key hkey) (N - 1) c) :
    Keyed (keySum key hkey) N (c.mixKey key) := by
  obtain ⟨hj, hmix⟩ := Cursor.mixKey_eq key hkey h.bounded h.key
  have hi : c.i = 1 := h.place.trans (if_neg (Nat.lt_irrefl _))
  rw [hmix]
  exact
    { bounded := Cursor.store_narrow h.bounded _ _
      wrapped := fun _ => c.store_wrapped _ _
      place := by
        rw [Cursor.store_i, hi]
        decide
      key := c.store_j _ _
      first := fun hlt => absurd hlt (by decide)
      done := by
        intro k hpos hle hk
        rw [if_neg (Nat.lt_irrefl N)] at hpos
        rw [c.store_words _ _ (by omega), if_neg (by omega)]
        exact h.done k (by rw [if_pos (by decide)]; omega) (by omega) hk
      rest := fun k hlt hk => absurd hlt (Nat.lt_asymm hk) }

/-- Keys that are no longer than `mt` go through it once, and on to the second word. -/
theorem keyed_spec (key : Vector UInt64 keyLength) (hkey : 0 < keyLength) (hlen : keyLength ≤ N)
    (g : State) : Keyed (keySum key hkey) N (keyed key hkey g) := by
  have hrounds : max N keyLength = N - 1 + 1 := Nat.max_eq_left hlen
  have hpass : ∀ r, r ≤ N - 1 →
      Keyed (keySum key hkey) r ((Cursor.mixKey key)^[r] (Cursor.start hkey g)) := by
    intro r
    induction r with
    | zero => exact fun _ => Keyed.start hkey g _
    | succ r ih =>
      intro hr
      rw [Function.iterate_succ_apply']
      exact (ih (by omega)).mixKey_of_lt (by omega)
  rw [keyed, hrounds, Function.iterate_succ_apply']
  exact (hpass (N - 1) (Nat.le_refl _)).mixKey_last

end Pass

/-- Outputs tell the words that a generator was started with, the first one's lower bits apart. -/
theorem start_of_outputs {x y : ℕ → BitVec 32} {g g' : State} (h : Runs x 0 g) (h' : Runs y 0 g')
    (hfull : g.mti = N) (hfull' : g'.mti = N) (hout : ∀ k, k < N → output g k = output g' k) :
    recurrence.Agree BitVec.msb x 0 y 0 := by
  have hwindow : ∀ i, i < recurrence.length → x (0 + N + i) = y (0 + N + i) := by
    intro i hi
    have hword := h.output i
    have hword' := h'.output i
    rw [hfull] at hword
    rw [hfull'] at hword'
    exact word_of_output hword hword' (hout i hi)
  exact Feedback.Agree.sub recurrence_reversible h.follows h'.follows N
    (Feedback.Agree.of_window hwindow)

/-- The multiplier of `init_genrand` is odd. -/
theorem multiplier_injective : Function.Injective fun a : BitVec 32 => 1812433253#32 * a := by
  have hinverse : 2520285293#32 * 1812433253#32 = 1#32 := by decide
  intro a b h
  calc a = 2520285293#32 * (1812433253#32 * a) := by rw [← BitVec.mul_assoc, hinverse, BitVec.one_mul]
    _ = 2520285293#32 * (1812433253#32 * b) := congrArg _ h
    _ = b := by rw [← BitVec.mul_assoc, hinverse, BitVec.one_mul]

/-- Two seeds give the same first `N` outputs exactly when their 32 low bits are the same. -/
theorem initGenrand_outputs_iff (s s' : UInt64) (g g' : State) :
    (∀ k, k < N → output (initGenrand s g) k = output (initGenrand s' g') k) ↔ narrow s = narrow s' := by
  have hruns := initGenrand_runs s g
  have hruns' := initGenrand_runs s' g'
  constructor
  · intro hout
    have hagree := start_of_outputs hruns hruns' rfl rfl hout
    have hone := hagree.rest 1 (by decide) (by decide)
    rw [Nat.zero_add, Feedback.stream_of_lt (by decide), Feedback.stream_of_lt (by decide)] at hone
    exact shiftRightXor_injective (by decide)
      (multiplier_injective ((BitVec.add_left_inj _).mp hone))
  · intro hseed k hk
    rw [hruns.output, hruns'.output, hseed]
    rfl

section Keys

variable {key key' : Vector UInt64 keyLength} {hkey : 0 < keyLength}

/-- From the words that the first loop leaves, the sums can be taken off again. -/
theorem sum_of_keyedWords {sum sum' : ℕ → BitVec 32} {m : ℕ}
    (hprev : keyedWords sum m = keyedWords sum' m)
    (hnext : keyedWords sum (m + 1) = keyedWords sum' (m + 1)) : sum m = sum' m := by
  rw [keyedWords, keyedWords, hprev] at hnext
  exact (BitVec.add_right_inj _).mp hnext

/-- All sums of the pass but the last are known, if the key is shorter than the pass. -/
theorem keySum_eq (hlen : keyLength ≤ N - 2)
    (h : ∀ k, 1 < k → k < N →
      keyedWords (keySum key hkey) k = keyedWords (keySum key' hkey) k) {m : ℕ} (hm : m < N - 1) :
    keySum key hkey m = keySum key' hkey m := by
  have hlater : ∀ m, 1 < m → m < N - 1 → keySum key hkey m = keySum key' hkey m :=
    fun m hone hm => sum_of_keyedWords (h m hone (by omega)) (h (m + 1) (by omega) (by omega))
  -- the first word of the key comes again after the last
  have hagain : ∀ (key : Vector UInt64 keyLength) (m : ℕ),
      keySum key hkey (m + keyLength) = keySum key hkey m := by
    intro key m
    simp only [keySum, Nat.add_mod_right]
  have hfirst : keySum key hkey 0 = keySum key' hkey 0 := by
    rcases Nat.lt_or_ge 1 keyLength with hlong | hshort
    · rw [← hagain key 0, ← hagain key' 0, Nat.zero_add]
      exact hlater keyLength hlong (by omega)
    · obtain rfl : keyLength = 1 := by omega
      rw [← hagain key 0, ← hagain key' 0, ← hagain key, ← hagain key']
      exact hlater 2 (by decide) (by decide)
  rcases Nat.lt_or_ge 1 m with hone | hle
  · exact hlater m hone hm
  · rcases Nat.le_one_iff_eq_zero_or_eq_one.mp hle with rfl | rfl
    · exact hfirst
    · apply sum_of_keyedWords
      · rw [keyedWords, keyedWords, keyedWords, hfirst]
        rfl
      · exact h 2 (by decide) (by decide)

theorem narrow_of_keySum (hkey : 0 < keyLength) {j : ℕ} (hj : j < keyLength)
    (h : keySum key hkey j = keySum key' hkey j) : narrow key[j] = narrow key'[j] := by
  have hmod := Nat.mod_eq_of_lt hj
  simp only [keySum, hmod] at h
  exact (BitVec.add_left_inj _).mp h

/-- Only the 32 low bits of a key's words count. -/
theorem mixKey_congr (h : ∀ j (hj : j < keyLength), narrow key[j] = narrow key'[j]) :
    Cursor.mixKey key = Cursor.mixKey key' := by
  funext c
  have hi := c.i_lt
  have hj := c.j_lt
  have hword : narrow ((c.mt[c.i] ^^^ spread c.mt[c.i - 1] 1664525) + key[c.j] + UInt64.ofNat c.j) =
      narrow ((c.mt[c.i] ^^^ spread c.mt[c.i - 1] 1664525) + key'[c.j] + UInt64.ofNat c.j) := by
    rw [narrow_add, narrow_add, narrow_add, narrow_add, h c.j hj]
  rw [Cursor.mixKey, Cursor.mixKey, and_mask, and_mask, hword]

/-- Only the first word is replaced after the two loops. -/
theorem words_initByArray (key : Vector UInt64 keyLength) (hkey : 0 < keyLength) (g : State) {k : ℕ}
    (hk : 0 < k) :
    words (initByArray key hkey g).mt k = words (Cursor.mix^[N - 1] (keyed key hkey g)).mt k := by
  have htop : (0x80000000 : UInt64) = wide 0x80000000#32 := by decide
  rw [initByArray, htop, words_set _ (by decide), if_neg (Nat.ne_of_gt hk)]

theorem Cursor.iterate_mix_i (n : ℕ) (h : c.i = d.i) : (Cursor.mix^[n] c).i = (Cursor.mix^[n] d).i := by
  induction n with
  | zero => exact h
  | succ n ih =>
    rw [Function.iterate_succ_apply', Function.iterate_succ_apply', Cursor.mix, Cursor.mix,
      Cursor.store_i, Cursor.store_i, ih]

/-- `init_by_array` loses nothing of a key of up to `N - 2` words: two such keys of one length give the
same first `N` outputs exactly when their words have the same 32 low bits. -/
theorem initByArray_outputs_iff (key key' : Vector UInt64 keyLength) (hkey : 0 < keyLength)
    (hlen : keyLength ≤ N - 2) (g g' : State) :
    (∀ k, k < N → output (initByArray key hkey g) k = output (initByArray key' hkey g') k) ↔
      ∀ j (hj : j < keyLength), narrow key[j] = narrow key'[j] := by
  constructor
  · intro hout j hj
    have hagree := start_of_outputs (initByArray_runs key hkey g) (initByArray_runs key' hkey g')
      rfl rfl hout
    have hspec := keyed_spec key hkey (by omega) g
    have hspec' := keyed_spec key' hkey (by omega) g'
    have hmixed : SameTail (Cursor.mix^[N - 1] (keyed key hkey g))
        (Cursor.mix^[N - 1] (keyed key' hkey g')) := by
      constructor
      · exact Cursor.iterate_mix_i (N - 1) (hspec.place.trans hspec'.place.symm)
      · intro k hpos hk
        have hword := hagree.rest k hpos hk
        rwa [Nat.zero_add, Feedback.stream_of_lt hk, Feedback.stream_of_lt hk,
          words_initByArray _ _ _ hpos, words_initByArray _ _ _ hpos] at hword
    have hkeyed := SameTail.of_iterate_mix (N - 1) hspec.bounded hspec'.bounded
      (hspec.wrapped (by decide)) (hspec'.wrapped (by decide)) (hspec.place.trans hspec'.place.symm)
      hmixed
    apply narrow_of_keySum hkey hj
    apply keySum_eq hlen _ (by omega)
    intro k hone hk
    have hlow : (if N < N then 0 else 1) < k := by
      rw [if_neg (Nat.lt_irrefl N)]
      exact hone
    rw [← hspec.done k hlow hk.le hk, ← hspec'.done k hlow hk.le hk]
    exact hkeyed.word k (by omega) hk
  · intro hsame k hk
    have hseeded : (initGenrand 19650218 g).mt = (initGenrand 19650218 g').mt := by
      apply Vector.ext
      intro i hi
      rw [initGenrand_word _ _ hi, initGenrand_word _ _ hi]
    have hstart : Cursor.start hkey g = Cursor.start hkey g' := by
      simp only [Cursor.start, hseeded]
    have hkeyed : keyed key hkey g = keyed key' hkey g' := by
      rw [keyed, keyed, mixKey_congr hsame, hstart]
    rw [initByArray, initByArray, hkeyed]

/-- Keys that differ in their last word. -/
theorem initByArray_outputs_differ :
    ¬ ∀ k, k < N → output (initByArray #v[1, 2] (by decide) State.unseeded) k =
      output (initByArray #v[1, 3] (by decide) State.unseeded) k :=
  fun h => absurd ((initByArray_outputs_iff #v[1, 2] #v[1, 3] (by decide) (by decide)
    State.unseeded State.unseeded).mp h 1 (by decide)) (by decide)

end Keys

end OperatingSystems.MersenneTwister
