import Mathlib.Data.Nat.Notation
import Mathlib.Logic.Function.Iterate
import OperatingSystems.Library.Machine

namespace OperatingSystems.MersenneTwister

open Library

abbrev N : ℕ := 624

abbrev M : ℕ := 397

theorem zero_lt_N : 0 < N := by decide

def matrixA : UInt64 := 0x9908b0df

/-- Most significant bit of a word. -/
def upperMask : UInt64 := 0x80000000

/-- The other bits. -/
def lowerMask : UInt64 := 0x7fffffff

/-- The globals `mt` and `mti`; `mti = N + 1` says that `mt` is not initialized. -/
structure State where
  mt : Vector UInt64 N
  mti : ℕ

/-- The globals before the first call. -/
def State.unseeded : State := ⟨Vector.replicate N 0, N + 1⟩

/-- What `init_genrand` stores after the word `prev`. -/
def seedWord (prev : UInt64) (mti : ℕ) : UInt64 :=
  ((1812433253 : UInt64) * (prev ^^^ (prev >>> 30)) + UInt64.ofNat mti) &&& 0xffffffff

/-- The loop of `init_genrand` leaves its counter `mti` at `N`. -/
def initGenrand (s : UInt64) (g : State) : State where
  mt := Nat.fold (N - 1) (fun k _ mt => mt.set (k + 1) (seedWord mt[k] (k + 1)))
    (g.mt.set 0 (s &&& 0xffffffff))
  mti := N

/-- Where the loops of `init_by_array` stand: `i` runs through `mt` from 1 on, `j` through the key. -/
structure Cursor (keyLength : ℕ) where
  mt : Vector UInt64 N
  i : ℕ
  j : ℕ
  one_le : 1 ≤ i
  i_lt : i < N
  j_lt : j < keyLength

/-- What both loops make of `mt[i - 1]`. -/
def spread (prev factor : UInt64) : UInt64 := (prev ^^^ (prev >>> 30)) * factor

section InitByArray

variable {keyLength : ℕ}

/-- Stores a word at `i` and counts on: past the last word `i` starts again at 1, and `mt[0]` becomes
a copy of the last word. -/
def Cursor.store (c : Cursor keyLength) (word : UInt64) (j : ℕ) (hj : j < keyLength) :
    Cursor keyLength :=
  have hi := c.i_lt
  let mt := c.mt.set c.i word
  if h : c.i + 1 ≥ N then ⟨mt.set 0 mt[N - 1], 1, j, Nat.le_refl 1, by decide, hj⟩
  else ⟨mt, c.i + 1, j, Nat.le_add_left 1 c.i, Nat.lt_of_not_le h, hj⟩

/-- One round of the first loop, which mixes the key in. -/
def Cursor.mixKey (key : Vector UInt64 keyLength) (c : Cursor keyLength) : Cursor keyLength :=
  have hi := c.i_lt
  have hj := c.j_lt
  c.store (((c.mt[c.i] ^^^ spread c.mt[c.i - 1] 1664525) + key[c.j] + UInt64.ofNat c.j) &&& 0xffffffff)
    (if c.j + 1 ≥ keyLength then 0 else c.j + 1) (by split <;> omega)

/-- One round of the second loop. -/
def Cursor.mix (c : Cursor keyLength) : Cursor keyLength :=
  have hi := c.i_lt
  c.store (((c.mt[c.i] ^^^ spread c.mt[c.i - 1] 1566083941) - UInt64.ofNat c.i) &&& 0xffffffff)
    c.j c.j_lt

/-- Where the first loop starts. -/
def Cursor.start (hkey : 0 < keyLength) (g : State) : Cursor keyLength :=
  ⟨(initGenrand 19650218 g).mt, 1, 0, Nat.le_refl 1, by decide, hkey⟩

/-- The first loop goes once through the longer of `mt` and the key. -/
def keyed (key : Vector UInt64 keyLength) (hkey : 0 < keyLength) (g : State) : Cursor keyLength :=
  (Cursor.mixKey key)^[max N keyLength] (Cursor.start hkey g)

/-- `init_by_array` of a key that is not empty: it reads `init_key[0]` in any case. -/
def initByArray (key : Vector UInt64 keyLength) (hkey : 0 < keyLength) (g : State) : State :=
  ⟨(Cursor.mix^[N - 1] (keyed key hkey g)).mt.set 0 0x80000000, N⟩

end InitByArray

/-- The table `mag01`: its index times `MATRIX_A`. -/
def mag01 (x : UInt64) : UInt64 := if x = 0 then 0 else matrixA

/-- A new word, of the word it replaces, that one's successor, and the word `M` places after it. -/
def twist (word succ far : UInt64) : UInt64 :=
  let y := (word &&& upperMask) ||| (succ &&& lowerMask)
  far ^^^ (y >>> 1) ^^^ mag01 (y &&& 1)

/-- One round of the loops that generate words: `mt[kk]` of its successor and the word at `far`. -/
def renew (mt : Vector UInt64 N) (kk succ far : Fin N) : Vector UInt64 N :=
  mt.set kk (twist (mt.get kk) (mt.get succ) (mt.get far))

theorem lt_of_lt_sub {kk : ℕ} (h : kk < N - M) : kk < N ∧ kk + 1 < N ∧ kk + M < N := by
  unfold N M at *
  omega

theorem sub_add_lt {k : ℕ} (h : k < M - 1) : N - M + k < N ∧ N - M + k + 1 < N ∧ k < N := by
  unfold N M at *
  omega

/-- The first loop, up to `kk = N - M`. -/
def renewLow (mt : Vector UInt64 N) : Vector UInt64 N :=
  Nat.fold (N - M) (fun kk h mt =>
    have hlt := lt_of_lt_sub h
    renew mt ⟨kk, hlt.1⟩ ⟨kk + 1, hlt.2.1⟩ ⟨kk + M, hlt.2.2⟩) mt

/-- The second loop goes on at `kk = N - M`, and its `kk + (M - N)` is how far it has come. -/
def renewHigh (mt : Vector UInt64 N) : Vector UInt64 N :=
  Nat.fold (M - 1) (fun k h mt =>
    have hlt := sub_add_lt h
    renew mt ⟨N - M + k, hlt.1⟩ ⟨N - M + k + 1, hlt.2.1⟩ ⟨k, hlt.2.2⟩) mt

/-- `N` words at one time, in the place of the old ones. -/
def refill (mt : Vector UInt64 N) : Vector UInt64 N :=
  renew (renewHigh (renewLow mt)) ⟨N - 1, by decide⟩ ⟨0, by decide⟩ ⟨M - 1, by decide⟩

/-- The state that `genrand_int32` takes its word from. -/
def State.ready (g : State) : State :=
  if g.mti ≥ N then ⟨refill (if g.mti = N + 1 then initGenrand 5489 g else g).mt, 0⟩ else g

theorem State.ready_lt (g : State) : g.ready.mti < N := by
  unfold State.ready
  by_cases h : g.mti ≥ N
  · rw [if_pos h]
    exact Nat.succ_pos 623
  · rw [if_neg h]
    exact Nat.lt_of_not_le h

def temper (y : UInt64) : UInt64 :=
  let y := y ^^^ (y >>> 11)
  let y := y ^^^ ((y <<< 7) &&& 0x9d2c5680)
  let y := y ^^^ ((y <<< 15) &&& 0xefc60000)
  y ^^^ (y >>> 18)

/-- A random word, and the state it leaves. -/
def genrandInt32 (g : State) : UInt64 × State :=
  have h := g.ready_lt
  (temper g.ready.mt[g.ready.mti], { g.ready with mti := g.ready.mti + 1 })

/-- The word without its lowest bit, as a `long`. -/
def genrandInt31 (g : State) : Int64 × State :=
  (((genrandInt32 g).1 >>> 1).toInt64, (genrandInt32 g).2)

/-- What a program can do with the generator. -/
inductive Call where
  | initGenrand (s : UInt64)
  | initByArray (keyLength : ℕ) (key : Vector UInt64 keyLength) (hkey : 0 < keyLength)
  | genrandInt32

def call (g : State) : Call → State
  | .initGenrand s => initGenrand s g
  | .initByArray _ key hkey => initByArray key hkey g
  | .genrandInt32 => (genrandInt32 g).2

/-- The generator under the calls of a program. -/
def machine : Machine State Call where
  init g := g = State.unseeded
  step g c := some (call g c)

/-- What the calls of `genrand_int32` from a state on return, one after the other. -/
def output (g : State) : ℕ → UInt64
  | 0 => (genrandInt32 g).1
  | k + 1 => output (genrandInt32 g).2 k

end OperatingSystems.MersenneTwister
