import Mathlib.Algebra.Order.Ring.Int
import OperatingSystems.Library.BoundedStack

namespace OperatingSystems.ProducerConsumer

open Library

def maxBufferSize : ℕ := 32

structure Data where
  value : Int32
  waitTime : Int32
  deriving DecidableEq

/-- What the machine answers to `rdrand`: whether `cpuid` shows the instruction, and the word that
the instruction, or else `genrand_int32`, hands over. -/
structure Draw where
  hasRdrand : Bool
  word : UInt32

/-- A random word brought into the range that the caller asks for, in `unsigned int` arithmetic for
the instruction and in `unsigned long` for the twister. -/
def rdrand (min max : Int32) (draw : Draw) : Int32 :=
  if draw.hasRdrand then (draw.word % (max - min + 1).toUInt32 + min.toUInt32).toInt32
  else
    (draw.word.toUInt64 % (max - min + 1).toInt64.toUInt64 +
      min.toInt64.toUInt64).toInt64.toInt32

inductive Role where
  | producer
  | consumer
  deriving DecidableEq

/-- The points of `producer`, each before the statement it names; `data` is the thread's own. -/
inductive ProducerPoint where
  | lock | test | unlockFull | generate
  | store (data : Data)
  | count (data : Data)
  | unlock
  deriving DecidableEq

/-- The points of `consumer`. -/
inductive ConsumerPoint where
  | lock | test | unlockEmpty | load
  | count (data : Data)
  | sleep (data : Data)
  | unlock
  deriving DecidableEq

inductive Point where
  | producer (p : ProducerPoint)
  | consumer (c : ConsumerPoint)
  deriving DecidableEq

def Role.start : Role → Point
  | producer => .producer .lock
  | consumer => .consumer .lock

/-- The globals `buffer`, `num_items` and `mutex`, and where each thread stands. -/
structure State (τ : Type*) where
  buffer : Fin maxBufferSize → Data
  numItems : ℤ
  mutex : Option τ
  point : τ → Point

/-- The cell that an index of `buffer` names, if there is one. -/
def slot (i : ℤ) : Option (Fin maxBufferSize) :=
  if h : 0 ≤ i ∧ i < maxBufferSize then some ⟨i.toNat, by omega⟩ else none

section Step

variable {τ : Type*} [DecidableEq τ]

def State.goto (s : State τ) (t : τ) (p : Point) : State τ :=
  { s with point := Function.update s.point t p }

/-- A turn of a thread, with the draws that `rdrand` makes in it. -/
structure Turn (τ : Type*) where
  thread : τ
  draws : Draw × Draw

/-- One statement of `producer`; a lock that somebody holds blocks. -/
def producer (s : State τ) (t : τ) (draws : Draw × Draw) : ProducerPoint → Option (State τ)
  | .lock =>
    if s.mutex = none then some { s.goto t (.producer .test) with mutex := some t } else none
  | .test =>
    some (s.goto t (.producer (if s.numItems ≥ maxBufferSize then .unlockFull else .generate)))
  | .unlockFull => some { s.goto t (.producer .lock) with mutex := none }
  | .generate => some (s.goto t (.producer (.store ⟨rdrand 0 100 draws.1, rdrand 2 9 draws.2⟩)))
  | .store data => (slot s.numItems).map fun i =>
      { s.goto t (.producer (.count data)) with buffer := Function.update s.buffer i data }
  | .count _ => some { s.goto t (.producer .unlock) with numItems := s.numItems + 1 }
  | .unlock => some { s.goto t (.producer .lock) with mutex := none }

/-- One statement of `consumer`. -/
def consumer (s : State τ) (t : τ) : ConsumerPoint → Option (State τ)
  | .lock =>
    if s.mutex = none then some { s.goto t (.consumer .test) with mutex := some t } else none
  | .test => some (s.goto t (.consumer (if s.numItems = 0 then .unlockEmpty else .load)))
  | .unlockEmpty => some { s.goto t (.consumer .lock) with mutex := none }
  | .load => (slot (s.numItems - 1)).map fun i => s.goto t (.consumer (.count (s.buffer i)))
  | .count data => some { s.goto t (.consumer (.sleep data)) with numItems := s.numItems - 1 }
  | .sleep _ => some (s.goto t (.consumer .unlock))
  | .unlock => some { s.goto t (.consumer .lock) with mutex := none }

def step (s : State τ) (e : Turn τ) : Option (State τ) :=
  match s.point e.thread with
  | .producer p => producer s e.thread e.draws p
  | .consumer c => consumer s e.thread c

/-- What `main` starts: an empty buffer, a free mutex and threads of either role. -/
def machine (role : τ → Role) : Machine (State τ) (Turn τ) where
  init s := s = ⟨fun _ => ⟨0, 0⟩, 0, none, fun t => (role t).start⟩
  step := step

end Step

variable {τ : Type*}

/-- The index of `buffer` that the statement at a point uses. -/
def Point.index (numItems : ℤ) : Point → Option ℤ
  | .producer (.store _) => some numItems
  | .consumer .load => some (numItems - 1)
  | _ => none

def Point.Locks : Point → Prop
  | .producer .lock | .consumer .lock => True
  | _ => False

def Point.Unlocks : Point → Prop
  | .producer .unlockFull | .producer .unlock | .consumer .unlockEmpty | .consumer .unlock => True
  | _ => False

/-- The operation on the stack that takes effect at a point: where `num_items` changes. -/
def Point.stackOps : Point → List (StackOp Data)
  | .producer (.count data) => [.push data]
  | .consumer (.count data) => [.pop data]
  | _ => []

def stackOps (s : State τ) (e : Turn τ) : List (StackOp Data) := (s.point e.thread).stackOps

theorem slot_eq_some {i : ℤ} {k : Fin maxBufferSize} : slot i = some k ↔ i = k.val := by
  have hk := k.isLt
  unfold slot
  split_ifs with h
  · simp only [Option.some.injEq, Fin.ext_iff]
    omega
  · simp only [false_iff]
    omega

theorem slot_isSome {i : ℤ} : (∃ k, slot i = some k) ↔ 0 ≤ i ∧ i < maxBufferSize := by
  unfold slot
  split_ifs with h
  · simp [h]
  · simp [h]

end OperatingSystems.ProducerConsumer
