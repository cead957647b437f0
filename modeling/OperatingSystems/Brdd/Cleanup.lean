import Mathlib.Data.Int.Notation
import OperatingSystems.Brdd.Lifecycle
import OperatingSystems.Library.Touches

namespace OperatingSystems.Brdd

open Library

/-- What a load acquires; the registration is the one of the gendisk, by `add_disk`. -/
inductive Item where
  | data | queue | major | gendisk | registration | cipher
  deriving DecidableEq

/-- The module, the `major_num` it was loaded with, and what has been done to its resources since. -/
structure Ledger where
  life : Life
  majorNum : ℤ
  log : List (Touch Item)

inductive LedgerEvent where
  | load (key : List UInt8) (majorNum : ℤ)
  | call (ok : Bool)
  | unload
  | request

/-- `unregister_blkdev(major_num, "brdd")`: for a number that it is given `register_blkdev` returns 0,
which then stands in `major_num`. -/
def unregisterBlkdev (s : Ledger) : List (Touch Item) :=
  if s.majorNum = 0 then [.release .major] else []

/-- A call of the cipher: only a handle leads to one. -/
def cipherTouches : Tfm → List (Touch Item)
  | .null | .errPtr => []
  | .handle _ | .freed => [.use .cipher]

/-- What the next kernel call does to the resources. -/
def callTouches (s : Ledger) (ok : Bool) : List (Touch Item) :=
  match s.life.point with
  | .vmalloc => if ok then [.acquire .data] else []
  | .initQueue => if ok then [.acquire .queue, .use .queue] else [] -- with its block size
  | .register => if ok then [.acquire .major] else []
  | .allocDisk => if ok then [.acquire .gendisk] else []
  | .addDisk => [.use .gendisk, .use .queue, .use .major, .acquire .registration]
  | .allocCipher => if ok then [.acquire .cipher] else []
  | .setKey => cipherTouches s.life.tfm
  | .outUnregister => unregisterBlkdev s
  | .out => [.release .data]
  | .delGendisk => [.use .gendisk, .use .queue, .release .registration]
  | .putDisk => [.release .gendisk]
  | .freeCipher => [.release .cipher]
  | .unregister => unregisterBlkdev s
  | .cleanupQueue => [.release .queue]
  | .unloaded | .loaded | .crashed => []

/-- What `brdd_request` uses. -/
def requestTouches (s : Ledger) : List (Touch Item) :=
  [.use .queue, .use .data] ++ cipherTouches s.life.tfm

def ledgerStep (s : Ledger) : LedgerEvent → Option Ledger
  | .load key majorNum => (lifeStep s.life (.load key)).map fun life => ⟨life, majorNum, []⟩
  | .call ok => (lifeStep s.life (.call ok)).map fun life =>
      { s with life := life, log := s.log ++ callTouches s ok }
  | .unload => (lifeStep s.life .unload).map fun life => { s with life := life }
  | .request => (lifeStep s.life .request).map fun life =>
      { s with life := life, log := s.log ++ requestTouches s }

def ledgers : Machine Ledger LedgerEvent where
  init s := s = ⟨neverLoaded, 0, []⟩
  step := ledgerStep

/-- `brdd_init` has failed, or crashed, or `brdd_exit` has returned. -/
def LifePoint.Over (p : LifePoint) : Prop := p = .unloaded ∨ p = .crashed

/-- Whatever a round that is over has acquired is released exactly once, and none of it is used after
its release. -/
def LeavesNothing (s : Ledger) : Prop :=
  Touch.UsedInTime s.log ∧ (s.life.point.Over → Touch.Settled s.log)

/-- `blk_init_queue` fails, if `vmalloc` does not. -/
def QueueFails (s : Ledger) (e : LedgerEvent) : Prop := s.life.point = .initQueue → e ≠ .call true

/-- Rounds in which no queue is acquired. -/
def Good (s : Ledger) : Prop :=
  s.life.visible = false ∧
  match s.life.point with
  | .unloaded => s.log = [] ∨ s.log = [.acquire .data, .release .data]
  | .vmalloc => s.log = []
  | .initQueue | .out => s.log = [.acquire .data]
  | _ => False

/-- A round with a queue: on the way out of `brdd_init` the queue is forgotten, in `brdd_exit` the data
area. -/
def Doomed (s : Ledger) : Prop :=
  .acquire .data ∈ s.log ∧ .acquire .queue ∈ s.log ∧
  match s.life.point with
  | .register | .allocDisk | .addDisk | .allocCipher | .setKey | .loaded =>
    .release .data ∉ s.log ∧ .release .queue ∉ s.log
  | .outUnregister | .out => .release .queue ∉ s.log
  | .delGendisk | .putDisk | .freeCipher | .unregister | .cleanupQueue => .release .data ∉ s.log
  | _ => False

variable {s t : Ledger} {e : LedgerEvent}

@[simp] theorem mem_unregisterBlkdev {touch : Touch Item} :
    touch ∈ unregisterBlkdev s ↔ s.majorNum = 0 ∧ touch = .release .major := by
  rw [unregisterBlkdev]
  split_ifs with hzero
  · simp [hzero]
  · simp [hzero]

@[simp] theorem release_not_mem_cipherTouches (tfm : Tfm) (i : Item) :
    .release i ∉ cipherTouches tfm := by
  cases tfm <;> simp [cipherTouches]

@[simp] theorem release_not_mem_requestTouches (i : Item) : .release i ∉ requestTouches s := by
  simp [requestTouches]

theorem settled_data : Touch.Settled [Touch.acquire Item.data, .release .data] := by
  intro i hi
  have hdata : i = .data := by simpa using hi
  rw [hdata]
  decide

theorem good_leavesNothing (h : Good s) : LeavesNothing s := by
  obtain ⟨-, hlog⟩ := h
  cases hp : s.life.point with
  | unloaded =>
    simp only [hp] at hlog
    rcases hlog with hlog | hlog
    · rw [LeavesNothing, hlog]
      exact ⟨Touch.usedInTime_of_not_mem (by simp), fun _ i hi => absurd hi List.not_mem_nil⟩
    · rw [LeavesNothing, hlog]
      exact ⟨Touch.usedInTime_of_not_mem (by simp), fun _ => settled_data⟩
  | vmalloc | initQueue | out =>
    simp only [hp] at hlog
    rw [LeavesNothing, hlog, hp]
    refine ⟨Touch.usedInTime_of_not_mem (by simp), fun hover => ?_⟩
    exact absurd hover (by simp [LifePoint.Over])
  | _ => simp [hp] at hlog

theorem ledgerStep_cases (hs : ledgerStep s e = some t) :
    (∃ key majorNum, e = .load key majorNum ∧ s.life.point = .unloaded ∧ t =
      ⟨⟨.vmalloc, key, .absent, .absent, .absent, .absent, .null, s.life.visible⟩, majorNum, []⟩) ∨
    (∃ ok life, e = .call ok ∧ kernelCall s.life ok = some life ∧
      t = ⟨life, s.majorNum, s.log ++ callTouches s ok⟩) ∨
    (e = .unload ∧ s.life.point = .loaded ∧
      t = ⟨{ s.life with point := .delGendisk }, s.majorNum, s.log⟩) ∨
    (e = .request ∧ s.life.visible = true ∧
      t = ⟨s.life, s.majorNum, s.log ++ requestTouches s⟩) := by
  cases e with
  | load key majorNum =>
    obtain ⟨life, hlife, rfl⟩ := Option.map_eq_some_iff.mp hs
    rw [lifeStep, Option.ite_none_right_eq_some] at hlife
    obtain ⟨hp, hlife⟩ := hlife
    obtain rfl := Option.some.inj hlife
    exact .inl ⟨key, majorNum, rfl, hp, rfl⟩
  | call ok =>
    obtain ⟨life, hlife, rfl⟩ := Option.map_eq_some_iff.mp hs
    exact .inr (.inl ⟨ok, life, rfl, hlife, rfl⟩)
  | unload =>
    obtain ⟨life, hlife, rfl⟩ := Option.map_eq_some_iff.mp hs
    rw [lifeStep, Option.ite_none_right_eq_some] at hlife
    obtain ⟨hp, hlife⟩ := hlife
    obtain rfl := Option.some.inj hlife
    exact .inr (.inr (.inl ⟨rfl, hp, rfl⟩))
  | request =>
    obtain ⟨life, hlife, rfl⟩ := Option.map_eq_some_iff.mp hs
    rw [lifeStep, Option.ite_none_right_eq_some] at hlife
    obtain ⟨hvisible, hlife⟩ := hlife
    obtain rfl := Option.some.inj hlife
    exact .inr (.inr (.inr ⟨rfl, hvisible, rfl⟩))

/-- A round without a queue goes on, or ends, without one. -/
theorem good_step (h : Good s) (hfails : QueueFails s e) (hs : ledgerStep s e = some t) : Good t := by
  obtain ⟨hvisible, hlog⟩ := h
  rcases ledgerStep_cases hs with ⟨key, majorNum, rfl, hp, rfl⟩ | ⟨ok, life, rfl, hcall, rfl⟩ |
    ⟨rfl, hp, rfl⟩ | ⟨rfl, hseen, rfl⟩
  · exact ⟨hvisible, rfl⟩
  · obtain ⟨p, hp⟩ : ∃ p, s.life.point = p := ⟨_, rfl⟩
    cases kernelCall_does hp hcall with
    | vmalloc | noData | noQueue | out =>
      simp only [hp] at hlog
      simp [Good, callTouches, hp, hlog, hvisible]
    | initQueue => exact absurd rfl (hfails hp)
    | _ => simp [hp] at hlog
  · simp [hp] at hlog
  · rw [hvisible] at hseen
    exact absurd hseen Bool.false_ne_true

theorem doomed_of_queue (h : Good s) (hp : s.life.point = .initQueue)
    (hs : ledgerStep s (.call true) = some t) : Doomed t := by
  have hlog := h.2
  simp only [hp] at hlog
  simp only [ledgerStep, lifeStep, kernelCall, callTouches, hp, hlog] at hs
  obtain rfl := Option.some.inj hs
  simp [Doomed]

/-- A round with a queue ends with a resource that it has not released. -/
theorem doomed_step (h : Doomed s) (hs : ledgerStep s e = some t) :
    Doomed t ∨ t.life.point.Over ∧ ¬ Touch.Settled t.log := by
  obtain ⟨hdata, hqueue, hkept⟩ := h
  rcases ledgerStep_cases hs with ⟨key, majorNum, rfl, hp, rfl⟩ | ⟨ok, life, rfl, hcall, rfl⟩ |
    ⟨rfl, hp, rfl⟩ | ⟨rfl, hseen, rfl⟩
  · simp [hp] at hkept
  · obtain ⟨p, hp⟩ : ∃ p, s.life.point = p := ⟨_, rfl⟩
    simp only [hp] at hkept
    cases kernelCall_does hp hcall with
    | vmalloc | noData | initQueue | noQueue => exact hkept.elim
    | crash =>
      -- `brdd_init` does not come back, and everything is left
      refine .inr ⟨.inr rfl, Touch.not_settled (List.mem_append_left _ hdata) ?_⟩
      simp [callTouches, hp, hkept]
    | out =>
      -- the queue is left
      refine .inr ⟨.inl rfl, Touch.not_settled (List.mem_append_left _ hqueue) ?_⟩
      simp [callTouches, hp, hkept]
    | cleanupQueue =>
      -- the data area is left
      refine .inr ⟨.inl rfl, Touch.not_settled (List.mem_append_left _ hdata) ?_⟩
      simp [callTouches, hp, hkept]
    | _ =>
      left
      simp [Doomed, callTouches, hp, hdata, hqueue, hkept]
  · left
    simp only [hp] at hkept
    exact ⟨hdata, hqueue, hkept.1⟩
  · left
    refine ⟨List.mem_append_left _ hdata, List.mem_append_left _ hqueue, ?_⟩
    cases hp : s.life.point <;> simp [hp] at hkept ⊢ <;> simp [hkept]

/-- A run that goes on from a round with a queue, up to the end of a round, does not leave nothing. -/
theorem doomed_run {es : List LedgerEvent} (h : Doomed s) (hr : ledgers.run s es = some t)
    (hover : t.life.point.Over) : ¬ ledgers.Always LeavesNothing s es := by
  intro halways
  induction es generalizing s with
  | nil =>
    obtain rfl := Option.some.inj hr
    have hkept := h.2.2
    rcases hover with hp | hp
    · simp [hp] at hkept
    · simp [hp] at hkept
  | cons e es ih =>
    obtain ⟨u, hu, hrest⟩ := Machine.run_cons_eq_some.mp hr
    have hnext := halways.2 u hu
    rcases doomed_step h hu with hdoomed | ⟨hend, hleft⟩
    · exact ih hdoomed hrest hnext
    · exact hleft (hnext.head.2 hend)

theorem good_run {es : List LedgerEvent} (h : Good s) (hr : ledgers.run s es = some t)
    (hover : t.life.point.Over) (halways : ledgers.Always LeavesNothing s es) :
    ledgers.Meets QueueFails s es := by
  induction es generalizing s with
  | nil => trivial
  | cons e es ih =>
    obtain ⟨u, hu, hrest⟩ := Machine.run_cons_eq_some.mp hr
    have hfails : QueueFails s e := by
      rintro hp rfl
      exact doomed_run (doomed_of_queue h hp hu) hrest hover (halways.2 u hu)
    refine ⟨hfails, fun v hv => ?_⟩
    obtain rfl : u = v := Option.some.inj (hu.symm.trans hv)
    exact ih (good_step h hfails hu) hrest (halways.2 u hu)

/-- In a run of complete rounds, whatever fails in them, all rounds release exactly what they have
acquired, once and after its last use, exactly when `blk_init_queue` never succeeds. -/
theorem leaves_nothing_iff {es : List LedgerEvent}
    (hr : ledgers.run ⟨neverLoaded, 0, []⟩ es = some t) (hover : t.life.point.Over) :
    ledgers.Always LeavesNothing ⟨neverLoaded, 0, []⟩ es ↔
      ledgers.Meets QueueFails ⟨neverLoaded, 0, []⟩ es := by
  have hgood : Good ⟨neverLoaded, 0, []⟩ := ⟨rfl, .inl rfl⟩
  refine ⟨good_run hgood hr hover, fun hmeets => ?_⟩
  have hall := Machine.Meets.always (I := Good) ?_ hgood hmeets
  · exact hall.mono fun s => good_leavesNothing
  · intro s e t hs hfails hstep
    exact good_step hs hfails hstep

instance QueueFails.decidable : ∀ s e, Decidable (QueueFails s e)
  | s, .call true => decidable_of_iff (s.life.point ≠ .initQueue)
      ⟨fun hne hp => absurd hp hne, fun h hp => h hp rfl⟩
  | _, .call false => isTrue fun _ => by simp
  | _, .load _ _ => isTrue fun _ => by simp
  | _, .unload => isTrue fun _ => by simp
  | _, .request => isTrue fun _ => by simp

/-- Two loads, one without memory and one without a queue. -/
theorem failed_loads_leave_nothing : ledgers.Always LeavesNothing ⟨neverLoaded, 0, []⟩
    [.load [] 0, .call false, .load [] 0, .call true, .call false, .call true] := by
  obtain ⟨s, hr, hover⟩ : ∃ s, ledgers.run ⟨neverLoaded, 0, []⟩
      [.load [] 0, .call false, .load [] 0, .call true, .call false, .call true] = some s ∧
      s.life.point = .unloaded := ⟨_, rfl, rfl⟩
  exact (leaves_nothing_iff hr (.inl hover)).mpr (by decide)

/-- What is left when `register_blkdev` fails, when `crypto_alloc_cipher` does, and by a load and an
unload with a major number from the module's parameter. -/
theorem loads_that_leave_something :
    (∃ s, ledgers.run ⟨neverLoaded, 0, []⟩ [.load [] 0, .call true, .call true, .call false,
        .call true] = some s ∧ s.life.point = .unloaded ∧
      s.log = [.acquire .data, .acquire .queue, .use .queue, .release .data] ∧ ¬ LeavesNothing s) ∧
    (∃ s, ledgers.run ⟨neverLoaded, 0, []⟩ [.load [] 0, .call true, .call true, .call true,
        .call true, .call true, .call false, .call true] = some s ∧ s.life.point = .crashed ∧
      (∀ i, .release i ∉ s.log) ∧ ¬ LeavesNothing s) ∧
    (∃ s, ledgers.run ⟨neverLoaded, 0, []⟩ ([.load (List.replicate 16 0x31) 240] ++
        List.replicate 7 (.call true) ++ [.unload] ++ List.replicate 5 (.call true)) = some s ∧
      s.life.point = .unloaded ∧ .acquire .data ∈ s.log ∧ .release .data ∉ s.log ∧
      .acquire .major ∈ s.log ∧ .release .major ∉ s.log ∧ ¬ LeavesNothing s) := by
  refine ⟨⟨_, rfl, rfl, rfl, fun h => ?_⟩, ⟨_, rfl, rfl, fun i => by cases i <;> decide, fun h => ?_⟩,
    _, rfl, rfl, by decide, by decide, by decide, by decide, fun h => ?_⟩
  · exact Touch.not_settled (i := .queue) (by decide) (by decide) (h.2 (.inl rfl))
  · exact Touch.not_settled (i := .queue) (by decide) (by decide) (h.2 (.inr rfl))
  · exact Touch.not_settled (i := .data) (by decide) (by decide) (h.2 (.inl rfl))

end OperatingSystems.Brdd
