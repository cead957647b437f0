import Mathlib.Data.Nat.Notation
import Mathlib.Tactic.SplitIfs
import OperatingSystems.Library.Machine

namespace OperatingSystems.Brdd

open Library

inductive Resource where
  | absent
  | held
  | released
  deriving DecidableEq

/-- What `tfm` holds: `NULL`, an `ERR_PTR`, a handle with or without a key, a freed handle. -/
inductive Tfm where
  | null
  | errPtr
  | handle (keyed : Bool)
  | freed
  deriving DecidableEq

/-- The points of `brdd_init` and `brdd_exit`, each before the call it names; `crashed` is after a
call that dereferences an `ERR_PTR`. -/
inductive LifePoint where
  | unloaded
  | vmalloc | initQueue | register | allocDisk | addDisk | allocCipher | setKey
  | loaded | crashed
  | outUnregister | out
  | delGendisk | putDisk | freeCipher | unregister | cleanupQueue
  deriving DecidableEq

/-- The module: its static variables, and whether its disk is visible. -/
structure Life where
  point : LifePoint
  key : List UInt8
  data : Resource
  queue : Resource
  major : Resource
  gendisk : Resource
  tfm : Tfm
  visible : Bool
  deriving DecidableEq

inductive LifeEvent where
  | load (key : List UInt8)
  | call (ok : Bool)
  | unload
  | request
  deriving DecidableEq

/-- What `crypto_cipher_setkey` accepts for `aes`. -/
def aesKeyLengths : List ℕ := [16, 24, 32]

def validKey (key : List UInt8) : Bool := key.length ∈ aesKeyLengths

/-- `crypto_alloc_cipher`: a failure is not `NULL`. -/
def cryptoAllocCipher (ok : Bool) : Tfm := if ok then .handle false else .errPtr

/-- The next kernel call, which succeeds or fails if it can fail. -/
def kernelCall (s : Life) (ok : Bool) : Option Life :=
  match s.point with
  | .vmalloc => some (if ok then { s with point := .initQueue, data := .held }
      else { s with point := .unloaded })
  | .initQueue => some (if ok then { s with point := .register, queue := .held }
      else { s with point := .out })
  | .register => some (if ok then { s with point := .allocDisk, major := .held }
      else { s with point := .out })
  | .allocDisk => some (if ok then { s with point := .addDisk, gendisk := .held }
      else { s with point := .outUnregister })
  | .addDisk => some { s with point := .allocCipher, visible := true }
  | .allocCipher =>
    let tfm := cryptoAllocCipher ok
    some { s with tfm := tfm, point := if tfm = .null then .outUnregister else .setKey }
  | .setKey =>
    match s.tfm with
    | .handle _ => some { s with point := .loaded, tfm := .handle (validKey s.key) }
    | _ => some { s with point := .crashed }
  | .outUnregister => some { s with point := .out, major := .released }
  | .out => some { s with point := .unloaded, data := .released }
  | .delGendisk => some { s with point := .putDisk, visible := false }
  | .putDisk => some { s with point := .freeCipher, gendisk := .released }
  | .freeCipher => some { s with point := .unregister, tfm := .freed }
  | .unregister => some { s with point := .cleanupQueue, major := .released }
  | .cleanupQueue => some { s with point := .unloaded, queue := .released }
  | .unloaded | .loaded | .crashed => none

/-- Loading starts from fresh static variables; a request can come while the disk is visible. -/
def lifeStep (s : Life) : LifeEvent → Option Life
  | .load key =>
    if s.point = .unloaded then
      some ⟨.vmalloc, key, .absent, .absent, .absent, .absent, .null, s.visible⟩
    else none
  | .call ok => kernelCall s ok
  | .unload => if s.point = .loaded then some { s with point := .delGendisk } else none
  | .request => if s.visible then some s else none

def neverLoaded : Life := ⟨.unloaded, [], .absent, .absent, .absent, .absent, .null, false⟩

def lifecycle : Machine Life LifeEvent where
  init s := s = neverLoaded
  step := lifeStep

/-- What `brdd_transfer` needs: the data area, and a cipher on which a key has been set. -/
def FullyBuilt (s : Life) : LifeEvent → Prop
  | .request => s.visible = true → s.data = .held ∧ s.tfm = .handle true
  | _ => True

/-- A request comes after `brdd_init` has returned 0 and with a key that the cipher accepts. -/
def AfterInit (s : Life) : LifeEvent → Prop
  | .request => s.visible = true →
      (s.point = .loaded ∨ s.point = .delGendisk) ∧ s.key.length ∈ aesKeyLengths
  | _ => True

/-- What each point says about the disk, the data area and the cipher. -/
def Consistent (s : Life) : Prop :=
  match s.point with
  | .vmalloc => s.visible = false ∧ s.tfm = .null
  | .initQueue | .register | .allocDisk | .addDisk =>
    s.visible = false ∧ s.data = .held ∧ s.tfm = .null
  | .allocCipher => s.data = .held ∧ s.tfm = .null
  | .setKey | .crashed => s.data = .held ∧ s.tfm ≠ .handle true
  | .loaded | .delGendisk => s.data = .held ∧ s.tfm = .handle (validKey s.key)
  | _ => s.visible = false

/-- What a kernel call at a point does to the module. -/
inductive KernelDoes (s : Life) : Bool → LifePoint → Life → Prop
  | vmalloc : KernelDoes s true .vmalloc { s with point := .initQueue, data := .held }
  | noData : KernelDoes s false .vmalloc { s with point := .unloaded }
  | initQueue : KernelDoes s true .initQueue { s with point := .register, queue := .held }
  | noQueue : KernelDoes s false .initQueue { s with point := .out }
  | register : KernelDoes s true .register { s with point := .allocDisk, major := .held }
  | noMajor : KernelDoes s false .register { s with point := .out }
  | allocDisk : KernelDoes s true .allocDisk { s with point := .addDisk, gendisk := .held }
  | noDisk : KernelDoes s false .allocDisk { s with point := .outUnregister }
  | addDisk {ok} : KernelDoes s ok .addDisk { s with point := .allocCipher, visible := true }
  -- an `ERR_PTR` is not `NULL`, so the check that follows lets the failure pass
  | allocCipher {ok} : KernelDoes s ok .allocCipher
      { s with tfm := cryptoAllocCipher ok, point := .setKey }
  | setKey {ok keyed} (handle : s.tfm = .handle keyed) : KernelDoes s ok .setKey
      { s with point := .loaded, tfm := .handle (validKey s.key) }
  | crash {ok} (noHandle : ∀ keyed, s.tfm ≠ .handle keyed) :
      KernelDoes s ok .setKey { s with point := .crashed }
  | outUnregister {ok} : KernelDoes s ok .outUnregister { s with point := .out, major := .released }
  | out {ok} : KernelDoes s ok .out { s with point := .unloaded, data := .released }
  | delGendisk {ok} : KernelDoes s ok .delGendisk { s with point := .putDisk, visible := false }
  | putDisk {ok} : KernelDoes s ok .putDisk { s with point := .freeCipher, gendisk := .released }
  | freeCipher {ok} : KernelDoes s ok .freeCipher { s with point := .unregister, tfm := .freed }
  | unregister {ok} : KernelDoes s ok .unregister
      { s with point := .cleanupQueue, major := .released }
  | cleanupQueue {ok} : KernelDoes s ok .cleanupQueue { s with point := .unloaded, queue := .released }

variable {s t : Life} {e : LifeEvent} {ok : Bool}

theorem kernelCall_does {p : LifePoint} (hp : s.point = p) (hs : kernelCall s ok = some t) :
    KernelDoes s ok p t := by
  cases p <;> simp only [kernelCall, hp, Option.some.injEq, reduceCtorEq] at hs
  case vmalloc | initQueue | register | allocDisk | allocCipher =>
    subst hs
    cases ok <;> constructor
  case setKey =>
    split at hs
    next keyed hhandle =>
      obtain rfl := Option.some.inj hs
      exact .setKey hhandle
    next hnone =>
      obtain rfl := Option.some.inj hs
      exact .crash hnone
  all_goals
    subst hs
    constructor

theorem consistent_kernelCall (h : Consistent s) (hs : kernelCall s ok = some t) :
    Consistent t := by
  obtain ⟨p, hp⟩ : ∃ p, s.point = p := ⟨_, rfl⟩
  cases kernelCall_does hp hs with
  | allocCipher =>
    simp only [Consistent, hp] at h
    cases ok <;> simp [Consistent, cryptoAllocCipher, h]
  | crash => simpa [Consistent, hp] using h
  | _ =>
    simp only [Consistent, hp] at h
    simp [Consistent, h]

theorem consistent_step (h : Consistent s) (hs : lifeStep s e = some t) : Consistent t := by
  cases e with
  | load key =>
    simp only [lifeStep] at hs
    split_ifs at hs with hp
    obtain rfl := Option.some.inj hs
    simpa [Consistent, hp] using h
  | call ok => exact consistent_kernelCall h hs
  | unload =>
    simp only [lifeStep] at hs
    split_ifs at hs with hp
    obtain rfl := Option.some.inj hs
    simpa [Consistent, hp] using h
  | request =>
    simp only [lifeStep] at hs
    split_ifs at hs
    obtain rfl := Option.some.inj hs
    exact h

theorem consistent_neverLoaded : Consistent neverLoaded := rfl

/-- The data area is always there; the cipher is ready from the return of `brdd_init` on, if the key
has one of its lengths. -/
theorem fullyBuilt_iff_afterInit (h : Consistent s) : FullyBuilt s e ↔ AfterInit s e := by
  cases e with
  | load _ | call _ | unload => exact Iff.rfl
  | request =>
    refine imp_congr_right fun hv => ?_
    cases hp : s.point with
    | loaded | delGendisk =>
      simp only [Consistent, hp] at h
      simp [h, validKey]
    | allocCipher =>
      simp only [Consistent, hp] at h
      simp [h]
    | setKey | crashed =>
      simp only [Consistent, hp] at h
      simp [h]
    | _ =>
      simp only [Consistent, hp] at h
      simp [hv] at h

/-- In every run of loads, unloads, failures and requests, all requests find a fully built device
exactly when all of them come after `brdd_init` returned 0 in a load with a valid key. -/
theorem requests_fully_built_iff (es : List LifeEvent) :
    lifecycle.Meets FullyBuilt neverLoaded es ↔ lifecycle.Meets AfterInit neverLoaded es := by
  refine Machine.meets_congr (I := Consistent) ?_ ?_ es consistent_neverLoaded
  · intro s e t hs _ hstep
    exact consistent_step hs hstep
  · intro s e hs
    exact fullyBuilt_iff_afterInit hs

instance (s : Life) : ∀ e, Decidable (FullyBuilt s e)
  | .request => inferInstanceAs (Decidable (_ → _))
  | .load _ | .call _ | .unload => isTrue trivial

/-- A load in which every call that is made succeeds up to and including `add_disk`. -/
def upToAddDisk (key : List UInt8) : List LifeEvent :=
  .load key :: List.replicate 5 (.call true)

/-- A request during `add_disk`, one after a load with a key of five bytes, and one after
`crypto_alloc_cipher` has failed: none of them finds a cipher with a key. -/
theorem half_built_devices :
    (∃ s, lifecycle.run neverLoaded (upToAddDisk (List.replicate 16 0x31)) = some s ∧
      s.visible = true ∧ s.tfm = .null) ∧
    (∃ s, lifecycle.run neverLoaded (upToAddDisk (List.replicate 5 0x31) ++
        [.call true, .call true]) = some s ∧
      s.visible = true ∧ s.point = .loaded ∧ s.tfm = .handle false) ∧
    (∃ s, lifecycle.run neverLoaded (upToAddDisk (List.replicate 16 0x31) ++
        [.call false, .call true]) = some s ∧
      s.visible = true ∧ s.point = .crashed ∧ s.tfm = .errPtr) ∧
    ¬ lifecycle.Meets FullyBuilt neverLoaded
      (upToAddDisk (List.replicate 16 0x31) ++ [.request]) ∧
    ¬ lifecycle.Meets FullyBuilt neverLoaded
      (upToAddDisk (List.replicate 5 0x31) ++ [.call true, .call true, .request]) ∧
    ¬ lifecycle.Meets FullyBuilt neverLoaded
      (upToAddDisk (List.replicate 16 0x31) ++ [.call false, .call true, .request]) := by
  refine ⟨⟨_, rfl, rfl, rfl⟩, ⟨_, rfl, rfl, rfl, rfl⟩, ⟨_, rfl, rfl, rfl, rfl⟩, ?_, ?_, ?_⟩ <;>
    decide

end OperatingSystems.Brdd
