import Mathlib.Data.Multiset.AddSub
import OperatingSystems.Library.Machine
import OperatingSystems.Library.LightSwitch
import OperatingSystems.SearchInsertDelete.List

namespace OperatingSystems.SearchInsertDelete

open Library

/-- Which of `inserter`, `searcher` and `deleter` a thread runs. -/
inductive Role where
  | inserter | searcher | deleter
  deriving DecidableEq

/-- Where a thread stands, each point before the operation it names. -/
inductive Point where
  | idle
  | insTry (newValue : ℤ) | insWait (newValue : ℤ) | insIncr (newValue : ℤ) | insTest (newValue : ℤ)
  | insWaitMut (newValue : ℤ) | insPost (newValue : ℤ)
  | inserting (newValue : ℤ) (pc : InsertPc)
  | insExitWait | insDecr | insExitTest | insPostMut | insExitPost
  | seaTry (newValue : ℤ) | seaWait (newValue : ℤ) | seaIncr (newValue : ℤ) | seaTest (newValue : ℤ)
  | seaTryMut (newValue : ℤ) | seaWaitMut (newValue : ℤ) | seaPost (newValue : ℤ)
  | searching (newValue : ℤ) (pc : SearchPc)
  | seaExitWait (searched : Bool) | seaDecr | seaExitTest | seaPostMut | seaExitPost
  | delWaitSearcher (newValue : ℤ) | delWaitInserter (newValue : ℤ) | delWaitDeleter (newValue : ℤ)
  | deleting (newValue : ℤ) (pc : DeletePc)
  | delPostSearcher | delPostInserter | delPostDeleter
  deriving DecidableEq

/-- The five semaphores, the two counters, the list, and where the threads stand; `inserted` and
`deleted` keep the values passed to `insert` and those whose deletion was reported. -/
structure State (τ : Type*) where
  inserterMut : ℕ
  searcherMut : ℕ
  deleterMut : ℕ
  scounter : ℕ
  icounter : ℕ
  searchCounter : ℤ
  insertCounter : ℤ
  mem : Mem
  point : τ → Point
  inserted : Multiset ℤ
  deleted : Multiset ℤ

/-- `sem_trywait`: what comes next depends on whether the semaphore was open. -/
def semTrywait {α : Type*} (v : ℕ) (taken : ℕ → α) (busy : α) : α :=
  match semWait v with
  | some w => taken w
  | none => busy

theorem semTrywait_eq {α : Type*} {v : ℕ} {taken : ℕ → α} {busy r : α} :
    semTrywait v taken busy = r ↔ (∃ w, v = w + 1 ∧ taken w = r) ∨ v = 0 ∧ busy = r := by
  cases v <;> simp [semTrywait, semWait]

variable {τ : Type*}

/-- What `main` sets up, over a given list. -/
def initial (m : Mem) : State τ := ⟨1, 1, 1, 1, 1, 0, 0, m, fun _ => .idle, 0, 0⟩

variable [DecidableEq τ]

def State.goto (s : State τ) (t : τ) (p : Point) : State τ :=
  { s with point := Function.update s.point t p }

/-- The next operation of thread `t`; an idle thread starts the next call of its loop. -/
def step (role : τ → Role) (s : State τ) (e : τ × Input) : Option (State τ) :=
  let (t, i) := e
  match s.point t with
  | .idle => some <| match role t with
    | .inserter => { s.goto t (.insTry i.value) with inserted := i.value ::ₘ s.inserted }
    | .searcher => s.goto t (.seaTry i.value)
    | .deleter => s.goto t (.delWaitSearcher i.value)
  -- insert
  | .insTry v => some (semTrywait s.icounter
      (fun w => { s.goto t (.insIncr v) with icounter := w }) (s.goto t (.insWait v)))
  | .insWait v => (semWait s.icounter).map fun w => { s.goto t (.insIncr v) with icounter := w }
  | .insIncr v => some { s.goto t (.insTest v) with insertCounter := s.insertCounter + 1 }
  | .insTest v => some (s.goto t (if s.insertCounter = 1 then .insWaitMut v else .insPost v))
  | .insWaitMut v =>
      (semWait s.inserterMut).map fun w => { s.goto t (.insPost v) with inserterMut := w }
  | .insPost v => some { s.goto t (.inserting v .testHead) with icounter := semPost s.icounter }
  | .inserting v pc => (insertStep s.mem v i pc).map fun (m, pc') =>
      { s.goto t (match pc' with | some pc' => .inserting v pc' | none => .insExitWait) with mem := m }
  | .insExitWait => (semWait s.icounter).map fun w => { s.goto t .insDecr with icounter := w }
  | .insDecr => some { s.goto t .insExitTest with insertCounter := s.insertCounter - 1 }
  | .insExitTest => some (s.goto t (if s.insertCounter = 0 then .insPostMut else .insExitPost))
  | .insPostMut => some { s.goto t .insExitPost with inserterMut := semPost s.inserterMut }
  | .insExitPost => some { s.goto t .idle with icounter := semPost s.icounter }
  -- search
  | .seaTry v => some (semTrywait s.scounter
      (fun w => { s.goto t (.seaIncr v) with scounter := w }) (s.goto t (.seaWait v)))
  | .seaWait v => (semWait s.scounter).map fun w => { s.goto t (.seaIncr v) with scounter := w }
  | .seaIncr v => some { s.goto t (.seaTest v) with searchCounter := s.searchCounter + 1 }
  | .seaTest v => some (s.goto t (if s.searchCounter = 1 then .seaTryMut v else .seaPost v))
  | .seaTryMut v => some (semTrywait s.searcherMut
      (fun w => { s.goto t (.seaPost v) with searcherMut := w }) (s.goto t (.seaWaitMut v)))
  | .seaWaitMut v =>
      (semWait s.searcherMut).map fun w => { s.goto t (.seaPost v) with searcherMut := w }
  | .seaPost v => some { s.goto t (.searching v .loadHead) with scounter := semPost s.scounter }
  | .searching v pc => (searchStep s.mem v pc).map fun r =>
      s.goto t (match r with | .inl pc' => .searching v pc' | .inr b => .seaExitWait b)
  | .seaExitWait _ => (semWait s.scounter).map fun w => { s.goto t .seaDecr with scounter := w }
  | .seaDecr => some { s.goto t .seaExitTest with searchCounter := s.searchCounter - 1 }
  | .seaExitTest => some (s.goto t (if s.searchCounter = 0 then .seaPostMut else .seaExitPost))
  | .seaPostMut => some { s.goto t .seaExitPost with searcherMut := semPost s.searcherMut }
  | .seaExitPost => some { s.goto t .idle with scounter := semPost s.scounter }
  -- delete
  | .delWaitSearcher v =>
      (semWait s.searcherMut).map fun w => { s.goto t (.delWaitInserter v) with searcherMut := w }
  | .delWaitInserter v =>
      (semWait s.inserterMut).map fun w => { s.goto t (.delWaitDeleter v) with inserterMut := w }
  | .delWaitDeleter v =>
      (semWait s.deleterMut).map fun w => { s.goto t (.deleting v .testHead) with deleterMut := w }
  | .deleting v pc => (deleteStep s.mem v pc).map fun (m, r) =>
      match r with
      | .inl pc' => { s.goto t (.deleting v pc') with mem := m }
      | .inr removed => { s.goto t .delPostSearcher with
          mem := m, deleted := if removed then v ::ₘ s.deleted else s.deleted }
  | .delPostSearcher => some { s.goto t .delPostInserter with searcherMut := semPost s.searcherMut }
  | .delPostInserter => some { s.goto t .delPostDeleter with inserterMut := semPost s.inserterMut }
  | .delPostDeleter => some { s.goto t .idle with deleterMut := semPost s.deleterMut }

/-- What the next operation of thread `t` does, which stands at the given point. -/
inductive Does (role : τ → Role) (s : State τ) (t : τ) (i : Input) : Point → State τ → Prop
  | callInsert (runs : role t = .inserter) : Does role s t i .idle
      { s.goto t (.insTry i.value) with inserted := i.value ::ₘ s.inserted }
  | callSearch (runs : role t = .searcher) : Does role s t i .idle (s.goto t (.seaTry i.value))
  | callDelete (runs : role t = .deleter) :
      Does role s t i .idle (s.goto t (.delWaitSearcher i.value))
  -- insert
  | insTry {v w} (sem : s.icounter = w + 1) :
      Does role s t i (.insTry v) { s.goto t (.insIncr v) with icounter := w }
  | insBusy {v} (sem : s.icounter = 0) : Does role s t i (.insTry v) (s.goto t (.insWait v))
  | insWait {v w} (sem : s.icounter = w + 1) :
      Does role s t i (.insWait v) { s.goto t (.insIncr v) with icounter := w }
  | insIncr {v} :
      Does role s t i (.insIncr v) { s.goto t (.insTest v) with insertCounter := s.insertCounter + 1 }
  | insFirst {v} (counter : s.insertCounter = 1) :
      Does role s t i (.insTest v) (s.goto t (.insWaitMut v))
  | insNext {v} (counter : ¬ s.insertCounter = 1) :
      Does role s t i (.insTest v) (s.goto t (.insPost v))
  | insWaitMut {v w} (room : s.inserterMut = w + 1) :
      Does role s t i (.insWaitMut v) { s.goto t (.insPost v) with inserterMut := w }
  | insPost {v} : Does role s t i (.insPost v)
      { s.goto t (.inserting v .testHead) with icounter := semPost s.icounter }
  | inserting {v pc m pc'} (access : insertStep s.mem v i pc = some (m, some pc')) :
      Does role s t i (.inserting v pc) { s.goto t (.inserting v pc') with mem := m }
  | inserted {v pc m} (access : insertStep s.mem v i pc = some (m, none)) :
      Does role s t i (.inserting v pc) { s.goto t .insExitWait with mem := m }
  | insExitWait {w} (sem : s.icounter = w + 1) :
      Does role s t i .insExitWait { s.goto t .insDecr with icounter := w }
  | insDecr :
      Does role s t i .insDecr { s.goto t .insExitTest with insertCounter := s.insertCounter - 1 }
  | insLast (counter : s.insertCounter = 0) : Does role s t i .insExitTest (s.goto t .insPostMut)
  | insOthers (counter : ¬ s.insertCounter = 0) :
      Does role s t i .insExitTest (s.goto t .insExitPost)
  | insPostMut :
      Does role s t i .insPostMut { s.goto t .insExitPost with inserterMut := semPost s.inserterMut }
  | insExitPost : Does role s t i .insExitPost { s.goto t .idle with icounter := semPost s.icounter }
  -- search
  | seaTry {v w} (sem : s.scounter = w + 1) :
      Does role s t i (.seaTry v) { s.goto t (.seaIncr v) with scounter := w }
  | seaBusy {v} (sem : s.scounter = 0) : Does role s t i (.seaTry v) (s.goto t (.seaWait v))
  | seaWait {v w} (sem : s.scounter = w + 1) :
      Does role s t i (.seaWait v) { s.goto t (.seaIncr v) with scounter := w }
  | seaIncr {v} :
      Does role s t i (.seaIncr v) { s.goto t (.seaTest v) with searchCounter := s.searchCounter + 1 }
  | seaFirst {v} (counter : s.searchCounter = 1) :
      Does role s t i (.seaTest v) (s.goto t (.seaTryMut v))
  | seaNext {v} (counter : ¬ s.searchCounter = 1) :
      Does role s t i (.seaTest v) (s.goto t (.seaPost v))
  | seaTryMut {v w} (room : s.searcherMut = w + 1) :
      Does role s t i (.seaTryMut v) { s.goto t (.seaPost v) with searcherMut := w }
  | seaMutBusy {v} (room : s.searcherMut = 0) :
      Does role s t i (.seaTryMut v) (s.goto t (.seaWaitMut v))
  | seaWaitMut {v w} (room : s.searcherMut = w + 1) :
      Does role s t i (.seaWaitMut v) { s.goto t (.seaPost v) with searcherMut := w }
  | seaPost {v} : Does role s t i (.seaPost v)
      { s.goto t (.searching v .loadHead) with scounter := semPost s.scounter }
  | searching {v pc pc'} (access : searchStep s.mem v pc = some (.inl pc')) :
      Does role s t i (.searching v pc) (s.goto t (.searching v pc'))
  | searched {v pc b} (access : searchStep s.mem v pc = some (.inr b)) :
      Does role s t i (.searching v pc) (s.goto t (.seaExitWait b))
  | seaExitWait {b w} (sem : s.scounter = w + 1) :
      Does role s t i (.seaExitWait b) { s.goto t .seaDecr with scounter := w }
  | seaDecr :
      Does role s t i .seaDecr { s.goto t .seaExitTest with searchCounter := s.searchCounter - 1 }
  | seaLast (counter : s.searchCounter = 0) : Does role s t i .seaExitTest (s.goto t .seaPostMut)
  | seaOthers (counter : ¬ s.searchCounter = 0) :
      Does role s t i .seaExitTest (s.goto t .seaExitPost)
  | seaPostMut :
      Does role s t i .seaPostMut { s.goto t .seaExitPost with searcherMut := semPost s.searcherMut }
  | seaExitPost : Does role s t i .seaExitPost { s.goto t .idle with scounter := semPost s.scounter }
  -- delete
  | delWaitSearcher {v w} (room : s.searcherMut = w + 1) :
      Does role s t i (.delWaitSearcher v) { s.goto t (.delWaitInserter v) with searcherMut := w }
  | delWaitInserter {v w} (room : s.inserterMut = w + 1) :
      Does role s t i (.delWaitInserter v) { s.goto t (.delWaitDeleter v) with inserterMut := w }
  | delWaitDeleter {v w} (room : s.deleterMut = w + 1) : Does role s t i (.delWaitDeleter v)
      { s.goto t (.deleting v .testHead) with deleterMut := w }
  | deleting {v pc m pc'} (access : deleteStep s.mem v pc = some (m, .inl pc')) :
      Does role s t i (.deleting v pc) { s.goto t (.deleting v pc') with mem := m }
  | deleted {v pc m removed} (access : deleteStep s.mem v pc = some (m, .inr removed)) :
      Does role s t i (.deleting v pc) { s.goto t .delPostSearcher with
        mem := m, deleted := if removed then v ::ₘ s.deleted else s.deleted }
  | delPostSearcher : Does role s t i .delPostSearcher
      { s.goto t .delPostInserter with searcherMut := semPost s.searcherMut }
  | delPostInserter : Does role s t i .delPostInserter
      { s.goto t .delPostDeleter with inserterMut := semPost s.inserterMut }
  | delPostDeleter :
      Does role s t i .delPostDeleter { s.goto t .idle with deleterMut := semPost s.deleterMut }

theorem step_does {role : τ → Role} {s s' : State τ} {t : τ} {i : Input} {q : Point}
    (hq : s.point t = q) (hs : step role s (t, i) = some s') : Does role s t i q s' := by
  cases q <;>
    simp only [step, hq, Option.some.injEq, Option.map_eq_some_iff, semWait_eq_some,
      semTrywait_eq] at hs
  case idle =>
    cases hr : role t <;> simp only [hr] at hs <;> subst hs
    · exact .callInsert hr
    · exact .callSearch hr
    · exact .callDelete hr
  case insTry v =>
    rcases hs with ⟨w, hw, rfl⟩ | ⟨hw, rfl⟩
    · exact .insTry hw
    · exact .insBusy hw
  case seaTry v =>
    rcases hs with ⟨w, hw, rfl⟩ | ⟨hw, rfl⟩
    · exact .seaTry hw
    · exact .seaBusy hw
  case seaTryMut v =>
    rcases hs with ⟨w, hw, rfl⟩ | ⟨hw, rfl⟩
    · exact .seaTryMut hw
    · exact .seaMutBusy hw
  case insTest | insExitTest | seaTest | seaExitTest =>
    split_ifs at hs with hc <;> subst hs <;> constructor <;> exact hc
  case inserting v pc =>
    obtain ⟨⟨m, _ | pc'⟩, hm, rfl⟩ := hs
    · exact .inserted hm
    · exact .inserting hm
  case searching v pc =>
    obtain ⟨_ | _, hr, rfl⟩ := hs
    · exact .searching hr
    · exact .searched hr
  case deleting v pc =>
    obtain ⟨⟨m, _ | _⟩, hm, rfl⟩ := hs
    · exact .deleting hm
    · exact .deleted hm
  case insWait | insWaitMut | insExitWait | seaWait | seaWaitMut | seaExitWait | delWaitSearcher |
      delWaitInserter | delWaitDeleter =>
    obtain ⟨w, hw, rfl⟩ := hs
    constructor
    exact hw
  all_goals
    subst hs
    constructor

/-- The threads that `main` starts, any number of each kind, over a list in memory. -/
def machine (role : τ → Role) (m : Mem) : Machine (State τ) (τ × Input) where
  init s := s = initial m
  step := step role

end OperatingSystems.SearchInsertDelete
