import OperatingSystems.SearchInsertDelete.Threads

namespace OperatingSystems.SearchInsertDelete

open Library

namespace Point

/-- `insert` is a light switch on `icounter`, `insert_counter` and `inserter_mut`. -/
def insertPhase : Point → Phase
  | insIncr _ => .incr
  | insTest _ => .test
  | insWaitMut _ => .waitRoom
  | insPost _ => .enter
  | inserting _ _ | insExitWait => .inside
  | insDecr => .decr
  | insExitTest => .exitTest
  | insPostMut => .postRoom
  | insExitPost => .exitPost
  | _ => .out

/-- `search` is a light switch on `scounter`, `search_counter` and `searcher_mut`. -/
def searchPhase : Point → Phase
  | seaIncr _ => .incr
  | seaTest _ => .test
  | seaTryMut _ | seaWaitMut _ => .waitRoom
  | seaPost _ => .enter
  | searching _ _ | seaExitWait _ => .inside
  | seaDecr => .decr
  | seaExitTest => .exitTest
  | seaPostMut => .postRoom
  | seaExitPost => .exitPost
  | _ => .out

/-- A deleter past its `sem_wait(&searcher_mut)` and before its `sem_post`. -/
def holdsSearcher : Point → Bool
  | delWaitInserter _ | delWaitDeleter _ | deleting _ _ | delPostSearcher => true
  | _ => false

def holdsInserter : Point → Bool
  | delWaitDeleter _ | deleting _ _ | delPostSearcher | delPostInserter => true
  | _ => false

/-- The list sections, between the entry and the exit protocol of each function. -/
def inInsert : Point → Bool
  | inserting _ _ => true
  | _ => false

def inSearch : Point → Bool
  | searching _ _ => true
  | _ => false

def inDelete : Point → Bool
  | deleting _ _ => true
  | _ => false

end Point

/-- How a light switch is read off a state: the phase of a point, whether a deleter at that point
holds the room, and the three shared variables. -/
structure View (τ : Type*) where
  phase : Point → Phase
  holds : Point → Bool
  sem : State τ → ℕ
  counter : State τ → ℤ
  room : State τ → ℕ

variable {τ : Type*} [Fintype τ]

def View.switch (V : View τ) (s : State τ) : Switch τ :=
  ⟨V.sem s, V.counter s, V.room s, V.phase ∘ s.point, count V.holds s.point⟩

def insertView : View τ :=
  ⟨Point.insertPhase, Point.holdsInserter, State.icounter, State.insertCounter, State.inserterMut⟩

def searchView : View τ :=
  ⟨Point.searchPhase, Point.holdsSearcher, State.scounter, State.searchCounter, State.searcherMut⟩

variable [DecidableEq τ] {role : τ → Role} {s s' : State τ} {t : τ} {i : Input}

/-- Thread `t` moves from `q` to `p`. -/
structure Goes (s s' : State τ) (t : τ) (q p : Point) : Prop where
  source : s.point t = q
  target : s'.point = Function.update s.point t p

namespace Goes

omit [Fintype τ]

variable {p q : Point}

theorem congr {α : Type*} (hgo : Goes s s' t q p) (f : Point → α) (h : f p = f q) (u : τ) :
    f (s'.point u) = f (s.point u) := by
  rw [hgo.target]
  by_cases hu : u = t
  · rw [hu, Function.update_self, h, hgo.source]
  · rw [Function.update_of_ne hu]

theorem forall_points (hgo : Goes s s' t q p) {P : τ → Point → Prop} (hp : P t p)
    (hothers : ∀ u, u ≠ t → P u (s.point u)) : ∀ u, P u (s'.point u) := by
  intro u
  rw [hgo.target]
  by_cases hu : u = t
  · rw [hu, Function.update_self]
    exact hp
  · rw [Function.update_of_ne hu]
    exact hothers u hu

/-- A class of points that no other thread stands at has one thread at most after the move. -/
theorem at_most_one (hgo : Goes s s' t q p) (f : Point → Bool)
    (hnobody : ∀ u, u ≠ t → f (s.point u) = false) :
    ∀ u w, f (s'.point u) = true → f (s'.point w) = true → u = w := by
  have hmover : ∀ u, f (s'.point u) = true → u = t := by
    intro u hu
    by_contra hne
    rw [hgo.target, Function.update_of_ne hne, hnobody u hne] at hu
    exact Bool.false_ne_true hu
  intro u w hu hw
  exact (hmover u hu).trans (hmover w hw).symm

end Goes

namespace View

variable {V : View τ} {p q : Point}

theorem phase_goes (h : Goes s s' t q p) :
    (V.switch s').phase = Function.update (V.switch s).phase t (V.phase p) := by
  rw [switch, h.target]
  exact Function.comp_update ..

theorem others_goes (h : Goes s s' t q p) :
    (V.switch s').others + (V.holds q).toNat = (V.switch s).others + (V.holds p).toNat := by
  rw [← h.source]
  simpa only [switch, h.target] using count_update V.holds s.point t p

theorem moves_stay (h : Goes s s' t q p) (hphase : V.phase p = V.phase q := by rfl)
    (hholds : V.holds p = V.holds q := by rfl) (hsem : V.sem s' = V.sem s := by rfl)
    (hcounter : V.counter s' = V.counter s := by rfl) (hroom : V.room s' = V.room s := by rfl) :
    (V.switch s).Moves (V.switch s') := by
  have hothers := others_goes (V := V) h
  have hsame : V.switch s' = V.switch s := by
    refine Switch.ext hsem hcounter hroom ?_ (by rw [hholds] at hothers; omega)
    rw [phase_goes h, hphase, ← h.source]
    exact Function.update_eq_self ..
  rw [hsame]
  exact .stay

theorem moves_thread (h : Goes s s' t q p) (hholds : V.holds p = V.holds q)
    (hstep : (V.switch s).step t = some ⟨V.sem s', V.counter s', V.room s',
      Function.update (V.switch s).phase t (V.phase p), (V.switch s).others⟩) :
    (V.switch s).Moves (V.switch s') := by
  have hothers := others_goes (V := V) h
  refine .thread t (hstep.trans (congrArg some (Switch.ext rfl rfl rfl (phase_goes h).symm ?_)))
  rw [hholds] at hothers
  exact (Nat.add_right_cancel hothers).symm

theorem moves_take (h : Goes s s' t q p) (hphase : V.phase p = V.phase q)
    (hq : V.holds q = false) (hp : V.holds p = true) (hsem : V.sem s' = V.sem s)
    (hcounter : V.counter s' = V.counter s) (hroom : V.room s = V.room s' + 1) :
    (V.switch s).Moves (V.switch s') := by
  have hothers := others_goes (V := V) h
  have hsame : V.switch s' =
      { V.switch s with room := V.room s', others := (V.switch s).others + 1 } := by
    refine Switch.ext hsem hcounter rfl ?_ (by simpa [hq, hp] using hothers)
    rw [phase_goes h, hphase, ← h.source]
    exact Function.update_eq_self ..
  rw [hsame]
  exact .take (semWait_eq_some.mpr hroom)

theorem moves_give (h : Goes s s' t q p) (hphase : V.phase p = V.phase q)
    (hq : V.holds q = true) (hp : V.holds p = false) (hsem : V.sem s' = V.sem s)
    (hcounter : V.counter s' = V.counter s) (hroom : V.room s' = semPost (V.room s)) :
    (V.switch s).Moves (V.switch s') := by
  have hothers := others_goes (V := V) h
  have hsame : V.switch s' =
      { V.switch s with room := semPost (V.room s), others := (V.switch s').others } := by
    refine Switch.ext hsem hcounter hroom ?_ rfl
    rw [phase_goes h, hphase, ← h.source]
    exact Function.update_eq_self ..
  rw [hsame]
  exact .give (by simpa [hq, hp] using hothers.symm)

end View

/-- Seen through the insert switch, every step of the program is a move of the pattern. -/
theorem insert_moves (hs : step role s (t, i) = some s') :
    (insertView.switch s).Moves (insertView.switch s') := by
  generalize hq : s.point t = q
  cases step_does hq hs with
  | insTry h | insWait h | insWaitMut h | insExitWait h | insFirst h | insNext h | insLast h
  | insOthers h =>
    exact View.moves_thread ⟨hq, rfl⟩ rfl
      (by simp [Switch.step, View.switch, insertView, hq, Point.insertPhase, Switch.goto, State.goto,
        h])
  | insIncr | insPost | insDecr | insPostMut | insExitPost =>
    exact View.moves_thread ⟨hq, rfl⟩ rfl
      (by simp [Switch.step, View.switch, insertView, hq, Point.insertPhase, Switch.goto, State.goto])
  | delWaitInserter room => exact View.moves_take ⟨hq, rfl⟩ rfl rfl rfl rfl rfl room
  | delPostInserter => exact View.moves_give ⟨hq, rfl⟩ rfl rfl rfl rfl rfl rfl
  | _ => exact View.moves_stay ⟨hq, rfl⟩

/-- Seen through the search switch, too. -/
theorem search_moves (hs : step role s (t, i) = some s') :
    (searchView.switch s).Moves (searchView.switch s') := by
  generalize hq : s.point t = q
  cases step_does hq hs with
  | seaTry h | seaWait h | seaTryMut h | seaWaitMut h | seaExitWait h | seaFirst h | seaNext h
  | seaLast h | seaOthers h =>
    exact View.moves_thread ⟨hq, rfl⟩ rfl
      (by simp [Switch.step, View.switch, searchView, hq, Point.searchPhase, Switch.goto, State.goto,
        h])
  | seaIncr | seaPost | seaDecr | seaPostMut | seaExitPost =>
    exact View.moves_thread ⟨hq, rfl⟩ rfl
      (by simp [Switch.step, View.switch, searchView, hq, Point.searchPhase, Switch.goto, State.goto])
  | delWaitSearcher room => exact View.moves_take ⟨hq, rfl⟩ rfl rfl rfl rfl rfl room
  | delPostSearcher => exact View.moves_give ⟨hq, rfl⟩ rfl rfl rfl rfl rfl rfl
  | _ => exact View.moves_stay ⟨hq, rfl⟩

omit [DecidableEq τ] in
theorem switch_initial (V : View τ) (m : Mem) (hsem : V.sem (initial m) = 1)
    (hcounter : V.counter (initial m) = 0) (hroom : V.room (initial m) = 1)
    (hphase : V.phase .idle = .out) (hholds : V.holds .idle = false) :
    (V.switch (initial m)).Inv := by
  have hstart : V.switch (initial m) = ⟨1, 0, 1, fun _ => .out, 0⟩ := by
    apply Switch.ext hsem hcounter hroom
    · funext t
      exact hphase
    · exact count_const _ _ hholds
  rw [hstart]
  exact Switch.inv_start 1 rfl

/-- Both switches keep their invariant in every state of the program. -/
theorem switches_reachable {m : Mem} (h : (machine role m).Reachable s) :
    (insertView.switch s).Inv ∧ (searchView.switch s).Inv := by
  refine h.invariant (I := fun s => (insertView.switch s).Inv ∧ (searchView.switch s).Inv) ?_ ?_
  · intro s hi
    obtain rfl : s = initial m := hi
    exact ⟨switch_initial _ m rfl rfl rfl rfl rfl, switch_initial _ m rfl rfl rfl rfl rfl⟩
  · rintro s ⟨t, i⟩ s' ⟨hins, hsea⟩ hs
    exact ⟨Switch.inv_moves hins (insert_moves hs), Switch.inv_moves hsea (search_moves hs)⟩

namespace View

omit [DecidableEq τ]

variable {V : View τ}

/-- While a thread is inside, the room is taken for the group: its semaphore is closed, and no
deleter holds it. -/
theorem group_holds_room (h : (V.switch s).Inv) (ht : V.phase (s.point t) = .inside) :
    V.room s = 0 ∧ ∀ u, V.holds (s.point u) = false := by
  have hlit : V.room s + count V.holds s.point = 0 := Switch.lit_of_inside h ht
  exact ⟨by omega, count_eq_zero.mp (by omega)⟩

theorem one_holder (h : (V.switch s).Inv) {u : τ} (ht : V.holds (s.point t) = true)
    (hu : V.holds (s.point u) = true) : t = u := by
  have hroom : V.room s + count V.holds s.point ≤ 1 := h.room
  exact count_le_one.mp (by omega) t u ht hu

end View

/-- The points of the threads counted into `insert` and into `search`. -/
def Point.inInsertCount (p : Point) : Bool := p.insertPhase.counted

def Point.inSearchCount (p : Point) : Bool := p.searchPhase.counted

theorem Point.holds_of_inDelete {p : Point} (h : p.inDelete = true) :
    p.holdsSearcher = true ∧ p.holdsInserter = true := by
  cases p <;> simp only [inDelete, Bool.false_eq_true] at h
  exact ⟨rfl, rfl⟩

theorem Point.insertPhase_of_inInsert {p : Point} (h : p.inInsert = true) :
    p.insertPhase = .inside := by
  cases p <;> simp only [inInsert, Bool.false_eq_true] at h
  rfl

theorem Point.searchPhase_of_inSearch {p : Point} (h : p.inSearch = true) :
    p.searchPhase = .inside := by
  cases p <;> simp only [inSearch, Bool.false_eq_true] at h
  rfl

omit [DecidableEq τ] in
/-- While a thread is in the list section of `delete`, nobody else is in any list section. -/
theorem alone_of_inDelete (hins : (insertView.switch s).Inv) (hsea : (searchView.switch s).Inv)
    {u : τ} (ht : (s.point t).inDelete = true) (hu : u ≠ t) :
    (s.point u).inDelete = false ∧ (s.point u).inInsert = false ∧ (s.point u).inSearch = false := by
  obtain ⟨hS, hI⟩ := Point.holds_of_inDelete ht
  refine ⟨?_, ?_, ?_⟩ <;> rw [← Bool.not_eq_true] <;> intro hin
  · exact hu (View.one_holder hsea (Point.holds_of_inDelete hin).1 hS)
  · have hfree := (View.group_holds_room hins (Point.insertPhase_of_inInsert hin)).2 t
    exact Bool.false_ne_true (hfree.symm.trans hI)
  · have hfree := (View.group_holds_room hsea (Point.searchPhase_of_inSearch hin)).2 t
    exact Bool.false_ne_true (hfree.symm.trans hS)

/-- A thread in the list section of `delete` is alone there and nobody is in the list section of
`insert` or `search`; the counters count the threads of each group, and a group with a thread
inside has its semaphore. -/
theorem deleter_alone {m : Mem} (h : (machine role m).Reachable s) :
    (∀ t u, (s.point t).inDelete = true → u ≠ t → (s.point u).inDelete = false ∧
      (s.point u).inInsert = false ∧ (s.point u).inSearch = false) ∧
    s.searchCounter = count Point.inSearchCount s.point ∧
    s.insertCounter = count Point.inInsertCount s.point ∧
    (∀ t, (s.point t).searchPhase = .inside →
      s.searcherMut = 0 ∧ ∀ u, (s.point u).holdsSearcher = false) ∧
    (∀ t, (s.point t).insertPhase = .inside →
      s.inserterMut = 0 ∧ ∀ u, (s.point u).holdsInserter = false) := by
  obtain ⟨hins, hsea⟩ := switches_reachable h
  exact ⟨fun t u => alone_of_inDelete hins hsea, hsea.counter, hins.counter,
    fun t => View.group_holds_room hsea, fun t => View.group_holds_room hins⟩

/-- A deleter in its list section, with one thread of each kind. -/
theorem first_deleter_alone :
    ∃ s, (machine (fun t : Fin 3 => [Role.inserter, .searcher, .deleter].get t) ⟨0, fun _ => none⟩).run
        (initial ⟨0, fun _ => none⟩) [(0, {}), (1, {}), (2, {}), (2, {}), (2, {}), (2, {})] = some s ∧
      (s.point 2).inDelete = true ∧ (s.point 0).inInsert = false ∧ (s.point 1).inSearch = false := by
  obtain ⟨s, hr, hdel⟩ : ∃ s, (machine (fun t : Fin 3 =>
      [Role.inserter, .searcher, .deleter].get t) ⟨0, fun _ => none⟩).run (initial ⟨0, fun _ => none⟩)
      [(0, {}), (1, {}), (2, {}), (2, {}), (2, {}), (2, {})] = some s ∧
      (s.point 2).inDelete = true := ⟨_, rfl, rfl⟩
  have h := deleter_alone ⟨_, _, rfl, hr⟩
  exact ⟨s, hr, hdel, (h.1 2 0 hdel (by decide)).2.1, (h.1 2 1 hdel (by decide)).2.2⟩

end OperatingSystems.SearchInsertDelete
