import OperatingSystems.SearchInsertDelete.Exclusion
import OperatingSystems.SearchInsertDelete.Linking

namespace OperatingSystems.SearchInsertDelete

open Library

variable {τ : Type*} [DecidableEq τ] {role : τ → Role} {s s' : State τ} {t : τ} {i : Input}

/-- A point outside the list sections, or at the start of one. -/
def Point.Quiet (p : Point) : Prop :=
  (p.inInsert = false ∨ ∃ v, p = .inserting v .testHead) ∧
    (p.inDelete = false ∨ ∃ v, p = .deleting v .testHead)

theorem Point.Quiet.spec {p : Point} (h : p.Quiet) :
    p.fillsHead = false ∧ p.owned = none ∧ ∀ m xs, Knows m xs p := by
  cases p with
  | inserting v pc =>
    obtain ⟨w, hw⟩ := h.1.resolve_left nofun
    cases hw
    exact ⟨rfl, rfl, fun _ _ => trivial⟩
  | deleting v pc =>
    obtain ⟨w, hw⟩ := h.2.resolve_left nofun
    cases hw
    exact ⟨rfl, rfl, fun _ _ => trivial⟩
  | _ => exact ⟨rfl, rfl, fun _ _ => trivial⟩

/-- What a step outside the list sections can do: it leaves the list alone, and an insert takes
charge of its value when it starts. -/
theorem step_outside (hins : (s.point t).inInsert = false) (hdel : (s.point t).inDelete = false)
    (hs : step role s (t, i) = some s') : ∃ p, Goes s s' t (s.point t) p ∧ s'.mem = s.mem ∧ p.Quiet ∧
      p.inFlight + s'.deleted + s.inserted = (s.point t).inFlight + s.deleted + s'.inserted := by
  generalize hq : s.point t = q at hins hdel
  cases step_does hq hs with
  | callInsert =>
    refine ⟨_, ⟨hq, rfl⟩, rfl, ⟨.inl rfl, .inl rfl⟩, ?_⟩
    show {i.value} + s.deleted + s.inserted = 0 + s.deleted + i.value ::ₘ s.inserted
    rw [zero_add, Multiset.singleton_add, Multiset.cons_add, Multiset.add_cons]
  | @insPost v => exact ⟨_, ⟨hq, rfl⟩, rfl, ⟨.inr ⟨v, rfl⟩, .inl rfl⟩, rfl⟩
  | @delWaitDeleter v => exact ⟨_, ⟨hq, rfl⟩, rfl, ⟨.inl rfl, .inr ⟨v, rfl⟩⟩, rfl⟩
  | inserting | inserted => exact absurd hins (Ne.symm Bool.false_ne_true)
  | deleting | deleted => exact absurd hdel (Ne.symm Bool.false_ne_true)
  | _ => exact ⟨_, ⟨hq, rfl⟩, rfl, ⟨.inl rfl, .inl rfl⟩, rfl⟩

section Values

variable [Fintype τ] {old : Multiset ℤ} {xs : List (Addr × ℤ)}

omit [DecidableEq τ] in
/-- While a thread is in the list section of `insert`, nobody else is in that of `delete`. -/
theorem no_deleter_beside (hins : (insertView.switch s).Inv) (hsea : (searchView.switch s).Inv)
    (hI : (s.point t).inInsert = true) : ∀ u, u ≠ t → (s.point u).inDelete = false := by
  intro u hu
  rw [← Bool.not_eq_true]
  intro hD
  have hout := (alone_of_inDelete hins hsea hD hu.symm).2.1
  exact Bool.false_ne_true (hout.symm.trans hI)

theorem keeps_outside (h : Keeps old s xs) (hI : (s.point t).inInsert = false)
    (hD : (s.point t).inDelete = false) (hs : step role s (t, i) = some s') :
    s'.mem = s.mem ∧ Keeps old s' xs := by
  obtain ⟨p, hgo, hmem, hquiet, hlocal⟩ := step_outside hI hD hs
  obtain ⟨hfill, howned, hknows⟩ := hquiet.spec
  refine ⟨hmem, h.quiet hgo (hknows _ _) hmem ?_ ?_ hlocal⟩
  · exact hfill.trans (Point.fillsHead_of_outside hI).symm
  · exact howned.trans (Point.owned_of_outside hI hD).symm

theorem keeps_step (hins : (insertView.switch s).Inv) (hsea : (searchView.switch s).Inv)
    (h : Keeps old s xs) (hclean : NothingOverwritten s (t, i)) (hs : step role s (t, i) = some s') :
    ∃ ys, Keeps old s' ys := by
  by_cases hI : (s.point t).inInsert = true
  · obtain ⟨v, pc, hp⟩ : ∃ v pc, s.point t = .inserting v pc := by
      cases hp : s.point t <;> simp only [hp, Point.inInsert, Bool.false_eq_true] at hI
      exact ⟨_, _, rfl⟩
    obtain ⟨ys, hkeeps, -⟩ := keeps_inserting h hp (no_deleter_beside hins hsea hI) hclean hs
    exact ⟨ys, hkeeps⟩
  · by_cases hD : (s.point t).inDelete = true
    · obtain ⟨v, pc, hp⟩ : ∃ v pc, s.point t = .deleting v pc := by
        cases hp : s.point t <;> simp only [hp, Point.inDelete, Bool.false_eq_true] at hD
        exact ⟨_, _, rfl⟩
      refine keeps_deleting h hp (fun u hu => ?_) hs
      obtain ⟨hdel, hins, -⟩ := alone_of_inDelete hins hsea hD hu
      exact ⟨hins, hdel⟩
    · rw [Bool.not_eq_true] at hI hD
      exact ⟨xs, (keeps_outside h hI hD hs).2⟩

omit [DecidableEq τ] in
theorem keeps_initial {m : Mem} (h : m.WellFormed xs) :
    Keeps (values xs) (initial m : State τ) xs := by
  refine ⟨h.null, fun _ => h.lists, fun t ht => absurd ht nofun, fun t u ht => absurd ht nofun,
    fun t => trivial, fun t a ha => absurd ha nofun, fun t u a ha => absurd ha nofun, ?_⟩
  show values xs + total Point.inFlight (fun _ : τ => Point.idle) + 0 = values xs + 0
  simp [total, Point.inFlight]

end Values

/-- When all calls have returned, the list holds the `old` values and those passed to `insert`
except for those reported deleted. -/
def NothingLost (old : Multiset ℤ) (s : State τ) : Prop :=
  (∀ t, s.point t = .idle) →
    ∃ xs, s.mem.WellFormed xs ∧ values xs + s.deleted = old + s.inserted

omit [DecidableEq τ] in
theorem Keeps.nothingLost [Fintype τ] {old : Multiset ℤ} {xs : List (Addr × ℤ)}
    (h : Keeps old s xs) : NothingLost old s := by
  intro hidle
  have hlists := h.complete fun t => by rw [hidle t]; rfl
  have hzero : total Point.inFlight s.point = 0 := by
    simp [total, hidle, Point.inFlight]
  have hbalance := h.balance
  rw [hzero, add_zero] at hbalance
  exact ⟨xs, ⟨h.null, hlists⟩, hbalance⟩

section OneInserter

/-- What an insert that found the end of the list relies on. -/
def FoundEnd (m : Mem) : Point → Prop
  | .inserting _ .mallocHead | .inserting _ (.storeHead _) => m.head = 0
  | .inserting _ (.malloc it) | .inserting _ (.storeData it _) | .inserting _ (.storeNext it _)
  | .inserting _ (.link it _) => ∀ n, m.node it = some n → n.next = 0
  | _ => True

theorem FoundEnd.of_outside {m : Mem} {p : Point} (h : p.inInsert = false) : FoundEnd m p := by
  cases p with
  | inserting v pc => exact absurd h nofun
  | _ => trivial

theorem FoundEnd.of_quiet {m : Mem} {p : Point} (h : p.Quiet) : FoundEnd m p := by
  rcases h.1 with hins | ⟨v, rfl⟩
  · exact .of_outside hins
  · trivial

/-- The last node stays the last one when another node is written. -/
theorem last_store {m : Mem} {xs : List (Addr × ℤ)} {it a : Addr} {n : Node} (hit : it ∈ addrs xs)
    (ha : a ∉ addrs xs) (hlast : ∀ n, m.node it = some n → n.next = 0) :
    ∀ n', Function.update m.node a (some n) it = some n' → n'.next = 0 := by
  intro n' hn'
  refine hlast n' ((Function.update_of_ne ?_ _ _).symm.trans hn')
  intro heq
  subst heq
  exact ha hit

variable [Fintype τ] {old : Multiset ℤ} {xs : List (Addr × ℤ)} {v : ℤ}

theorem foundEnd_inserting {pc : InsertPc} (h : Keeps old s xs) (hp : s.point t = .inserting v pc)
    (hfound : FoundEnd s.mem (s.point t)) (hs : step role s (t, i) = some s') :
    FoundEnd s'.mem (s'.point t) := by
  have hknows := h.knows t
  have howned := h.owned t
  rw [hp] at hknows howned hfound
  simp only [step, hp, Option.map_eq_some_iff, Prod.exists] at hs
  obtain ⟨m, pc', hm, rfl⟩ := hs
  show FoundEnd m (Function.update s.point t _ t)
  rw [Function.update_self]
  cases insertStep_does hm with
  | testHead =>
    split_ifs with hhead
    · exact hhead
    · trivial
  | mallocHead => exact hfound
  | @testNext it n hn =>
    split_ifs with hnext
    · trivial
    · intro n' hn'
      obtain rfl : n = n' := Option.some.inj (hn.symm.trans hn')
      exact not_not.mp hnext
  | malloc hne hfree =>
    exact last_store hknows (h.fresh hne hfree).1 hfound
  | @storeData it temp =>
    exact last_store hknows (howned temp rfl).2.1 hfound
  | @storeNext it temp =>
    exact last_store hknows.1 (howned temp rfl).2.1 hfound
  | storeHead | loadHeadForData | loadHeadForNext | loadIterator | storeHeadData | storeHeadNext
  | loadNext | link => trivial

/-- With one thread at a time in the list section of `insert`, nothing changes the end it found. -/
theorem foundEnd_step (hone : InsertersExclude s) (hins : (insertView.switch s).Inv)
    (hsea : (searchView.switch s).Inv) (h : Keeps old s xs)
    (hfound : ∀ u, FoundEnd s.mem (s.point u)) (hs : step role s (t, i) = some s') :
    ∀ u, FoundEnd s'.mem (s'.point u) := by
  intro u
  cases hp : s.point t
  case inserting v pc =>
    by_cases hu : u = t
    · subst u
      exact foundEnd_inserting h hp (hfound t) hs
    · rw [point_step hu hs]
      apply FoundEnd.of_outside
      rw [← Bool.not_eq_true]
      intro hin
      exact hu (hone u t hin (by rw [hp]; rfl))
  case deleting v pc =>
    apply FoundEnd.of_outside
    by_cases hu : u = t
    · subst u
      simp only [step, hp, Option.map_eq_some_iff] at hs
      obtain ⟨⟨m, _ | _⟩, -, rfl⟩ := hs <;>
        exact congrArg Point.inInsert (Function.update_self _ _ s.point)
    · rw [point_step hu hs]
      exact (alone_of_inDelete hins hsea (by rw [hp]; rfl) hu).2.1
  all_goals
    obtain ⟨p, hgo, hmem, hquiet, -⟩ := step_outside (by rw [hp]; rfl) (by rw [hp]; rfl) hs
    rw [hmem]
    exact hgo.forall_points (P := fun _ x => FoundEnd s.mem x) (.of_quiet hquiet)
      (fun w _ => hfound w) u

theorem nothingOverwritten_of_foundEnd (hone : InsertersExclude s) (h : Keeps old s xs)
    (hfound : ∀ u, FoundEnd s.mem (s.point u)) : NothingOverwritten s (t, i) := by
  have hknows := h.knows t
  have hend := hfound t
  unfold NothingOverwritten
  split
  next v p hp =>
    rw [hp] at hend
    exact hend
  next v it hp =>
    intro n hn
    rw [hp] at hknows
    have hin : (s.point t).inInsert = true := by rw [hp]; rfl
    have hnobody : ∀ u, (s.point u).fillsHead = false := by
      intro u
      by_cases hu : u = t
      · rw [hu, hp]
        rfl
      · apply Point.fillsHead_of_outside
        rw [← Bool.not_eq_true]
        intro hinu
        exact hu (hone u t hinu hin)
    have hlists := h.complete hnobody
    have hit : it ∈ addrs xs := by
      rcases hknows with ⟨hne, rfl | hmem⟩
      · exact head_mem hlists hne
      · exact hmem
    obtain ⟨w, r, rfl, -⟩ := node_eq_of_mem hlists hit hn
    rfl
  next v it temp hp =>
    rw [hp] at hend
    exact hend
  next => trivial

/-- With at most one inserter nothing is ever overwritten. -/
theorem meets_of_one_inserter {m : Mem} (hm : m.WellFormed xs)
    (hone : ∀ t u, role t = .inserter → role u = .inserter → t = u) (es : List (τ × Input)) :
    (machine role m).Meets NothingOverwritten (initial m) es := by
  have hexclude : ∀ s, (machine role m).Reachable s → InsertersExclude s := by
    intro s hs t u ht hu
    exact hone t u (inserter_of_inInsert hs ht) (inserter_of_inInsert hs hu)
  refine Machine.meets_of_invariant (I := fun s => (machine role m).Reachable s ∧
    (∃ ys, Keeps (values xs) s ys) ∧ ∀ u, FoundEnd s.mem (s.point u)) ?_ ?_ es ?_
  · rintro s ⟨t, i⟩ s' ⟨hreach, ⟨ys, hkeep⟩, hfound⟩ hs
    obtain ⟨hins, hsea⟩ := switches_reachable hreach
    have hclean := nothingOverwritten_of_foundEnd (hexclude s hreach) hkeep hfound (t := t) (i := i)
    exact ⟨hreach.step hs, keeps_step hins hsea hkeep hclean hs,
      foundEnd_step (hexclude s hreach) hins hsea hkeep hfound hs⟩
  · rintro s ⟨t, i⟩ ⟨hreach, ⟨ys, hkeep⟩, hfound⟩
    exact nothingOverwritten_of_foundEnd (hexclude s hreach) hkeep hfound
  · exact ⟨⟨_, [], rfl, rfl⟩, ⟨xs, keeps_initial hm⟩, fun u => trivial⟩

end OneInserter

section Schedules

variable {m : Mem} {v : ℤ}

/-- An inserter that has found `head->head` null stores its node there, whatever is there now. -/
theorem run_fill (ht : s.point t = .inserting v .mallocHead) (hne : i.addr ≠ 0)
    (hfree : s.mem.node i.addr = none) :
    (machine role m).run s (List.replicate 6 (t, i)) =
      some { s with mem := ⟨i.addr, Function.update s.mem.node i.addr (some ⟨v, 0, true, true⟩)⟩,
                    point := Function.update s.point t .insExitWait } := by
  simp [List.replicate, Machine.run, machine, step, insertStep, Mem.malloc, Mem.setData, Mem.setNext,
    State.goto, ht, hne, hfree]

/-- An inserter leaves while another is still counted. -/
theorem run_leave (ht : s.point t = .insExitWait) (hsem : s.icounter = 1)
    (hcounter : s.insertCounter = 2) :
    (machine role m).run s (List.replicate 4 (t, i)) =
      some { s with insertCounter := 1, point := Function.update s.point t .idle } := by
  simp [List.replicate, Machine.run, machine, step, State.goto, semWait, semPost, ht, hsem, hcounter]

theorem run_last_out (ht : s.point t = .insExitWait) (hsem : s.icounter = 1)
    (hcounter : s.insertCounter = 1) (hmut : s.inserterMut = 0) :
    (machine role m).run s (List.replicate 5 (t, i)) =
      some { s with insertCounter := 0, inserterMut := 1,
                    point := Function.update s.point t .idle } := by
  simp [List.replicate, Machine.run, machine, step, State.goto, semWait, semPost, ht, hsem, hcounter,
    hmut]

/-- Threads `t` and `u` at the given points, the others idle. -/
def pair (t u : τ) (p q : Point) : τ → Point :=
  fun w => if w = u then q else if w = t then p else .idle

theorem update_pair {u : τ} (hne : t ≠ u) (p q r : Point) :
    Function.update (pair t u p q) t r = pair t u r q ∧
      Function.update (pair t u p q) u r = pair t u p r := by
  constructor <;> funext w <;> by_cases hu : w = u <;> by_cases ht : w = t <;> simp_all [pair]

theorem pair_self {u : τ} (hne : t ≠ u) (p q : Point) : pair t u p q t = p ∧ pair t u p q u = q := by
  simp [pair, hne]

theorem pair_idle (t u : τ) : pair t u .idle .idle = fun _ => .idle := by
  funext w
  simp [pair]

/-- Two inserters that both find the list empty: the second node replaces the first. -/
theorem run_replace {u : τ} (ht : role t = .inserter) (hu : role u = .inserter) (hne : t ≠ u) :
    ∃ es s, (machine role ⟨0, fun _ => none⟩).run (initial ⟨0, fun _ => none⟩) es = some s ∧
      (∀ w, s.point w = .idle) ∧ s.mem.head = 2 ∧ s.mem.node 2 = some ⟨0, 0, true, true⟩ ∧
      s.deleted = 0 ∧ s.inserted = {0, 0} := by
  let st (inserterMut : ℕ) (insertCounter : ℤ) (mem : Mem) (inserted : Multiset ℤ) (p q : Point) :
    State τ := ⟨inserterMut, 1, 1, 1, 1, 0, insertCounter, mem, pair t u p q, inserted, 0⟩
  let m₀ : Mem := ⟨0, fun _ => none⟩
  let m₁ : Mem := ⟨1, Function.update m₀.node 1 (some ⟨0, 0, true, true⟩)⟩
  let m₂ : Mem := ⟨2, Function.update m₁.node 2 (some ⟨0, 0, true, true⟩)⟩
  have hself := pair_self hne
  have hset := update_pair hne
  have hinit : initial m₀ = st 1 0 m₀ 0 .idle .idle := by
    simp only [initial, st, pair_idle]
  have henter : (machine role m₀).run (initial m₀) (List.replicate 6 (t, {})) =
      some (st 0 1 m₀ {0} (.inserting 0 .testHead) .idle) := by
    rw [hinit, run_first_in ht (hself _ _).1 rfl rfl rfl]
    simp only [st, hset]
    rfl
  have hfollow : (machine role m₀).run (st 0 1 m₀ {0} (.inserting 0 .testHead) .idle)
      (List.replicate 5 (u, {})) =
      some (st 0 2 m₀ {0, 0} (.inserting 0 .testHead) (.inserting 0 .testHead)) := by
    rw [run_next_in hu (hself _ _).2 rfl rfl]
    simp only [st, hset]
    rfl
  have htest : (machine role m₀).run
      (st 0 2 m₀ {0, 0} (.inserting 0 .testHead) (.inserting 0 .testHead)) [(t, {}), (u, {})] =
      some (st 0 2 m₀ {0, 0} (.inserting 0 .mallocHead) (.inserting 0 .mallocHead)) := by
    simp [Machine.run, machine, step, insertStep, State.goto, st, m₀, hset, hself]
  have hfirst : (machine role m₀).run
      (st 0 2 m₀ {0, 0} (.inserting 0 .mallocHead) (.inserting 0 .mallocHead))
      (List.replicate 6 (t, { addr := 1 })) =
      some (st 0 2 m₁ {0, 0} .insExitWait (.inserting 0 .mallocHead)) := by
    rw [run_fill (hself _ _).1 one_ne_zero rfl]
    simp only [st, hset]
    rfl
  have hsecond : (machine role m₀).run (st 0 2 m₁ {0, 0} .insExitWait (.inserting 0 .mallocHead))
      (List.replicate 6 (u, { addr := 2 })) = some (st 0 2 m₂ {0, 0} .insExitWait .insExitWait) := by
    rw [run_fill (hself _ _).2 two_ne_zero rfl]
    simp only [st, hset]
    rfl
  have hleave : (machine role m₀).run (st 0 2 m₂ {0, 0} .insExitWait .insExitWait)
      (List.replicate 4 (t, {})) = some (st 0 1 m₂ {0, 0} .idle .insExitWait) := by
    rw [run_leave (hself _ _).1 rfl rfl]
    simp only [st, hset]
  have hlast : (machine role m₀).run (st 0 1 m₂ {0, 0} .idle .insExitWait)
      (List.replicate 5 (u, {})) = some (st 1 0 m₂ {0, 0} .idle .idle) := by
    rw [run_last_out (hself _ _).2 rfl rfl rfl]
    simp only [st, hset]
  refine ⟨_, _, (Machine.run_trans henter).trans ((Machine.run_trans hfollow).trans
    ((Machine.run_trans htest).trans ((Machine.run_trans hfirst).trans
    ((Machine.run_trans hsecond).trans ((Machine.run_trans hleave).trans hlast))))),
    fun w => congrFun (pair_idle t u) w, rfl, rfl, rfl, rfl⟩

end Schedules

/-- No value is lost on the runs in which nothing is overwritten; no run over any list loses one
exactly when at most one thread is an inserter. -/
theorem no_value_lost_iff [Fintype τ] (role : τ → Role) :
    (∀ m xs, m.WellFormed xs → ∀ es, (machine role m).Meets NothingOverwritten (initial m) es →
      (machine role m).Always (NothingLost (values xs)) (initial m) es) ∧
    ((∀ m xs, m.WellFormed xs → ∀ es s, (machine role m).run (initial m) es = some s →
      NothingLost (values xs) s) ↔ ∀ t u, role t = .inserter → role u = .inserter → t = u) := by
  have hruns : ∀ m xs, m.WellFormed xs → ∀ es, (machine role m).Meets NothingOverwritten (initial m) es →
      (machine role m).Always (NothingLost (values xs)) (initial m) es := by
    intro m xs hm es hmeets
    have hinit : (machine role m).Reachable (initial m) := ⟨_, [], rfl, rfl⟩
    obtain ⟨hins, hsea⟩ := switches_reachable hinit
    have halways : (machine role m).Always (fun s => (insertView.switch s).Inv ∧
        (searchView.switch s).Inv ∧ ∃ ys, Keeps (values xs) s ys) (initial m) es := by
      refine Machine.Meets.always ?_ ⟨hins, hsea, xs, keeps_initial hm⟩ hmeets
      rintro s ⟨t, i⟩ s' ⟨hins, hsea, ys, hkeep⟩ hclean hs
      exact ⟨Switch.inv_moves hins (insert_moves hs), Switch.inv_moves hsea (search_moves hs),
        keeps_step hins hsea hkeep hclean hs⟩
    apply halways.mono
    rintro s ⟨-, -, ys, hkeep⟩
    exact hkeep.nothingLost
  refine ⟨hruns, fun h t u ht hu => ?_, fun hone m xs hm es s hr => ?_⟩
  · by_contra hne
    obtain ⟨es, s, hr, hidle, hhead, hnode, hdel, hins⟩ := run_replace ht hu hne
    obtain ⟨xs, hm, hvalues⟩ := h ⟨0, fun _ => none⟩ [] ⟨rfl, rfl⟩ es s hr hidle
    have hlists : s.mem.Lists s.mem.head [(2, 0)] 0 := ⟨hhead, 0, hnode, rfl⟩
    have hxs : xs = [(2, 0)] := by
      refine Chain.unique holds_functional ?_ ?_ hm.lists hlists
      · exact fun x hx => ne_zero_of_mem hm.null hm.lists (List.mem_map_of_mem hx)
      · exact fun x hx => ne_zero_of_mem hm.null hlists (List.mem_map_of_mem hx)
    rw [hxs, hdel, hins] at hvalues
    exact absurd (congrArg Multiset.card hvalues) (by decide)
  · exact (hruns m xs hm es (meets_of_one_inserter hm hone es)).last hr

/-- The first two inserters of `main`, on the empty list: both inserts return and one value is in
the list. -/
theorem second_insert_replaces_first :
    ∃ s, (machine (fun t : Fin 9 => [Role.inserter, .searcher, .deleter].getD (t.val % 3) .deleter)
        ⟨0, fun _ => none⟩).run (initial ⟨0, fun _ => none⟩)
        (List.replicate 6 (0, default) ++ List.replicate 5 (3, default) ++ [(0, default), (3, default)] ++
          List.replicate 6 (0, { addr := 1 }) ++ List.replicate 6 (3, { addr := 2 }) ++
          List.replicate 4 (0, default) ++ List.replicate 5 (3, default)) = some s ∧
      (∀ t, s.point t = .idle) ∧ ¬ NothingLost (values []) s := by
  refine ⟨_, rfl, by decide, fun h => ?_⟩
  obtain ⟨xs, hm, hvalues⟩ := h (by decide)
  have hxs : xs = [(2, 0)] :=
    Chain.unique holds_functional
      (fun x hx => ne_zero_of_mem hm.null hm.lists (List.mem_map_of_mem hx))
      (by simp) hm.lists ⟨rfl, 0, rfl, rfl⟩
  subst hxs
  exact absurd (congrArg Multiset.card hvalues) (by decide)

end OperatingSystems.SearchInsertDelete
