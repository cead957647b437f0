import OperatingSystems.SearchInsertDelete.Contents

namespace OperatingSystems.SearchInsertDelete

open Library

namespace Point

/-- The value that a call has charge of: one passed to `insert` and not yet in the list, or one
that `delete` has unlinked and not yet reported. -/
def inFlight : Point → Multiset ℤ
  | insTry v | insWait v | insIncr v | insTest v | insWaitMut v | insPost v | inserting v _ => {v}
  | deleting v (.free _) => {v}
  | _ => 0

/-- The node that only this thread knows: allocated and not yet linked, or unlinked and not yet
freed. -/
def owned : Point → Option Addr
  | inserting _ (.storeHead p) => some p
  | inserting _ (.storeData _ p) | inserting _ (.storeNext _ p) | inserting _ (.link _ p) => some p
  | deleting _ (.free p) => some p
  | _ => none

/-- The thread has stored a new node into `head->head` and is still filling it in. -/
def fillsHead : Point → Bool
  | inserting _ .loadHeadForData | inserting _ (.storeHeadData _)
  | inserting _ .loadHeadForNext | inserting _ (.storeHeadNext _) => true
  | _ => false

theorem fillsHead_of_outside {p : Point} (h : p.inInsert = false) : p.fillsHead = false := by
  cases p <;> first | rfl | contradiction

theorem owned_of_outside {p : Point} (hins : p.inInsert = false) (hdel : p.inDelete = false) :
    p.owned = none := by
  cases p <;> first | rfl | contradiction

end Point

/-- The node that `head->head` points to while it is being filled in. -/
def Mem.Filling (m : Mem) (P : Node → Prop) : Prop :=
  ∃ n, m.node m.head = some n ∧ n.nextStored = false ∧ P n

/-- What a thread knows of the list `xs` at each point of its section. -/
def Knows (m : Mem) (xs : List (Addr × ℤ)) : Point → Prop
  | .inserting _ (.storeHead p) => ∃ n, m.node p = some n ∧ n.nextStored = false
  | .inserting _ .loadHeadForData => m.Filling fun _ => True
  | .inserting _ (.storeHeadData q) => q = m.head ∧ m.Filling fun _ => True
  | .inserting v .loadHeadForNext => m.Filling fun n => n.data = v ∧ n.dataStored = true
  | .inserting v (.storeHeadNext q) => q = m.head ∧ m.Filling fun n => n.data = v ∧ n.dataStored = true
  | .inserting _ .loadIterator => m.head ≠ 0
  | .inserting _ (.testNext it) => it ≠ 0 ∧ (it = m.head ∨ it ∈ addrs xs)
  | .inserting _ (.loadNext it) => it ∈ addrs xs ∧ ∃ n, m.node it = some n ∧ n.next ∈ addrs xs
  | .inserting _ (.malloc it) => it ∈ addrs xs
  | .inserting _ (.storeData it _) => it ∈ addrs xs
  | .inserting v (.storeNext it temp) =>
      it ∈ addrs xs ∧ ∃ n, m.node temp = some n ∧ n.data = v ∧ n.dataStored = true
  | .inserting v (.link it temp) => it ∈ addrs xs ∧ m.node temp = some ⟨v, 0, true, true⟩
  | .deleting _ (.testData it itp) => ∃ ys w zs, xs = ys ++ (it, w) :: zs ∧
      (itp = 0 ∧ ys = [] ∨ itp ≠ 0 ∧ ∃ ys' u, ys = ys' ++ [(itp, u)])
  | .deleting _ (.loadNext it) => it ∈ addrs xs
  | .deleting v (.loadUnlinkHead it) => ∃ zs, xs = (it, v) :: zs
  | .deleting v (.unlinkHead it next) => ∃ zs, xs = (it, v) :: zs ∧ m.Lists next zs 0
  | .deleting v (.loadUnlink it itp) => ∃ ys u zs, xs = ys ++ (itp, u) :: (it, v) :: zs
  | .deleting v (.unlink it itp next) =>
      ∃ ys u zs, xs = ys ++ (itp, u) :: (it, v) :: zs ∧ m.Lists next zs 0
  | _ => True

theorem Knows.filling {m : Mem} {xs : List (Addr × ℤ)} {p : Point} (h : Knows m xs p)
    (hp : p.fillsHead = true) : ∃ P, m.Filling P := by
  cases p <;> simp only [Point.fillsHead, Bool.false_eq_true] at hp
  rename_i v pc
  cases pc <;> simp only [Bool.false_eq_true] at hp
  · exact ⟨_, h⟩
  · exact ⟨_, h.2⟩
  · exact ⟨_, h⟩
  · exact ⟨_, h.2⟩

/-- The nodes in memory hold the list `xs`, and no value is lost: those in the list, in flight and
reported deleted are the `old` ones and those passed to `insert`. -/
structure Keeps [Fintype τ] (old : Multiset ℤ) (s : State τ) (xs : List (Addr × ℤ)) : Prop where
  null : s.mem.node 0 = none
  complete : (∀ t, (s.point t).fillsHead = false) → s.mem.Lists s.mem.head xs 0
  filling : ∀ t, (s.point t).fillsHead = true → s.mem.head ≠ 0 ∧ xs = []
  alone : ∀ t u, (s.point t).fillsHead = true → (s.point u).fillsHead = true → t = u
  knows : ∀ t, Knows s.mem xs (s.point t)
  owned : ∀ t a, (s.point t).owned = some a →
    (s.mem.node a).isSome ∧ a ∉ addrs xs ∧ a ≠ s.mem.head
  apart : ∀ t u a, (s.point t).owned = some a → (s.point u).owned = some a → t = u
  balance : values xs + total Point.inFlight s.point + s.deleted = old + s.inserted

variable {τ : Type*} [Fintype τ] [DecidableEq τ] {role : τ → Role} {s s' : State τ} {t : τ}
  {i : Input} {old : Multiset ℤ} {xs xs' : List (Addr × ℤ)} {m m' : Mem} {p q : Point}

theorem Knows.of_outside (hins : p.inInsert = false) (hdel : p.inDelete = false) :
    Knows m xs p := by
  cases p <;> trivial

/-- What an inserter knows survives whatever the other inserters do: they change no node that it
is filling in, they store `head->head` in an empty list only, and they only append. -/
theorem Knows.of_grows (hdel : p.inDelete = false) (h : Knows m xs p) (hnull : m.node 0 = none)
    (hhead : m.head ≠ 0 → m'.head = m.head) (haddrs : addrs xs ⊆ addrs xs')
    (hfill : p.fillsHead = true → m'.node m.head = m.node m.head)
    (howned : ∀ a, p.owned = some a → m'.node a = m.node a)
    (hnext : ∀ a ∈ addrs xs, ∀ n, m.node a = some n → n.next ∈ addrs xs →
      ∃ n', m'.node a = some n' ∧ n'.next = n.next) : Knows m' xs' p := by
  have hfilling : ∀ {P : Node → Prop}, p.fillsHead = true → m.Filling P →
      m'.head = m.head ∧ m'.Filling P := by
    rintro P hp ⟨n, hn, hstored, hP⟩
    have hsame : m'.head = m.head := by
      apply hhead
      intro hzero
      rw [hzero, hnull] at hn
      exact absurd hn nofun
    refine ⟨hsame, n, ?_, hstored, hP⟩
    rw [hsame, hfill hp, hn]
  cases p with
  | inserting v pc =>
    cases pc with
    | storeHead q =>
      obtain ⟨n, hn, hstored⟩ := h
      exact ⟨n, (howned q rfl).trans hn, hstored⟩
    | loadHeadForData => exact (hfilling rfl h).2
    | storeHeadData q => exact ⟨h.1.trans (hfilling rfl h.2).1.symm, (hfilling rfl h.2).2⟩
    | loadHeadForNext => exact (hfilling rfl h).2
    | storeHeadNext q => exact ⟨h.1.trans (hfilling rfl h.2).1.symm, (hfilling rfl h.2).2⟩
    | loadIterator =>
      have hne : m.head ≠ 0 := h
      exact hne ∘ (hhead hne).symm.trans
    | testNext it =>
      obtain ⟨hne, h⟩ := h
      refine ⟨hne, h.imp (fun he => ?_) (fun hmem => haddrs hmem)⟩
      rw [hhead (he ▸ hne), he]
    | loadNext it =>
      obtain ⟨hmem, n, hn, hin⟩ := h
      obtain ⟨n', hn', he⟩ := hnext it hmem n hn hin
      exact ⟨haddrs hmem, n', hn', he ▸ haddrs hin⟩
    | malloc it => exact haddrs h
    | storeData it temp => exact haddrs h
    | storeNext it temp =>
      obtain ⟨hmem, n, hn, hdata⟩ := h
      exact ⟨haddrs hmem, n, (howned temp rfl).trans hn, hdata⟩
    | link it temp => exact ⟨haddrs h.1, (howned temp rfl).trans h.2⟩
    | _ => trivial
  | deleting v pc => exact absurd hdel nofun
  | _ => trivial

namespace Keeps

omit [DecidableEq τ] in
/-- While the list has a node in it, nobody fills in a first one. -/
theorem nobody_fills {a : Addr} (h : Keeps old s xs) (ha : a ∈ addrs xs) (u : τ) :
    (s.point u).fillsHead = false := by
  rw [← Bool.not_eq_true]
  intro hu
  rw [(h.filling u hu).2] at ha
  exact absurd ha List.not_mem_nil

omit [DecidableEq τ] in
/-- A list with a node in it is complete. -/
theorem lists {a : Addr} (h : Keeps old s xs) (ha : a ∈ addrs xs) :
    s.mem.Lists s.mem.head xs 0 :=
  h.complete (h.nobody_fills ha)

omit [DecidableEq τ] in
theorem head_isSome (h : Keeps old s xs) (hne : s.mem.head ≠ 0) :
    (s.mem.node s.mem.head).isSome := by
  by_cases hfill : ∃ u, (s.point u).fillsHead = true
  · obtain ⟨u, hu⟩ := hfill
    obtain ⟨P, n, hn, -⟩ := (h.knows u).filling hu
    simp [hn]
  · have hlists := h.complete fun u => Bool.not_eq_true _ ▸ fun hu => hfill ⟨u, hu⟩
    exact isSome_of_mem hlists (head_mem hlists hne)

omit [DecidableEq τ] in
/-- With `head->head` null the list is empty and nobody fills in a first node. -/
theorem empty_of_head (h : Keeps old s xs) (hhead : s.mem.head = 0) :
    xs = [] ∧ ∀ u, (s.point u).fillsHead = false := by
  have hnobody : ∀ u, (s.point u).fillsHead = false := by
    intro u
    rw [← Bool.not_eq_true]
    intro hu
    exact (h.filling u hu).1 hhead
  have hlists := h.complete hnobody
  rw [hhead] at hlists
  exact ⟨nil_of_null h.null hlists, hnobody⟩

omit [DecidableEq τ] in
/-- Memory that is not allocated is new to everybody. -/
theorem fresh {a : Addr} (h : Keeps old s xs) (ha : a ≠ 0) (hfree : s.mem.node a = none) :
    a ∉ addrs xs ∧ a ≠ s.mem.head ∧ ∀ u, (s.point u).owned ≠ some a := by
  refine ⟨fun hmem => ?_, fun he => ?_, fun u hu => ?_⟩
  · exact not_mem_of_free (h.lists hmem) hfree hmem
  · have hsome := h.head_isSome (he ▸ ha)
    rw [← he, hfree] at hsome
    exact absurd hsome nofun
  · have hsome := (h.owned u a hu).1
    rw [hfree] at hsome
    exact absurd hsome nofun

/-- The part of the balance that one thread's move changes. -/
theorem balance_goes (h : Keeps old s xs) (hgo : Goes s s' t q p)
    (hlocal : values xs' + p.inFlight + s'.deleted + s.inserted =
      values xs + q.inFlight + s.deleted + s'.inserted) :
    values xs' + total Point.inFlight s'.point + s'.deleted = old + s'.inserted := by
  have hmove := total_update Point.inFlight s.point t p
  rw [← hgo.target, hgo.source] at hmove
  have hold := h.balance
  ext a
  have hmove := congrArg (Multiset.count a) hmove
  have hold := congrArg (Multiset.count a) hold
  have hlocal := congrArg (Multiset.count a) hlocal
  simp only [Multiset.count_add] at hmove hold hlocal ⊢
  omega

theorem apart_goes (h : Keeps old s xs) (hgo : Goes s s' t q p)
    (hnew : ∀ a, p.owned = some a → ∀ u, u ≠ t → (s.point u).owned ≠ some a) :
    ∀ u w a, (s'.point u).owned = some a → (s'.point w).owned = some a → u = w := by
  intro u w a hu hw
  rw [hgo.target] at hu hw
  by_cases hut : u = t <;> by_cases hwt : w = t
  · exact hut.trans hwt.symm
  · rw [hut, Function.update_self] at hu
    rw [Function.update_of_ne hwt] at hw
    exact absurd hw (hnew a hu w hwt)
  · rw [Function.update_of_ne hut] at hu
    rw [hwt, Function.update_self] at hw
    exact absurd hu (hnew a hw u hut)
  · rw [Function.update_of_ne hut] at hu
    rw [Function.update_of_ne hwt] at hw
    exact h.apart u w a hu hw

/-- A step that leaves the memory alone. -/
theorem quiet (h : Keeps old s xs) (hgo : Goes s s' t q p) (hknows : Knows s.mem xs p)
    (hmem : s'.mem = s.mem := by rfl) (hfill : p.fillsHead = q.fillsHead := by rfl)
    (howned : p.owned = q.owned := by rfl)
    (hlocal : p.inFlight + s'.deleted + s.inserted =
      q.inFlight + s.deleted + s'.inserted := by rfl) : Keeps old s' xs := by
  have hfills := hgo.congr Point.fillsHead hfill
  have howns := hgo.congr Point.owned howned
  refine ⟨?_, ?_, ?_, ?_, ?_, ?_, ?_, ?_⟩
  · exact hmem ▸ h.null
  · intro hnobody
    rw [hmem]
    exact h.complete fun u => (hfills u).symm.trans (hnobody u)
  · intro u hu
    rw [hmem]
    exact h.filling u ((hfills u).symm.trans hu)
  · intro u w hu hw
    exact h.alone u w ((hfills u).symm.trans hu) ((hfills w).symm.trans hw)
  · rw [hmem]
    exact hgo.forall_points hknows fun u _ => h.knows u
  · intro u a hu
    rw [hmem]
    exact h.owned u a ((howns u).symm.trans hu)
  · intro u w a hu hw
    exact h.apart u w a ((howns u).symm.trans hu) ((howns w).symm.trans hw)
  · apply h.balance_goes hgo
    rw [add_assoc, add_assoc, ← add_assoc p.inFlight, hlocal]
    simp only [add_assoc]

/-- A thread writes a node that only it knows, allocates one, or frees one. -/
theorem write_owned {a : Addr} {n : Option Node} (h : Keeps old s xs) (hgo : Goes s s' t q p)
    (hmem : s'.mem = ⟨s.mem.head, Function.update s.mem.node a n⟩) (hzero : a ≠ 0)
    (hlist : a ∉ addrs xs) (hhead : a ≠ s.mem.head) (hothers : ∀ u, u ≠ t → (s.point u).owned ≠ some a)
    (howned : p.owned = none ∨ p.owned = some a ∧ n.isSome) (hknows : Knows s'.mem xs p)
    (hout : ∀ u, u ≠ t → (s.point u).inDelete = false)
    (hlocal : p.inFlight + s'.deleted + s.inserted = q.inFlight + s.deleted + s'.inserted := by rfl)
    (hq : q.fillsHead = false := by rfl) (hp : p.fillsHead = false := by rfl) :
    Keeps old s' xs := by
  have hfills := hgo.congr Point.fillsHead (hp.trans hq.symm)
  have hnode := node_store hmem
  have hsame : s'.mem.head = s.mem.head := by rw [hmem]
  refine ⟨?_, ?_, ?_, ?_, ?_, ?_, ?_, ?_⟩
  · exact (hnode 0 hzero.symm).trans h.null
  · intro hnobody
    rw [hsame]
    refine lists_congr (h.complete fun u => (hfills u).symm.trans (hnobody u)) fun b hb => hnode b ?_
    intro heq
    subst heq
    exact hlist hb
  · intro u hu
    rw [hsame]
    exact h.filling u ((hfills u).symm.trans hu)
  · intro u w hu hw
    exact h.alone u w ((hfills u).symm.trans hu) ((hfills w).symm.trans hw)
  · refine hgo.forall_points hknows fun u hu => ?_
    refine (h.knows u).of_grows (hout u hu) h.null (fun _ => hsame) (List.Subset.refl _)
      (fun _ => hnode _ hhead.symm) (fun b hb => hnode b ?_) fun b hb m hm _ => ⟨m, ?_, rfl⟩
    · intro heq
      subst heq
      exact hothers u hu hb
    · refine (hnode b ?_).trans hm
      intro heq
      subst heq
      exact hlist hb
  · rw [hsame]
    refine hgo.forall_points
      (P := fun _ x => ∀ b, x.owned = some b → (s'.mem.node b).isSome ∧ b ∉ addrs xs ∧ b ≠ s.mem.head)
      (fun b hb => ?_) fun u hu b hb => ?_
    · rcases howned with hnone | ⟨hsome, hn⟩
      · exact absurd (hnone.symm.trans hb) nofun
      · obtain rfl : a = b := Option.some.inj (hsome.symm.trans hb)
        refine ⟨?_, hlist, hhead⟩
        rw [hmem]
        exact (congrArg Option.isSome (Function.update_self a n s.mem.node)).trans hn
    · have hba : b ≠ a := by
        intro heq
        subst heq
        exact hothers u hu hb
      rw [hnode b hba]
      exact h.owned u b hb
  · apply h.apart_goes hgo
    intro b hb u hu
    rcases howned with hnone | ⟨hsome, -⟩
    · exact absurd (hnone.symm.trans hb) nofun
    · obtain rfl : a = b := Option.some.inj (hsome.symm.trans hb)
      exact hothers u hu
  · apply h.balance_goes hgo
    rw [add_assoc, add_assoc, ← add_assoc p.inFlight, hlocal]
    simp only [add_assoc]

end Keeps

end OperatingSystems.SearchInsertDelete
