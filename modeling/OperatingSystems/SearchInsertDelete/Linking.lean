import OperatingSystems.SearchInsertDelete.Ownership

namespace OperatingSystems.SearchInsertDelete

open Library

variable {τ : Type*} [Fintype τ] [DecidableEq τ] {role : τ → Role} {s s' : State τ} {t : τ}
  {i : Input} {old : Multiset ℤ} {xs : List (Addr × ℤ)} {v : ℤ}

namespace Keeps

/-- Storing a new node into an empty `head->head`. -/
theorem store_head {a : Addr} (h : Keeps old s xs)
    (hgo : Goes s s' t (.inserting v (.storeHead a)) (.inserting v .loadHeadForData))
    (hmem : s'.mem = ⟨a, s.mem.node⟩) (hhead : s.mem.head = 0)
    (hout : ∀ u, u ≠ t → (s.point u).inDelete = false)
    (hdel : s'.deleted = s.deleted := by rfl) (hins : s'.inserted = s.inserted := by rfl) :
    Keeps old s' xs := by
  obtain ⟨hxs, hnobody⟩ := h.empty_of_head hhead
  have howned : (s.point t).owned = some a := by rw [hgo.source]; rfl
  have hknows := h.knows t
  rw [hgo.source] at hknows
  obtain ⟨n, hn, hstored⟩ : ∃ n, s.mem.node a = some n ∧ n.nextStored = false := hknows
  have hne : a ≠ 0 := ne_zero_of_isSome h.null (Option.isSome_of_eq_some hn)
  refine ⟨?_, ?_, ?_, ?_, ?_, ?_, ?_, ?_⟩
  · rw [hmem]
    exact h.null
  · intro hnone
    have hfilling := hnone t
    rw [hgo.target, Function.update_self] at hfilling
    exact absurd hfilling nofun
  · intro _ _
    rw [hmem]
    exact ⟨hne, hxs⟩
  · exact hgo.at_most_one _ fun u _ => hnobody u
  · refine hgo.forall_points ?_ fun u hu => ?_
    · rw [hmem]
      exact ⟨n, hn, hstored, trivial⟩
    · apply (h.knows u).of_grows (hout u hu) h.null (absurd hhead) (List.Subset.refl _)
      · intro _
        rw [hmem]
      · intro b _
        rw [hmem]
      · intro b _ m hm _
        exact ⟨m, by rw [hmem]; exact hm, rfl⟩
  · rw [hmem]
    refine hgo.forall_points
      (P := fun _ x => ∀ b, x.owned = some b → (s.mem.node b).isSome ∧ b ∉ addrs xs ∧ b ≠ a)
      (fun b hb => absurd hb nofun) fun u hu b hb => ?_
    refine ⟨(h.owned u b hb).1, (h.owned u b hb).2.1, ?_⟩
    intro heq
    subst heq
    exact hu (h.apart u t b hb howned)
  · exact h.apart_goes hgo fun b hb => absurd hb nofun
  · apply h.balance_goes hgo
    rw [hdel, hins]
    rfl

/-- Filling in the node that `head->head` points to, up to the last store that makes it a list. -/
theorem fill_head {p q : Point} {n : Node} (h : Keeps old s xs) (hgo : Goes s s' t q p)
    (hq : q.fillsHead = true)
    (hmem : s'.mem = ⟨s.mem.head, Function.update s.mem.node s.mem.head (some n)⟩)
    (hp : p.owned = none) {ys : List (Addr × ℤ)}
    (hknows : Knows s'.mem ys p) (hout : ∀ u, u ≠ t → (s.point u).inDelete = false)
    (hlist : p.fillsHead = true ∧ ys = [] ∨
      p.fillsHead = false ∧ s'.mem.Lists s'.mem.head ys 0 ∧ addrs ys = [s.mem.head])
    (hlocal : values ys + p.inFlight + s'.deleted + s.inserted =
      q.inFlight + s.deleted + s'.inserted) : Keeps old s' ys := by
  have hfill : (s.point t).fillsHead = true := by rw [hgo.source]; exact hq
  obtain ⟨hhead, rfl⟩ := h.filling t hfill
  have hnobody : ∀ u, u ≠ t → (s.point u).fillsHead = false := by
    intro u hu
    rw [← Bool.not_eq_true]
    intro hf
    exact hu (h.alone u t hf hfill)
  have hnode := node_store hmem
  have hsame : s'.mem.head = s.mem.head := by rw [hmem]
  have haddrs : ∀ b ∈ addrs ys, b = s.mem.head := by
    intro b hb
    rcases hlist with ⟨-, rfl⟩ | ⟨-, -, hys⟩
    · exact absurd hb List.not_mem_nil
    · rw [hys] at hb
      exact List.mem_singleton.mp hb
  refine ⟨?_, ?_, ?_, ?_, ?_, ?_, ?_, ?_⟩
  · exact (hnode 0 hhead.symm).trans h.null
  · intro hnone
    rcases hlist with ⟨hf, -⟩ | ⟨-, hys, -⟩
    · have hft := hnone t
      rw [hgo.target, Function.update_self, hf] at hft
      exact absurd hft nofun
    · exact hys
  · refine hgo.forall_points (P := fun _ x => x.fillsHead = true → s'.mem.head ≠ 0 ∧ ys = [])
      (fun hf => ?_) fun u hu hf => absurd (hf.symm.trans (hnobody u hu)) nofun
    rcases hlist with ⟨-, hys⟩ | ⟨hf', -⟩
    · exact ⟨hsame ▸ hhead, hys⟩
    · exact absurd (hf.symm.trans hf') nofun
  · exact hgo.at_most_one _ hnobody
  · refine hgo.forall_points hknows fun u hu => ?_
    refine (h.knows u).of_grows (hout u hu) h.null (fun _ => hsame) (List.nil_subset _) ?_ ?_ ?_
    · intro hf
      exact absurd (hf.symm.trans (hnobody u hu)) nofun
    · intro b hb
      exact hnode b (h.owned u b hb).2.2
    · intro b hb
      exact absurd hb List.not_mem_nil
  · refine hgo.forall_points
      (P := fun _ x => ∀ b, x.owned = some b →
        (s'.mem.node b).isSome ∧ b ∉ addrs ys ∧ b ≠ s'.mem.head)
      (fun b hb => absurd (hp.symm.trans hb) nofun) fun u hu b hb => ?_
    obtain ⟨hsome, -, hne⟩ := h.owned u b hb
    rw [hnode b hne, hsame]
    exact ⟨hsome, fun hmem => hne (haddrs b hmem), hne⟩
  · exact h.apart_goes hgo fun b hb => absurd (hp.symm.trans hb) nofun
  · apply h.balance_goes hgo
    rw [hlocal]
    show q.inFlight + s.deleted + s'.inserted = 0 + q.inFlight + s.deleted + s'.inserted
    rw [zero_add]

/-- A thread writes or frees a node that it owns already. -/
theorem write_own {p q : Point} {a : Addr} {n : Option Node} (h : Keeps old s xs)
    (hgo : Goes s s' t q p) (hq : q.owned = some a)
    (hmem : s'.mem = ⟨s.mem.head, Function.update s.mem.node a n⟩)
    (howned : p.owned = none ∨ p.owned = some a ∧ n.isSome) (hknows : Knows s'.mem xs p)
    (hout : ∀ u, u ≠ t → (s.point u).inDelete = false)
    (hlocal : p.inFlight + s'.deleted + s.inserted = q.inFlight + s.deleted + s'.inserted := by rfl)
    (hqf : q.fillsHead = false := by rfl) (hpf : p.fillsHead = false := by rfl) :
    Keeps old s' xs := by
  have hmine : (s.point t).owned = some a := by rw [hgo.source]; exact hq
  obtain ⟨hsome, hlist, hhead⟩ := h.owned t a hmine
  refine h.write_owned hgo hmem (ne_zero_of_isSome h.null hsome) hlist hhead ?_ howned hknows hout
    hlocal hqf hpf
  intro u hu hown
  exact hu (h.apart u t a hown hmine)

omit [DecidableEq τ] in
/-- A node that an inserter has come to is in the list once its link has been stored. -/
theorem mem_of_stored {it : Addr} {n : Node} (h : Keeps old s xs)
    (hit : it ≠ 0 ∧ (it = s.mem.head ∨ it ∈ addrs xs)) (hn : s.mem.node it = some n)
    (hstored : n.nextStored = true) : it ∈ addrs xs := by
  obtain ⟨hne, rfl | hmem⟩ := hit
  · refine head_mem (h.complete fun u => ?_) hne
    rw [← Bool.not_eq_true]
    intro hu
    obtain ⟨P, n', hn', hfalse, -⟩ := (h.knows u).filling hu
    obtain rfl : n = n' := Option.some.inj (hn.symm.trans hn')
    exact absurd (hstored.symm.trans hfalse) nofun
  · exact hmem

/-- Linking a node behind the last one. -/
theorem link {it temp : Addr} {n : Node} (h : Keeps old s xs)
    (hgo : Goes s s' t (.inserting v (.link it temp)) .insExitWait)
    (hn : s.mem.node it = some n) (hlast : n.next = 0)
    (hmem : s'.mem =
      ⟨s.mem.head, Function.update s.mem.node it (some { n with next := temp, nextStored := true })⟩)
    (hout : ∀ u, u ≠ t → (s.point u).inDelete = false)
    (hdel : s'.deleted = s.deleted := by rfl) (hins : s'.inserted = s.inserted := by rfl) :
    Keeps old s' (xs ++ [(temp, v)]) := by
  have howned : (s.point t).owned = some temp := by rw [hgo.source]; rfl
  have hknows := h.knows t
  rw [hgo.source] at hknows
  obtain ⟨hit, htemp⟩ : it ∈ addrs xs ∧ s.mem.node temp = some ⟨v, 0, true, true⟩ := hknows
  have hlists := h.lists hit
  obtain ⟨w, r, rfl, -⟩ := node_eq_of_mem hlists hit hn
  obtain rfl : r = 0 := hlast
  obtain ⟨-, hfresh, -⟩ := h.owned t temp howned
  have hnobody := h.nobody_fills hit
  have hfills : ∀ u, (s'.point u).fillsHead = false := by
    refine hgo.forall_points (P := fun _ x => x.fillsHead = false) rfl fun u _ => hnobody u
  have hnode := node_store hmem
  have hsame : s'.mem.head = s.mem.head := by rw [hmem]
  have hsub : addrs xs ⊆ addrs (xs ++ [(temp, v)]) := by
    rw [addrs_append]
    exact List.subset_append_left ..
  refine ⟨?_, ?_, ?_, ?_, ?_, ?_, ?_, ?_⟩
  · exact (hnode 0 (ne_zero_of_mem h.null hlists hit).symm).trans h.null
  · intro _
    rw [hmem]
    exact lists_link h.null hlists hn hit htemp hfresh
  · intro u hu
    exact absurd (hu.symm.trans (hfills u)) nofun
  · intro u w hu
    exact absurd (hu.symm.trans (hfills u)) nofun
  · refine hgo.forall_points trivial fun u hu => ?_
    refine (h.knows u).of_grows (hout u hu) h.null (fun _ => hsame) hsub ?_ ?_ ?_
    · intro hf
      exact absurd (hf.symm.trans (hnobody u)) nofun
    · intro b hb
      apply hnode b
      intro heq
      subst heq
      exact (h.owned u b hb).2.1 hit
    · intro b hb m hm hin
      by_cases hbit : b = it
      · -- the last node has no next one yet
        subst b
        obtain rfl : m = ⟨w, 0, true, true⟩ := Option.some.inj (hm.symm.trans hn)
        exact absurd rfl (ne_zero_of_mem h.null hlists hin)
      · exact ⟨m, (hnode b hbit).trans hm, rfl⟩
  · refine hgo.forall_points
      (P := fun _ x => ∀ b, x.owned = some b →
        (s'.mem.node b).isSome ∧ b ∉ addrs (xs ++ [(temp, v)]) ∧ b ≠ s'.mem.head)
      (fun b hb => absurd hb nofun) fun u hu b hb => ?_
    obtain ⟨hsome, hnot, hbhead⟩ := h.owned u b hb
    have hbit : b ≠ it := by
      intro heq
      subst heq
      exact hnot hit
    have hbtemp : b ≠ temp := by
      intro heq
      subst heq
      exact hu (h.apart u t b hb howned)
    rw [hnode b hbit, hsame, addrs_append]
    refine ⟨hsome, ?_, hbhead⟩
    simp only [List.mem_append, not_or]
    exact ⟨hnot, fun hmem => hbtemp (List.mem_singleton.mp hmem)⟩
  · exact h.apart_goes hgo fun b hb => absurd hb nofun
  · apply h.balance_goes hgo
    rw [hdel, hins, values_append]
    show values xs + {v} + 0 + s.deleted + s.inserted = values xs + {v} + s.deleted + s.inserted
    rw [add_zero]

/-- Unlinking a node: what was the list before it now ends where the rest begins. -/
theorem unlink {q : Point} {it : Addr} {xs' : List (Addr × ℤ)} (h : Keeps old s xs)
    (hgo : Goes s s' t q (.deleting v (.free it))) (hq : q.inFlight = 0)
    (hperm : xs.Perm ((it, v) :: xs')) (hnobody : ∀ u, (s.point u).fillsHead = false)
    (hnull : s'.mem.node 0 = none) (hlists : s'.mem.Lists s'.mem.head xs' 0)
    (hnode : ∀ b, b ∉ addrs xs' → s'.mem.node b = s.mem.node b)
    (hout : ∀ u, u ≠ t → (s.point u).inInsert = false ∧ (s.point u).inDelete = false)
    (hdel : s'.deleted = s.deleted := by rfl) (hins : s'.inserted = s.inserted := by rfl) :
    Keeps old s' xs' := by
  have hmoved : ∀ b, b ∈ addrs xs ↔ b = it ∨ b ∈ addrs xs' := by
    intro b
    exact (hperm.map Prod.fst).mem_iff.trans List.mem_cons
  have hlistsOld := h.complete hnobody
  have hnodup : (addrs ((it, v) :: xs')).Nodup :=
    (hperm.map Prod.fst).nodup_iff.mp (nodup_addrs h.null hlistsOld)
  have hit : it ∉ addrs xs' := (List.nodup_cons.mp hnodup).1
  have hitOld : it ∈ addrs xs := (hmoved it).mpr (.inl rfl)
  have hzero : it ≠ 0 := ne_zero_of_mem h.null hlistsOld hitOld
  have hfills : ∀ u, (s'.point u).fillsHead = false := by
    refine hgo.forall_points (P := fun _ x => x.fillsHead = false) rfl fun u _ => hnobody u
  have hhead : ∀ b, b ∉ addrs xs' → b ≠ 0 → b ≠ s'.mem.head := by
    rintro b hb hb0 rfl
    exact hb (head_mem hlists hb0)
  have hnone : ∀ u, u ≠ t → ∀ b, (s.point u).owned ≠ some b := by
    intro u hu b hb
    obtain ⟨hI, hD⟩ := hout u hu
    cases hp : s.point u <;> simp only [hp, Point.owned, Point.inInsert, Point.inDelete,
      reduceCtorEq] at hb hI hD
  refine ⟨hnull, fun _ => hlists, ?_, ?_, ?_, ?_, ?_, ?_⟩
  · intro u hu
    exact absurd ((hfills u).symm.trans hu) Bool.false_ne_true
  · intro u w hu
    exact absurd ((hfills u).symm.trans hu) Bool.false_ne_true
  · exact hgo.forall_points trivial fun u hu => .of_outside (hout u hu).1 (hout u hu).2
  · refine hgo.forall_points
      (P := fun _ x => ∀ b, x.owned = some b →
        (s'.mem.node b).isSome ∧ b ∉ addrs xs' ∧ b ≠ s'.mem.head)
      (fun b hb => ?_) fun u hu b hb => absurd hb (hnone u hu b)
    obtain rfl : it = b := Option.some.inj hb
    refine ⟨?_, hit, hhead it hit hzero⟩
    rw [hnode it hit]
    exact isSome_of_mem hlistsOld hitOld
  · exact h.apart_goes hgo fun b _ u hu hb => hnone u hu b hb
  · apply h.balance_goes hgo
    have hvalues : values xs = v ::ₘ values xs' := Multiset.coe_eq_coe.mpr (hperm.map Prod.snd)
    rw [hdel, hins, hq, hvalues]
    show values xs' + {v} + s.deleted + s.inserted = v ::ₘ values xs' + 0 + s.deleted + s.inserted
    rw [add_zero, ← Multiset.singleton_add, add_comm (values xs')]

end Keeps

/-- An insert stores its node only where it found `NULL` and `NULL` still is, and it tests only
links that have been stored. -/
def NothingOverwritten (s : State τ) (e : τ × Input) : Prop :=
  match s.point e.1 with
  | .inserting _ (.storeHead _) => s.mem.head = 0
  | .inserting _ (.testNext it) => ∀ n, s.mem.node it = some n → n.nextStored = true
  | .inserting _ (.link it _) => ∀ n, s.mem.node it = some n → n.next = 0
  | _ => True

theorem malloc_eq_some {m m' : Mem} : m.malloc i = some m' ↔ (i.addr ≠ 0 ∧ m.node i.addr = none) ∧
    m' = ⟨m.head, Function.update m.node i.addr (some ⟨i.data, i.next, false, false⟩)⟩ := by
  simp only [Mem.malloc, Option.ite_none_left_eq_some, not_or, Bool.not_eq_true,
    Option.isSome_eq_false_iff, Option.isNone_iff_eq_none, Option.some.injEq, ne_eq]
  exact and_congr_right' eq_comm

theorem setData_eq_some {m m' : Mem} {a : Addr} : m.setData a v = some m' ↔
    ∃ n, m.node a = some n ∧
      m' = ⟨m.head, Function.update m.node a (some { n with data := v, dataStored := true })⟩ := by
  rw [Mem.setData, Option.map_eq_some_iff]
  exact exists_congr fun n => and_congr_right' eq_comm

theorem setNext_eq_some {m m' : Mem} {a next : Addr} : m.setNext a next = some m' ↔
    ∃ n, m.node a = some n ∧
      m' = ⟨m.head, Function.update m.node a (some { n with next := next, nextStored := true })⟩ := by
  rw [Mem.setNext, Option.map_eq_some_iff]
  exact exists_congr fun n => and_congr_right' eq_comm

theorem free_eq_some {m m' : Mem} {a : Addr} : m.free a = some m' ↔
    (m.node a).isSome ∧ m' = ⟨m.head, Function.update m.node a none⟩ := by
  cases h : m.node a <;> simp [Mem.free, h, eq_comm]

/-- What a step of the list section of `insert` does to the list. -/
inductive InsertDoes (m : Mem) (v : ℤ) (i : Input) : InsertPc → Mem → Option InsertPc → Prop
  | testHead : InsertDoes m v i .testHead m (some (if m.head = 0 then .mallocHead else .loadIterator))
  | mallocHead (ne : i.addr ≠ 0) (free : m.node i.addr = none) : InsertDoes m v i .mallocHead
      ⟨m.head, Function.update m.node i.addr (some ⟨i.data, i.next, false, false⟩)⟩
      (some (.storeHead i.addr))
  | storeHead {p} : InsertDoes m v i (.storeHead p) ⟨p, m.node⟩ (some .loadHeadForData)
  | loadHeadForData : InsertDoes m v i .loadHeadForData m (some (.storeHeadData m.head))
  | storeHeadData {q n} (node : m.node q = some n) : InsertDoes m v i (.storeHeadData q)
      ⟨m.head, Function.update m.node q (some { n with data := v, dataStored := true })⟩
      (some .loadHeadForNext)
  | loadHeadForNext : InsertDoes m v i .loadHeadForNext m (some (.storeHeadNext m.head))
  | storeHeadNext {q n} (node : m.node q = some n) : InsertDoes m v i (.storeHeadNext q)
      ⟨m.head, Function.update m.node q (some { n with next := 0, nextStored := true })⟩ none
  | loadIterator : InsertDoes m v i .loadIterator m (some (.testNext m.head))
  | testNext {it n} (node : m.node it = some n) : InsertDoes m v i (.testNext it) m
      (some (if n.next ≠ 0 then .loadNext it else .malloc it))
  | loadNext {it n} (node : m.node it = some n) :
      InsertDoes m v i (.loadNext it) m (some (.testNext n.next))
  | malloc {it} (ne : i.addr ≠ 0) (free : m.node i.addr = none) : InsertDoes m v i (.malloc it)
      ⟨m.head, Function.update m.node i.addr (some ⟨i.data, i.next, false, false⟩)⟩
      (some (.storeData it i.addr))
  | storeData {it temp n} (node : m.node temp = some n) : InsertDoes m v i (.storeData it temp)
      ⟨m.head, Function.update m.node temp (some { n with data := v, dataStored := true })⟩
      (some (.storeNext it temp))
  | storeNext {it temp n} (node : m.node temp = some n) : InsertDoes m v i (.storeNext it temp)
      ⟨m.head, Function.update m.node temp (some { n with next := 0, nextStored := true })⟩
      (some (.link it temp))
  | link {it temp n} (node : m.node it = some n) : InsertDoes m v i (.link it temp)
      ⟨m.head, Function.update m.node it (some { n with next := temp, nextStored := true })⟩ none

theorem insertStep_does {m m' : Mem} {pc : InsertPc} {pc' : Option InsertPc}
    (hm : insertStep m v i pc = some (m', pc')) : InsertDoes m v i pc m' pc' := by
  cases pc <;> simp only [insertStep, Option.some.injEq, Option.map_eq_some_iff, malloc_eq_some,
    setData_eq_some, setNext_eq_some, Prod.mk.injEq] at hm
  case mallocHead | malloc =>
    obtain ⟨_, ⟨⟨hne, hfree⟩, rfl⟩, rfl, rfl⟩ := hm
    constructor <;> assumption
  case storeHeadData | storeHeadNext | storeData | storeNext | link =>
    obtain ⟨_, ⟨n, hn, rfl⟩, rfl, rfl⟩ := hm
    constructor
    exact hn
  case testNext | loadNext =>
    obtain ⟨n, hn, rfl, rfl⟩ := hm
    constructor
    exact hn
  all_goals
    obtain ⟨rfl, rfl⟩ := hm
    constructor

/-- The list section of `insert`: with its last store the new value stands at the end of the list. -/
theorem keeps_inserting {pc : InsertPc} (h : Keeps old s xs) (hp : s.point t = .inserting v pc)
    (hout : ∀ u, u ≠ t → (s.point u).inDelete = false) (hclean : NothingOverwritten s (t, i))
    (hs : step role s (t, i) = some s') : ∃ ys, Keeps old s' ys ∧
      ((∃ pc', s'.point t = .inserting v pc') ∧ ys = xs ∨
        s'.point t = .insExitWait ∧ ∃ a, ys = xs ++ [(a, v)]) := by
  have hknows := h.knows t
  rw [hp] at hknows
  simp only [NothingOverwritten, hp] at hclean
  simp only [step, hp, Option.map_eq_some_iff, Prod.exists] at hs
  obtain ⟨m, pc', hm, rfl⟩ := hs
  cases insertStep_does hm with
  | testHead =>
    refine ⟨xs, ?_, .inl ⟨⟨_, Function.update_self ..⟩, rfl⟩⟩
    split_ifs with hhead
    · exact h.quiet ⟨hp, rfl⟩ trivial
    · exact h.quiet ⟨hp, rfl⟩ hhead
  | mallocHead hne hfree =>
    obtain ⟨hlist, hhead, hothers⟩ := h.fresh hne hfree
    exact ⟨xs, h.write_owned ⟨hp, rfl⟩ rfl hne hlist hhead (fun u _ => hothers u)
      (.inr ⟨rfl, rfl⟩) ⟨_, Function.update_self .., rfl⟩ hout,
      .inl ⟨⟨_, Function.update_self ..⟩, rfl⟩⟩
  | storeHead =>
    exact ⟨xs, h.store_head ⟨hp, rfl⟩ rfl hclean hout, .inl ⟨⟨_, Function.update_self ..⟩, rfl⟩⟩
  | loadHeadForData =>
    exact ⟨xs, h.quiet ⟨hp, rfl⟩ ⟨rfl, hknows⟩, .inl ⟨⟨_, Function.update_self ..⟩, rfl⟩⟩
  | @storeHeadData q n hn =>
    obtain ⟨rfl, n', hn', hstored, -⟩ := hknows
    obtain rfl : n = n' := Option.some.inj (hn.symm.trans hn')
    obtain ⟨-, rfl⟩ := h.filling t (by rw [hp]; rfl)
    exact ⟨[], h.fill_head (p := .inserting v .loadHeadForNext) ⟨hp, rfl⟩ rfl rfl rfl
      ⟨_, Function.update_self .., hstored, rfl, rfl⟩ hout (.inl ⟨rfl, rfl⟩) rfl,
      .inl ⟨⟨_, Function.update_self ..⟩, rfl⟩⟩
  | loadHeadForNext =>
    exact ⟨xs, h.quiet ⟨hp, rfl⟩ ⟨rfl, hknows⟩, .inl ⟨⟨_, Function.update_self ..⟩, rfl⟩⟩
  | @storeHeadNext q n hn =>
    obtain ⟨rfl, n', hn', hstored, rfl, hdata⟩ := hknows
    obtain rfl : n = n' := Option.some.inj (hn.symm.trans hn')
    obtain ⟨-, rfl⟩ := h.filling t (by rw [hp]; rfl)
    refine ⟨[(s.mem.head, n.data)], h.fill_head (p := .insExitWait) ⟨hp, rfl⟩ rfl rfl rfl trivial hout
      (.inr ⟨rfl, ⟨rfl, 0, ?_, rfl⟩, rfl⟩) rfl, .inr ⟨Function.update_self .., s.mem.head, rfl⟩⟩
    show Function.update s.mem.node s.mem.head (some ⟨n.data, 0, n.dataStored, true⟩) s.mem.head =
      some ⟨n.data, 0, true, true⟩
    rw [Function.update_self, hdata]
  | loadIterator =>
    exact ⟨xs, h.quiet ⟨hp, rfl⟩ ⟨hknows, .inl rfl⟩, .inl ⟨⟨_, Function.update_self ..⟩, rfl⟩⟩
  | @testNext it n hn =>
    have hit : it ∈ addrs xs := h.mem_of_stored hknows hn (hclean n hn)
    obtain ⟨w, r, rfl, hend⟩ := node_eq_of_mem (h.lists hit) hit hn
    refine ⟨xs, ?_, .inl ⟨⟨_, Function.update_self ..⟩, rfl⟩⟩
    split_ifs with hnext
    · exact h.quiet ⟨hp, rfl⟩ ⟨hit, _, hn, hend.resolve_left hnext⟩
    · exact h.quiet ⟨hp, rfl⟩ hit
  | @loadNext it n hn =>
    obtain ⟨hit, n', hn', hnext⟩ := hknows
    obtain rfl : n = n' := Option.some.inj (hn.symm.trans hn')
    have hne := ne_zero_of_mem h.null (h.lists hit) hnext
    exact ⟨xs, h.quiet ⟨hp, rfl⟩ ⟨hne, .inr hnext⟩, .inl ⟨⟨_, Function.update_self ..⟩, rfl⟩⟩
  | @malloc it hne hfree =>
    obtain ⟨hlist, hhead, hothers⟩ := h.fresh hne hfree
    exact ⟨xs, h.write_owned ⟨hp, rfl⟩ rfl hne hlist hhead (fun u _ => hothers u)
      (.inr ⟨rfl, rfl⟩) hknows hout, .inl ⟨⟨_, Function.update_self ..⟩, rfl⟩⟩
  | storeData =>
    exact ⟨xs, h.write_own ⟨hp, rfl⟩ rfl rfl (.inr ⟨rfl, rfl⟩)
      ⟨hknows, _, Function.update_self .., rfl, rfl⟩ hout, .inl ⟨⟨_, Function.update_self ..⟩, rfl⟩⟩
  | @storeNext it temp n hn =>
    obtain ⟨hit, n', hn', rfl, hdata⟩ := hknows
    obtain rfl : n = n' := Option.some.inj (hn.symm.trans hn')
    refine ⟨xs, h.write_own ⟨hp, rfl⟩ rfl rfl (.inr ⟨rfl, rfl⟩) ⟨hit, ?_⟩ hout,
      .inl ⟨⟨_, Function.update_self ..⟩, rfl⟩⟩
    rw [← hdata]
    exact Function.update_self ..
  | @link it temp n hn =>
    exact ⟨_, h.link ⟨hp, rfl⟩ hn (hclean n hn) rfl hout, .inr ⟨Function.update_self .., temp, rfl⟩⟩

/-- What a step of the list section of `delete` does to the list. -/
inductive DeleteDoes (m : Mem) (v : ℤ) : DeletePc → Mem → DeletePc ⊕ Bool → Prop
  | testHead : DeleteDoes m v .testHead m (.inl .loadHead)
  | noHead (null : m.head = 0) : DeleteDoes m v .loadHead m (.inr false)
  | loadHead (ne : m.head ≠ 0) : DeleteDoes m v .loadHead m (.inl (.testData m.head 0))
  | foundFirst {it n} (node : m.node it = some n) (data : n.data = v) :
      DeleteDoes m v (.testData it 0) m (.inl (.loadUnlinkHead it))
  | found {it itp n} (node : m.node it = some n) (data : n.data = v) (ne : itp ≠ 0) :
      DeleteDoes m v (.testData it itp) m (.inl (.loadUnlink it itp))
  | passOver {it itp n} (node : m.node it = some n) (data : n.data ≠ v) :
      DeleteDoes m v (.testData it itp) m (.inl (.loadNext it))
  | noNext {it n} (node : m.node it = some n) (null : n.next = 0) :
      DeleteDoes m v (.loadNext it) m (.inr false)
  | loadNext {it n} (node : m.node it = some n) (ne : n.next ≠ 0) :
      DeleteDoes m v (.loadNext it) m (.inl (.testData n.next it))
  | loadUnlinkHead {it n} (node : m.node it = some n) :
      DeleteDoes m v (.loadUnlinkHead it) m (.inl (.unlinkHead it n.next))
  | unlinkHead {it next} : DeleteDoes m v (.unlinkHead it next) ⟨next, m.node⟩ (.inl (.free it))
  | loadUnlink {it itp n} (node : m.node it = some n) :
      DeleteDoes m v (.loadUnlink it itp) m (.inl (.unlink it itp n.next))
  | unlink {it itp next n} (node : m.node itp = some n) : DeleteDoes m v (.unlink it itp next)
      ⟨m.head, Function.update m.node itp (some { n with next := next, nextStored := true })⟩
      (.inl (.free it))
  | free {it} (node : (m.node it).isSome) : DeleteDoes m v (.free it)
      ⟨m.head, Function.update m.node it none⟩ (.inr true)

theorem deleteStep_does {m m' : Mem} {pc : DeletePc} {r : DeletePc ⊕ Bool}
    (hm : deleteStep m v pc = some (m', r)) : DeleteDoes m v pc m' r := by
  cases pc <;> simp only [deleteStep, Option.some.injEq, Option.map_eq_some_iff, setNext_eq_some,
    free_eq_some, Prod.mk.injEq] at hm
  case testHead | unlinkHead =>
    obtain ⟨rfl, rfl⟩ := hm
    constructor
  case loadHead =>
    obtain ⟨rfl, rfl⟩ := hm
    split_ifs with hhead
    · exact .noHead hhead
    · exact .loadHead hhead
  case testData it itp =>
    obtain ⟨n, hn, rfl, rfl⟩ := hm
    split_ifs with hdata hzero
    · subst hzero
      exact .foundFirst hn hdata
    · exact .found hn hdata hzero
    · exact .passOver hn hdata
  case loadNext =>
    obtain ⟨n, hn, rfl, rfl⟩ := hm
    split_ifs with hnext
    · exact .noNext hn hnext
    · exact .loadNext hn hnext
  case loadUnlinkHead | loadUnlink =>
    obtain ⟨n, hn, rfl, rfl⟩ := hm
    constructor
    exact hn
  case unlink =>
    obtain ⟨_, ⟨n, hn, rfl⟩, rfl, rfl⟩ := hm
    constructor
    exact hn
  case free =>
    obtain ⟨_, ⟨hsome, rfl⟩, rfl, rfl⟩ := hm
    exact .free hsome

/-- The list section of `delete`, where nobody else is in a list section. -/
theorem keeps_deleting {pc : DeletePc} (h : Keeps old s xs) (hp : s.point t = .deleting v pc)
    (hout : ∀ u, u ≠ t → (s.point u).inInsert = false ∧ (s.point u).inDelete = false)
    (hs : step role s (t, i) = some s') : ∃ ys, Keeps old s' ys := by
  have hknows := h.knows t
  rw [hp] at hknows
  have hnobody : ∀ u, (s.point u).fillsHead = false := by
    intro u
    by_cases hu : u = t
    · rw [hu, hp]
      rfl
    · exact Point.fillsHead_of_outside (hout u hu).1
  have hlists := h.complete hnobody
  simp only [step, hp, Option.map_eq_some_iff, Prod.exists] at hs
  obtain ⟨m, r, hm, rfl⟩ := hs
  cases deleteStep_does hm with
  | testHead | noHead => exact ⟨xs, h.quiet ⟨hp, rfl⟩ trivial⟩
  | loadHead hhead =>
    obtain ⟨⟨a, w⟩, ys, rfl, ha⟩ := hlists.head_eq hhead
    exact ⟨_, h.quiet ⟨hp, rfl⟩ ⟨[], w, ys, by rw [ha]; rfl, .inl ⟨rfl, rfl⟩⟩⟩
  | @foundFirst it n hn hdata =>
    obtain ⟨ys, w, zs, rfl, hitp⟩ := hknows
    obtain ⟨r, rfl, -⟩ := node_at hlists hn
    obtain rfl : w = v := hdata
    obtain ⟨-, rfl⟩ := hitp.resolve_right fun hne => hne.1 rfl
    exact ⟨_, h.quiet ⟨hp, rfl⟩ ⟨zs, rfl⟩⟩
  | @found it itp n hn hdata hne =>
    obtain ⟨ys, w, zs, rfl, hitp⟩ := hknows
    obtain ⟨r, rfl, -⟩ := node_at hlists hn
    obtain rfl : w = v := hdata
    obtain ⟨-, ys', u, rfl⟩ := hitp.resolve_left fun he => hne he.1
    exact ⟨_, h.quiet ⟨hp, rfl⟩ ⟨ys', u, zs, by simp⟩⟩
  | passOver =>
    obtain ⟨ys, w, zs, rfl, -⟩ := hknows
    exact ⟨_, h.quiet ⟨hp, rfl⟩ (mem_addrs.mpr ⟨ys, w, zs, rfl⟩)⟩
  | noNext => exact ⟨xs, h.quiet ⟨hp, rfl⟩ trivial⟩
  | @loadNext it n hn hnext =>
    have hne : it ≠ 0 := ne_zero_of_mem h.null hlists hknows
    obtain ⟨ys, w, zs, rfl⟩ := mem_addrs.mp hknows
    obtain ⟨r, rfl, hrest⟩ := node_at hlists hn
    obtain ⟨⟨b, u⟩, zs', rfl, hb⟩ := hrest.head_eq hnext
    obtain rfl : r = b := hb
    exact ⟨_, h.quiet ⟨hp, rfl⟩ ⟨ys ++ [(it, w)], u, zs', by simp, .inr ⟨hne, ys, w, rfl⟩⟩⟩
  | @loadUnlinkHead it n hn =>
    obtain ⟨zs, rfl⟩ := hknows
    obtain ⟨r, rfl, hrest⟩ := node_at_head hlists hn
    exact ⟨_, h.quiet ⟨hp, rfl⟩ ⟨zs, rfl, hrest⟩⟩
  | unlinkHead =>
    obtain ⟨zs, rfl, hrest⟩ := hknows
    exact ⟨zs, h.unlink ⟨hp, rfl⟩ rfl (List.Perm.refl _) hnobody h.null hrest (fun b _ => rfl) hout⟩
  | @loadUnlink it itp n hn =>
    obtain ⟨ys, u, zs, rfl⟩ := hknows
    obtain ⟨-, r', -, hrest⟩ := Chain.split_iff.mp hlists
    obtain ⟨r, rfl, hzs⟩ := node_at_head hrest hn
    exact ⟨_, h.quiet ⟨hp, rfl⟩ ⟨ys, u, zs, rfl, hzs⟩⟩
  | @unlink it itp next n hn =>
    obtain ⟨ys, u, zs, rfl, hrest⟩ := hknows
    have hwf := wellFormed_unlink ⟨h.null, hlists⟩ hrest hn
    refine ⟨ys ++ (itp, u) :: zs, h.unlink ⟨hp, rfl⟩ rfl ?_ hnobody hwf.null hwf.lists ?_ hout⟩
    · exact ((List.Perm.swap (it, v) (itp, u) zs).append_left ys).trans List.perm_middle
    · intro b hb
      apply Function.update_of_ne
      intro heq
      subst heq
      exact hb (mem_addrs.mpr ⟨ys, u, zs, rfl⟩)
  | free =>
    refine ⟨xs, h.write_own ⟨hp, rfl⟩ rfl rfl (.inl rfl) trivial
      (fun u hu => (hout u hu).2) ?_⟩
    show 0 + v ::ₘ s.deleted + s.inserted = {v} + s.deleted + s.inserted
    rw [zero_add, Multiset.singleton_add]

end OperatingSystems.SearchInsertDelete
