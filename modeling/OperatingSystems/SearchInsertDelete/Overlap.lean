import Mathlib.Data.List.Count
import OperatingSystems.SearchInsertDelete.Loss

namespace OperatingSystems.SearchInsertDelete

open Library

/-- One call of `insert` and any number of calls of `search`, all in their list sections: the
list, where the insert stands (`none` after its last store), and where each search does, with its
result when it has ended. -/
structure Overlap (τ : Type*) where
  mem : Mem
  insert : Option InsertPc
  search : τ → SearchPc ⊕ Bool

/-- One access to shared memory. -/
inductive Access (τ : Type*) where
  | insert (i : Input)
  | search (t : τ)
  deriving DecidableEq

variable {τ : Type*} [DecidableEq τ]

/-- The insert is of `newValue`; search `t` looks for `wanted t`. -/
def Overlap.step (newValue : ℤ) (wanted : τ → ℤ) (s : Overlap τ) : Access τ → Option (Overlap τ)
  | .insert i => s.insert.bind fun pc =>
      (insertStep s.mem newValue i pc).map fun (m, pc') => { s with mem := m, insert := pc' }
  | .search t =>
      match s.search t with
      | .inl pc => (searchStep s.mem (wanted t) pc).map fun r =>
          { s with search := Function.update s.search t r }
      | .inr _ => none

def Overlap.begin (m : Mem) : Overlap τ := ⟨m, some .testHead, fun _ => .inl .loadHead⟩

def overlap (newValue : ℤ) (wanted : τ → ℤ) (m : Mem) : Machine (Overlap τ) (Access τ) where
  init s := s = .begin m
  step := Overlap.step newValue wanted

/-- The insert as a point of its thread; after its last store it waits to leave. -/
def insertPoint (newValue : ℤ) : Option InsertPc → Point
  | some pc => .inserting newValue pc
  | none => .insExitWait

/-- The link to the new node has been stored. -/
def linkStored : Option InsertPc → Bool
  | none | some .loadHeadForData | some (.storeHeadData _) | some .loadHeadForNext
  | some (.storeHeadNext _) => true
  | _ => false

/-- The pointer that the next step of a search follows. -/
def SearchPc.follows : SearchPc → Option Addr
  | .loadHead => none
  | .testData it | .loadNext it => some it

/-- A step of a search as it should be: it reads nodes of the list only, with both fields stored;
it is possible; and when the search ends it reports the value exactly if that was in the list `xs`
at the start, or is the new value and the link to it has been stored. -/
def SeesWholeNodes (newValue : ℤ) (wanted : τ → ℤ) (xs : List (Addr × ℤ)) (s : Overlap τ) :
    Access τ → Prop
  | .insert _ => True
  | .search t => ∀ pc, s.search t = .inl pc →
      (∀ a, pc.follows = some a →
        (∃ n, s.mem.node a = some n ∧ n.dataStored = true ∧ n.nextStored = true) ∧
        ∃ ys, s.mem.WellFormed ys ∧ a ∈ addrs ys) ∧
      ∃ r, searchStep s.mem (wanted t) pc = some r ∧ ∀ found, r = .inr found →
        (found = true ↔ wanted t ∈ values xs ∨ wanted t = newValue ∧ linkStored s.insert = true)

/-- No search follows a pointer between the insert's store of a new node into `head->head` and its
store of that node's `next`. -/
def WaitsForHead (s : Overlap τ) : Access τ → Prop
  | .insert _ => True
  | .search t => ∀ pc a, s.search t = .inl pc → pc.follows = some a →
      (insertPoint 0 s.insert).fillsHead = false

omit [DecidableEq τ] in
theorem fillsHead_insertPoint (v w : ℤ) (pc : Option InsertPc) :
    (insertPoint v pc).fillsHead = (insertPoint w pc).fillsHead := by
  cases pc with
  | none => rfl
  | some pc => cases pc <;> rfl

omit [DecidableEq τ] in
theorem WaitsForHead.safe {s : Overlap τ} {t : τ} {pc : SearchPc} {v : ℤ}
    (h : WaitsForHead s (.search t)) (hpc : s.search t = .inl pc) :
    ∀ a, pc.follows = some a → (insertPoint v s.insert).fillsHead = false := by
  intro a ha
  rw [fillsHead_insertPoint v 0]
  exact h pc a hpc ha

theorem fillsHead_of_unlinked {v : ℤ} {pc : Option InsertPc} (h : linkStored pc = false) :
    (insertPoint v pc).fillsHead = false := by
  cases pc with
  | none => rfl
  | some pc => cases pc <;> first | rfl | contradiction

/-- The insert has come to `pc` over the list `xs`, and a search finds `ys`: with the new node at
the end as soon as its link has been stored. -/
structure Built (newValue : ℤ) (xs ys : List (Addr × ℤ)) (m : Mem) (pc : Option InsertPc) : Prop where
  null : m.node 0 = none
  lists : (insertPoint newValue pc).fillsHead = false → m.Lists m.head ys 0
  filling : (insertPoint newValue pc).fillsHead = true → xs = [] ∧ ys = [(m.head, newValue)]
  unlinked : linkStored pc = false → ys = xs
  linked : linkStored pc = true → ∃ a, ys = xs ++ [(a, newValue)]
  knows : Knows m xs (insertPoint newValue pc)
  found : FoundEnd m (insertPoint newValue pc)
  owned : ∀ a, (insertPoint newValue pc).owned = some a → (m.node a).isSome ∧ a ∉ addrs xs

namespace Built

variable {v : ℤ} {xs ys : List (Addr × ℤ)} {m m' : Mem} {p q : Option InsertPc} {i : Input} {a : Addr}

theorem begin (h : m.WellFormed xs) : Built v xs xs m (some .testHead) where
  null := h.null
  lists _ := h.lists
  filling hf := absurd hf nofun
  unlinked _ := rfl
  linked hl := absurd hl nofun
  knows := trivial
  found := trivial
  owned _ ha := absurd ha nofun

theorem lists_unlinked (h : Built v xs ys m q) (hq : linkStored q = false) :
    m.Lists m.head xs 0 := by
  have hys := h.unlinked hq
  subst hys
  exact h.lists (fillsHead_of_unlinked hq)

/-- A step that changes neither the list nor what the insert owns. -/
theorem quiet (h : Built v xs ys m q) (hknows : Knows m xs (insertPoint v p))
    (hfound : FoundEnd m (insertPoint v p))
    (hfills : (insertPoint v p).fillsHead = (insertPoint v q).fillsHead := by rfl)
    (hlinked : linkStored p = linkStored q := by rfl)
    (howned : (insertPoint v p).owned = (insertPoint v q).owned := by rfl) : Built v xs ys m p where
  null := h.null
  lists hf := h.lists (hfills.symm.trans hf)
  filling hf := h.filling (hfills.symm.trans hf)
  unlinked hl := h.unlinked (hlinked.symm.trans hl)
  linked hl := h.linked (hlinked.symm.trans hl)
  knows := hknows
  found := hfound
  owned a ha := h.owned a (howned.symm.trans ha)

/-- A store into a node outside the list, before it is linked. -/
theorem write {n : Node} (h : Built v xs ys m q)
    (hm : m' = ⟨m.head, Function.update m.node a (some n)⟩) (hne : a ≠ 0) (ha : a ∉ addrs xs)
    (hknows : Knows m' xs (insertPoint v p)) (hfound : FoundEnd m' (insertPoint v p))
    (hq : linkStored q = false := by rfl)
    (hp : linkStored p = false := by rfl)
    (howned : (insertPoint v p).owned = some a := by rfl) : Built v xs ys m' p where
  null := (node_store hm 0 hne.symm).trans h.null
  lists _ := by
    have hlists := h.lists_unlinked hq
    rw [h.unlinked hq, show m'.head = m.head by rw [hm]]
    apply lists_congr hlists
    intro b hb
    apply node_store hm
    intro heq
    subst heq
    exact ha hb
  filling hf := absurd ((fillsHead_of_unlinked hp).symm.trans hf) nofun
  unlinked _ := h.unlinked hq
  linked hl := absurd (hp.symm.trans hl) nofun
  knows := hknows
  found := hfound
  owned b hb := by
    obtain rfl : a = b := Option.some.inj (howned.symm.trans hb)
    rw [hm]
    exact ⟨by simp, ha⟩

/-- Memory that is not in use is not in the list. -/
theorem fresh (h : Built v xs ys m q) (hq : linkStored q = false)
    (hfree : m.node a = none) : a ∉ addrs xs :=
  not_mem_of_free (h.lists_unlinked hq) hfree

/-- A node with nothing stored in it comes into `head->head` of the empty list. -/
theorem publish {n : Node} (hnull : m.node 0 = none) (hn : m.node a = some n)
    (hstored : n.nextStored = false) : Built v [] [(a, v)] ⟨a, m.node⟩ (some .loadHeadForData) where
  null := hnull
  lists hf := absurd hf (Ne.symm Bool.false_ne_true)
  filling _ := ⟨rfl, rfl⟩
  unlinked hl := absurd hl (Ne.symm Bool.false_ne_true)
  linked _ := ⟨a, rfl⟩
  knows := ⟨n, hn, hstored, trivial⟩
  found := trivial
  owned _ ha := absurd ha (Option.some_ne_none _).symm

/-- Filling in the node in `head->head`, before the store of its `next`. -/
theorem fill {n : Node} (h : Built v xs ys m q)
    (hm : m' = ⟨m.head, Function.update m.node m.head (some n)⟩) (hne : m.head ≠ 0)
    (hknows : Knows m' xs (insertPoint v p))
    (hq : (insertPoint v q).fillsHead = true := by rfl)
    (hp : (insertPoint v p).fillsHead = true := by rfl)
    (hlinked : linkStored p = true := by rfl)
    (hfound : FoundEnd m' (insertPoint v p) := by trivial)
    (howned : (insertPoint v p).owned = none := by rfl) : Built v xs ys m' p where
  null := (node_store hm 0 hne.symm).trans h.null
  lists hf := absurd (hf.symm.trans hp) nofun
  filling _ := by
    rw [show m'.head = m.head by rw [hm]]
    exact h.filling hq
  unlinked hl := absurd (hl.symm.trans hlinked) nofun
  linked _ := by
    obtain ⟨rfl, rfl⟩ := h.filling hq
    exact ⟨m.head, rfl⟩
  knows := hknows
  found := hfound
  owned _ ha := absurd (howned.symm.trans ha) nofun

/-- The insert is over once the new node stands at the end of the list. -/
theorem finish (hnull : m.node 0 = none) (hys : ∃ a, ys = xs ++ [(a, v)])
    (hlists : m.Lists m.head ys 0) : Built v xs ys m none where
  null := hnull
  lists _ := hlists
  filling hf := absurd hf nofun
  unlinked hl := absurd hl nofun
  linked _ := hys
  knows := trivial
  found := trivial
  owned _ ha := absurd ha nofun

theorem ne_zero {n : Node} (h : Built v xs ys m q) (hn : m.node a = some n) : a ≠ 0 :=
  ne_zero_of_isSome h.null (Option.isSome_of_eq_some hn)

/-- One store or load of the insert: what the searches find stays, up to a new node at the end. -/
theorem step {pc : InsertPc} (h : Built v xs ys m (some pc))
    (hs : insertStep m v i pc = some (m', p)) : ∃ ys', Built v xs ys' m' p ∧ ys <+: ys' := by
  have hknows := h.knows
  have hfound := h.found
  have howned := h.owned
  cases insertStep_does hs with
  | testHead =>
    refine ⟨ys, ?_, List.prefix_rfl⟩
    split_ifs with hhead
    · exact h.quiet trivial hhead
    · exact h.quiet hhead trivial
  | mallocHead hne hfree =>
    exact ⟨ys, h.write rfl hne (h.fresh rfl hfree) ⟨_, Function.update_self .., rfl⟩ hfound,
      List.prefix_rfl⟩
  | @storeHead a =>
    obtain ⟨n, hn, hstored⟩ := hknows
    have hlists := h.lists_unlinked rfl
    rw [show m.head = 0 from hfound] at hlists
    rw [h.unlinked rfl, nil_of_null h.null hlists]
    exact ⟨[(a, v)], publish h.null hn hstored, List.nil_prefix⟩
  | loadHeadForData =>
    exact ⟨ys, h.quiet ⟨rfl, hknows⟩ trivial, List.prefix_rfl⟩
  | @storeHeadData a n hn =>
    obtain ⟨rfl, n', hn', hstored, -⟩ := hknows
    obtain rfl : n = n' := Option.some.inj (hn.symm.trans hn')
    exact ⟨ys, h.fill rfl (h.ne_zero hn) ⟨_, Function.update_self .., hstored, rfl, rfl⟩, List.prefix_rfl⟩
  | loadHeadForNext =>
    exact ⟨ys, h.quiet ⟨rfl, hknows⟩ trivial, List.prefix_rfl⟩
  | @storeHeadNext a n hn =>
    obtain ⟨rfl, n', hn', hstored, rfl, hdata⟩ := hknows
    obtain rfl : n = n' := Option.some.inj (hn.symm.trans hn')
    have hne := h.ne_zero hn
    obtain ⟨rfl, rfl⟩ := h.filling rfl
    refine ⟨_, finish ?_ ⟨m.head, rfl⟩ ⟨rfl, 0, ?_, rfl⟩, List.prefix_rfl⟩
    · exact (node_store rfl 0 hne.symm).trans h.null
    · show Function.update m.node m.head (some ⟨n.data, 0, n.dataStored, true⟩) m.head =
        some ⟨n.data, 0, true, true⟩
      rw [Function.update_self, hdata]
  | loadIterator =>
    exact ⟨ys, h.quiet ⟨hknows, .inl rfl⟩ trivial, List.prefix_rfl⟩
  | @testNext it n hn =>
    have hlists := h.lists_unlinked rfl
    have hit : it ∈ addrs xs := by
      rcases hknows with ⟨hne, rfl | hmem⟩
      · exact head_mem hlists hne
      · exact hmem
    obtain ⟨w, r, rfl, hend⟩ := node_eq_of_mem hlists hit hn
    refine ⟨ys, ?_, List.prefix_rfl⟩
    split_ifs with hnext
    · exact h.quiet ⟨hit, _, hn, hend.resolve_left hnext⟩ trivial
    · refine h.quiet hit fun n' hn' => ?_
      obtain rfl := Option.some.inj (hn.symm.trans hn')
      exact not_not.mp hnext
  | @loadNext it n hn =>
    obtain ⟨hit, n', hn', hnext⟩ := hknows
    obtain rfl : n = n' := Option.some.inj (hn.symm.trans hn')
    have hne := ne_zero_of_mem h.null (h.lists_unlinked rfl) hnext
    exact ⟨ys, h.quiet ⟨hne, .inr hnext⟩ trivial, List.prefix_rfl⟩
  | malloc hne hfree =>
    have hout := h.fresh rfl hfree
    exact ⟨ys, h.write rfl hne hout hknows (last_store hknows hout hfound), List.prefix_rfl⟩
  | @storeData it a n hn =>
    obtain ⟨-, hout⟩ := howned a rfl
    exact ⟨ys, h.write rfl (h.ne_zero hn) hout ⟨hknows, _, Function.update_self .., rfl, rfl⟩
      (last_store hknows hout hfound), List.prefix_rfl⟩
  | @storeNext it a n hn =>
    obtain ⟨hit, n', hn', rfl, hdata⟩ := hknows
    obtain rfl : n = n' := Option.some.inj (hn.symm.trans hn')
    obtain ⟨-, hout⟩ := howned a rfl
    refine ⟨ys, h.write rfl (h.ne_zero hn) hout ⟨hit, ?_⟩ (last_store hit hout hfound), List.prefix_rfl⟩
    rw [← hdata]
    exact Function.update_self ..
  | @link it a n hn =>
    obtain ⟨hit, ha⟩ := hknows
    obtain ⟨-, hout⟩ := howned a rfl
    have hlists := h.lists_unlinked rfl
    have hlast := hfound n hn
    obtain ⟨w, r, rfl, -⟩ := node_eq_of_mem hlists hit hn
    obtain rfl : r = 0 := hlast
    rw [h.unlinked rfl]
    refine ⟨xs ++ [(a, v)], finish ?_ ⟨a, rfl⟩ (lists_link h.null hlists hn hit ha hout),
      List.prefix_append ..⟩
    exact (node_store rfl 0 (ne_zero_of_mem h.null hlists hit).symm).trans h.null

/-- What a search can find: the values there at the start, and the new one once it is linked. -/
theorem mem_values (h : Built v xs ys m q) {w : ℤ} :
    w ∈ values ys ↔ w ∈ values xs ∨ w = v ∧ linkStored q = true := by
  cases hq : linkStored q with
  | false => simp [h.unlinked hq]
  | true =>
    obtain ⟨a, rfl⟩ := h.linked hq
    simp [values]

theorem length_le (h : Built v xs ys m q) : ys.length ≤ xs.length + 1 := by
  cases hq : linkStored q with
  | false =>
    rw [h.unlinked hq]
    exact Nat.le_succ _
  | true =>
    obtain ⟨a, rfl⟩ := h.linked hq
    simp

/-- What `head->head` leads to, also while its node is being filled in. -/
theorem head_cases (h : Built v xs ys m q) :
    m.head = 0 ∧ ys = [] ∨ m.head ≠ 0 ∧ ∃ u after, ys = (m.head, u) :: after := by
  by_cases hf : (insertPoint v q).fillsHead = true
  · obtain ⟨P, n, hn, -⟩ := h.knows.filling hf
    have hne := h.ne_zero hn
    obtain ⟨-, rfl⟩ := h.filling hf
    exact .inr ⟨hne, v, [], rfl⟩
  · have hlists := h.lists (by simpa using hf)
    by_cases hhead : m.head = 0
    · rw [hhead] at hlists
      exact .inl ⟨hhead, nil_of_null h.null hlists⟩
    · obtain ⟨⟨b, u⟩, after, hys, hb⟩ := hlists.head_eq hhead
      exact .inr ⟨hhead, u, after, by rw [hys, hb]⟩

end Built

/-- A search for `w` that has taken `d` steps: it has passed over the values before its node. -/
def Reading (ys : List (Addr × ℤ)) (w : ℤ) (d : ℕ) : SearchPc ⊕ Bool → Prop
  | .inl .loadHead => d = 0
  | .inl (.testData a) => ∃ before u after, ys = before ++ (a, u) :: after ∧
      (∀ x ∈ before, x.2 ≠ w) ∧ d = 2 * before.length + 1
  | .inl (.loadNext a) => ∃ before u after, ys = before ++ (a, u) :: after ∧
      (∀ x ∈ before, x.2 ≠ w) ∧ u ≠ w ∧ d = 2 * before.length + 2
  | .inr _ => d ≤ 2 * ys.length + 1

namespace Reading

variable {ys ys' : List (Addr × ℤ)} {w : ℤ} {d : ℕ} {r : SearchPc ⊕ Bool}

theorem mono (h : Reading ys w d r) (hys : ys <+: ys') : Reading ys' w d r := by
  obtain ⟨zs, rfl⟩ := hys
  match r with
  | .inl .loadHead => exact h
  | .inl (.testData a) =>
    obtain ⟨before, u, after, rfl, hbefore, hd⟩ := h
    exact ⟨before, u, after ++ zs, by simp, hbefore, hd⟩
  | .inl (.loadNext a) =>
    obtain ⟨before, u, after, rfl, hbefore, hu, hd⟩ := h
    exact ⟨before, u, after ++ zs, by simp, hbefore, hu, hd⟩
  | .inr b =>
    have hd : d ≤ 2 * ys.length + 1 := h
    show d ≤ 2 * (ys ++ zs).length + 1
    rw [List.length_append]
    omega

theorem le (h : Reading ys w d r) : d ≤ 2 * ys.length + 1 := by
  match r with
  | .inl .loadHead =>
    have hd : d = 0 := h
    omega
  | .inl (.testData a) =>
    obtain ⟨before, u, after, rfl, -, hd⟩ := h
    simp only [List.length_append, List.length_cons]
    omega
  | .inl (.loadNext a) =>
    obtain ⟨before, u, after, rfl, -, -, hd⟩ := h
    simp only [List.length_append, List.length_cons]
    omega
  | .inr b => exact h

/-- A search stands at a node of the list. -/
theorem follows {pc : SearchPc} {a : Addr} (h : Reading ys w d (.inl pc))
    (hpc : pc.follows = some a) : a ∈ addrs ys := by
  cases pc with
  | loadHead => exact absurd hpc nofun
  | testData b =>
    obtain rfl : b = a := Option.some.inj hpc
    obtain ⟨before, u, after, rfl, -⟩ := h
    simp
  | loadNext b =>
    obtain rfl : b = a := Option.some.inj hpc
    obtain ⟨before, u, after, rfl, -⟩ := h
    simp

end Reading

section Search

variable {v w : ℤ} {xs ys : List (Addr × ℤ)} {m : Mem} {q : Option InsertPc} {d : ℕ} {pc : SearchPc}

/-- One step of a search over a list without a half-built node. -/
theorem search_step (h : Built v xs ys m q) (hr : Reading ys w d (.inl pc))
    (hsafe : ∀ a, pc.follows = some a → (insertPoint v q).fillsHead = false) :
    ∃ r, searchStep m w pc = some r ∧ Reading ys w (d + 1) r ∧
      ∀ found, r = .inr found → (found = true ↔ w ∈ values ys) := by
  cases pc with
  | loadHead =>
    obtain rfl : d = 0 := hr
    rcases h.head_cases with ⟨hhead, rfl⟩ | ⟨hhead, u, after, rfl⟩
    · refine ⟨.inr false, by simp [searchStep, hhead], Nat.le_refl _, ?_⟩
      rintro found hfound
      obtain rfl : false = found := Sum.inr.inj hfound
      simp [values]
    · exact ⟨.inl (.testData m.head), by simp [searchStep, hhead],
        ⟨[], u, after, rfl, fun _ hx => absurd hx List.not_mem_nil, rfl⟩,
        fun _ hfound => absurd hfound Sum.inl_ne_inr⟩
  | testData a =>
    obtain ⟨before, u, after, rfl, hbefore, rfl⟩ := hr
    obtain ⟨-, r, hn, -⟩ := Chain.split_iff.mp (h.lists (hsafe a rfl))
    by_cases hu : u = w
    · refine ⟨.inr true, by simp [searchStep, show m.node a = _ from hn, hu], ?_, ?_⟩
      · show 2 * before.length + 1 + 1 ≤ 2 * (before ++ (a, u) :: after).length + 1
        simp only [List.length_append, List.length_cons]
        omega
      · intro found hfound
        obtain rfl : true = found := Sum.inr.inj hfound
        simp [values, hu]
    · exact ⟨.inl (.loadNext a), by simp [searchStep, show m.node a = _ from hn, hu],
        ⟨before, u, after, rfl, hbefore, hu, rfl⟩, fun _ hfound => absurd hfound Sum.inl_ne_inr⟩
  | loadNext a =>
    obtain ⟨before, u, after, rfl, hbefore, hu, rfl⟩ := hr
    obtain ⟨-, r, hn, hafter⟩ := Chain.split_iff.mp (h.lists (hsafe a rfl))
    have hpassed : ∀ x ∈ before ++ [(a, u)], x.2 ≠ w := by
      intro x hx
      rcases List.mem_append.mp hx with hin | hin
      · exact hbefore x hin
      · rw [List.mem_singleton.mp hin]
        exact hu
    by_cases hend : r = 0
    · rw [hend] at hafter hn
      obtain rfl : after = [] := nil_of_null h.null hafter
      refine ⟨.inr false, by simp [searchStep, show m.node a = _ from hn], ?_, ?_⟩
      · show 2 * before.length + 2 + 1 ≤ 2 * (before ++ [(a, u)]).length + 1
        simp only [List.length_append, List.length_cons, List.length_nil]
        omega
      · intro found hfound
        obtain rfl : false = found := Sum.inr.inj hfound
        simp only [Bool.false_eq_true, false_iff, values, Multiset.mem_coe, List.mem_map, not_exists,
          not_and]
        exact hpassed
    · obtain ⟨⟨b, u'⟩, after', rfl, rfl⟩ := hafter.head_eq hend
      refine ⟨.inl (.testData r), by simp [searchStep, show m.node a = _ from hn, hend], ?_,
        fun _ hfound => absurd hfound Sum.inl_ne_inr⟩
      refine ⟨before ++ [(a, u)], u', after', by simp, hpassed, ?_⟩
      simp only [List.length_append, List.length_cons, List.length_nil]
      omega

end Search

section Runs

variable {v : ℤ} {w : τ → ℤ} {m : Mem} {xs : List (Addr × ℤ)} {s s' : Overlap τ}
  {t : τ} {d : ℕ} {e : Access τ}

/-- Search `t` has taken `d` steps over what it finds of the list. -/
def Tracks (newValue : ℤ) (wanted : τ → ℤ) (xs : List (Addr × ℤ)) (t : τ) (d : ℕ) (s : Overlap τ) :
    Prop :=
  ∃ ys, Built newValue xs ys s.mem s.insert ∧ Reading ys (wanted t) d (s.search t)

omit [DecidableEq τ] in
theorem tracks_begin (hm : m.WellFormed xs) (t : τ) : Tracks v w xs t 0 (.begin m) :=
  ⟨xs, .begin hm, rfl⟩

theorem tracks_step (h : Tracks v w xs t d s) (hc : WaitsForHead s e)
    (hs : s.step v w e = some s') :
    Tracks v w xs t (d + if e = .search t then 1 else 0) s' := by
  obtain ⟨ys, hbuilt, hreading⟩ := h
  cases e with
  | insert i =>
    simp only [Overlap.step, Option.bind_eq_some_iff, Option.map_eq_some_iff, Prod.exists] at hs
    obtain ⟨pc, hpc, m', p, hm', rfl⟩ := hs
    rw [hpc] at hbuilt
    obtain ⟨ys', hbuilt', hprefix⟩ := hbuilt.step hm'
    exact ⟨ys', hbuilt', hreading.mono hprefix⟩
  | search u =>
    cases hu : s.search u with
    | inr b => simp [Overlap.step, hu] at hs
    | inl pc =>
      simp only [Overlap.step, hu, Option.map_eq_some_iff] at hs
      obtain ⟨r, hr, rfl⟩ := hs
      refine ⟨ys, hbuilt, ?_⟩
      by_cases hut : u = t
      · subst hut
        rw [hu] at hreading
        obtain ⟨r', hr', hnext, -⟩ := search_step hbuilt hreading (hc.safe hu)
        obtain rfl : r = r' := Option.some.inj (hr.symm.trans hr')
        simpa using hnext
      · have hne : Access.search u ≠ .search t := fun heq => hut (Access.search.inj heq)
        simpa [hne, Ne.symm hut] using hreading

omit [DecidableEq τ] in
/-- A step of a search is as it should be exactly when it does not follow a pointer to the node
that the insert is still filling in. -/
theorem seesWholeNodes_iff (h : ∀ t, ∃ d, Tracks v w xs t d s) :
    SeesWholeNodes v w xs s e ↔ WaitsForHead s e := by
  cases e with
  | insert i => exact Iff.rfl
  | search t =>
    obtain ⟨d, ys, hbuilt, hreading⟩ := h t
    constructor
    · intro hright pc a hpc ha
      rw [← Bool.not_eq_true]
      intro hfills
      rw [fillsHead_insertPoint 0 v] at hfills
      obtain ⟨P, n, hn, hstored, -⟩ := hbuilt.knows.filling hfills
      obtain ⟨-, zs, hzs, -⟩ := (hright pc hpc).1 a ha
      have hhead := head_mem hzs.lists (hbuilt.ne_zero hn)
      obtain ⟨u, r, rfl, -⟩ := node_eq_of_mem hzs.lists hhead hn
      exact absurd hstored nofun
    · intro hwaits pc hpc
      rw [hpc] at hreading
      have hsafe := WaitsForHead.safe (v := v) hwaits hpc
      constructor
      · intro a ha
        have hlists := hbuilt.lists (hsafe a ha)
        have hmem := hreading.follows ha
        exact ⟨stored_of_mem hlists hmem, ys, ⟨hbuilt.null, hlists⟩, hmem⟩
      · obtain ⟨r, hr, -, hend⟩ := search_step hbuilt hreading hsafe
        refine ⟨r, hr, fun found hfound => ?_⟩
        rw [hend found hfound, hbuilt.mem_values]

/-- A search ends after two steps for every node it can meet. -/
theorem search_steps_le {es : List (Access τ)} (h : Tracks v w xs t d s)
    (hc : (overlap v w m).Meets WaitsForHead s es)
    (hr : (overlap v w m).run s es = some s') :
    d + es.count (.search t) ≤ 2 * xs.length + 3 := by
  induction es generalizing s d with
  | nil =>
    obtain ⟨ys, hbuilt, hreading⟩ := h
    have hd := hreading.le
    have hys := hbuilt.length_le
    simp only [List.count_nil]
    omega
  | cons e es ih =>
    obtain ⟨u, hu, hr⟩ := Machine.run_cons_eq_some.mp hr
    have hcount := ih (tracks_step h hc.1 hu) (hc.2 u hu) hr
    rw [List.count_cons]
    simp only [beq_iff_eq]
    omega

omit [DecidableEq τ] in
/-- Over a list with a node in it the insert never fills in a head. -/
theorem waitsForHead_of_ne_nil (hxs : xs ≠ []) (h : ∀ t, ∃ d, Tracks v w xs t d s) :
    WaitsForHead s e := by
  cases e with
  | insert i => trivial
  | search t =>
    intro pc a hpc ha
    obtain ⟨d, ys, hbuilt, -⟩ := h t
    rw [← Bool.not_eq_true, fillsHead_insertPoint 0 v]
    intro hfills
    exact hxs (hbuilt.filling hfills).1

/-- An insert that gets no memory never comes to store a head. -/
theorem meets_of_full (hhead : m.head = 0) (hfull : ∀ a, a = 0 ∨ (m.node a).isSome = true)
    (es : List (Access τ)) : (overlap v w m).Meets WaitsForHead (.begin m) es := by
  refine Machine.meets_of_invariant (I := fun s : Overlap τ => s.mem = m ∧
    (s.insert = some .testHead ∨ s.insert = some .mallocHead)) ?_ ?_ es ⟨rfl, .inl rfl⟩
  · rintro s (i | t) s' ⟨rfl, hpc⟩ hs
    · rcases hpc with hpc | hpc
      · simp only [overlap, Overlap.step, hpc, insertStep, Option.bind_some, Option.map_some,
          Option.some.injEq, hhead, if_pos] at hs
        subst hs
        exact ⟨rfl, .inr rfl⟩
      · have hnone : s.mem.malloc i = none := if_pos (hfull i.addr)
        simp [overlap, Overlap.step, hpc, insertStep, hnone] at hs
    · cases hsea : s.search t with
      | inr b => simp [overlap, Overlap.step, hsea] at hs
      | inl pc =>
        simp only [overlap, Overlap.step, hsea, Option.map_eq_some_iff] at hs
        obtain ⟨r, -, rfl⟩ := hs
        exact ⟨rfl, hpc⟩
  · rintro s (i | t) ⟨-, hpc⟩
    · trivial
    · intro pc a _ _
      rcases hpc with hpc | hpc <;> rw [hpc] <;> rfl

/-- With a new node in `head->head` and nothing stored in it, a search follows the pointer. -/
theorem not_meets_of_empty {a : Addr} (hhead : m.head = 0) (ha : a ≠ 0) (hfree : m.node a = none)
    (t : τ) : ∃ es, ¬ (overlap v w m).Meets WaitsForHead (.begin m) es := by
  refine ⟨[.insert {}, .insert { addr := a }, .insert {}, .search t, .search t], ?_⟩
  simp [Machine.Meets, overlap, Overlap.step, Overlap.begin, insertStep, searchStep, Mem.malloc,
    hhead, ha, hfree, WaitsForHead, SearchPc.follows, insertPoint, Point.fillsHead]

/-- The two conditions agree along a run, up to and including the first access that violates them. -/
theorem meets_seesWholeNodes_iff (hm : m.WellFormed xs) (es : List (Access τ)) :
    (overlap v w m).Meets (SeesWholeNodes v w xs) (.begin m) es ↔
      (overlap v w m).Meets WaitsForHead (.begin m) es := by
  refine Machine.meets_congr (I := fun s => ∀ t, ∃ d, Tracks v w xs t d s) ?_ ?_ es
    fun t => ⟨0, tracks_begin hm t⟩
  · intro s e s' h hc hs t
    obtain ⟨d, hd⟩ := h t
    exact ⟨_, tracks_step hd hc hs⟩
  · intro s e h
    exact seesWholeNodes_iff h

end Runs

section Admitted

variable [Fintype τ] {v : ℤ} {w : τ → ℤ} {m : Mem} {s s' : Overlap τ}

/-- One inserter; all the other threads search. -/
def oneInserter : Option τ → Role
  | none => .inserter
  | some _ => .searcher

def searchPoint (wanted : ℤ) : SearchPc ⊕ Bool → Point
  | .inl pc => .searching wanted pc
  | .inr searched => .seaExitWait searched

/-- The insert and the searches as threads of the program, past their entry protocols. -/
def Overlap.program (newValue : ℤ) (wanted : τ → ℤ) (s : Overlap τ) : State (Option τ) where
  inserterMut := 0
  searcherMut := if Fintype.card τ = 0 then 1 else 0
  deleterMut := 1
  scounter := 1
  icounter := 1
  searchCounter := Fintype.card τ
  insertCounter := 1
  mem := s.mem
  point u := u.elim (insertPoint newValue s.insert) fun t => searchPoint (wanted t) (s.search t)
  inserted := {newValue}
  deleted := 0

/-- Every access is a step of the program. -/
theorem program_step {e : Access τ} (hs : s.step v w e = some s') :
    ∃ a, step oneInserter (s.program v w) a = some (s'.program v w) := by
  cases e with
  | insert i =>
    simp only [Overlap.step, Option.bind_eq_some_iff, Option.map_eq_some_iff, Prod.exists] at hs
    obtain ⟨pc, hpc, m', p, hm', rfl⟩ := hs
    have hpoint : (s.program v w).point none = .inserting v pc := by
      simp [Overlap.program, hpc, insertPoint]
    have hnext : Function.update (s.program v w).point none (insertPoint v p) =
        ({ s with mem := m', insert := p }.program v w).point := by
      funext u
      cases u <;> simp [Overlap.program]
    refine ⟨(none, i), ?_⟩
    simp only [step, hpoint, show (s.program v w).mem = s.mem from rfl, hm',
      Option.map_some, State.goto]
    cases p <;>
      exact congrArg (fun f => some { s.program v w with mem := m', point := f }) hnext
  | search t =>
    cases ht : s.search t with
    | inr b => simp [Overlap.step, ht] at hs
    | inl pc =>
      simp only [Overlap.step, ht, Option.map_eq_some_iff] at hs
      obtain ⟨r, hr, rfl⟩ := hs
      have hpoint : (s.program v w).point (some t) = .searching (w t) pc := by
        simp [Overlap.program, ht, searchPoint]
      have hnext : Function.update (s.program v w).point (some t) (searchPoint (w t) r) =
          ({ s with search := Function.update s.search t r }.program v w).point := by
        funext u
        cases u with
        | none => simp [Overlap.program]
        | some u => by_cases hu : u = t <;> simp [Overlap.program, hu]
      refine ⟨(some t, {}), ?_⟩
      simp only [step, hpoint, show (s.program v w).mem = s.mem from rfl, hr,
        Option.map_some, State.goto]
      cases r <;> exact congrArg (fun f => some { s.program v w with point := f }) hnext

/-- A searcher that finds nobody counted goes in with `searcher_mut`. -/
theorem run_first_search {σ : Type*} [DecidableEq σ] {role : σ → Role} {s : State σ} {u : σ}
    {i : Input} (hrole : role u = .searcher) (hu : s.point u = .idle) (hsem : s.scounter = 1)
    (hcounter : s.searchCounter = 0) (hmut : s.searcherMut = 1) :
    (machine role m).run s (List.replicate 6 (u, i)) =
      some { s with searchCounter := 1, searcherMut := 0,
                    point := Function.update s.point u (.searching i.value .loadHead) } := by
  simp [List.replicate, Machine.run, machine, step, State.goto, semTrywait, semWait, semPost, hrole,
    hu, hsem, hcounter, hmut]

theorem run_next_search {σ : Type*} [DecidableEq σ] {role : σ → Role} {s : State σ} {u : σ}
    {i : Input} {n : ℤ} (hrole : role u = .searcher) (hu : s.point u = .idle) (hsem : s.scounter = 1)
    (hcounter : s.searchCounter = n) (hn : 0 < n) :
    (machine role m).run s (List.replicate 5 (u, i)) =
      some { s with searchCounter := n + 1,
                    point := Function.update s.point u (.searching i.value .loadHead) } := by
  have hne : ¬ n = 0 := hn.ne'
  simp [List.replicate, Machine.run, machine, step, State.goto, semTrywait, semWait, semPost, hrole,
    hu, hsem, hcounter, hne]

/-- The inserter and the searchers of a list have gone in. -/
def entered (newValue : ℤ) (wanted : τ → ℤ) (m : Mem) (ts : List τ) : State (Option τ) where
  inserterMut := 0
  searcherMut := if ts.length = 0 then 1 else 0
  deleterMut := 1
  scounter := 1
  icounter := 1
  searchCounter := ts.length
  insertCounter := 1
  mem := m
  point u := u.elim (.inserting newValue .testHead) fun t =>
    if t ∈ ts then .searching (wanted t) .loadHead else .idle
  inserted := {newValue}
  deleted := 0

omit [Fintype τ] in
theorem entered_reachable {ts : List τ} (h : ts.Nodup) :
    (machine oneInserter m).Reachable (entered v w m ts) := by
  induction ts with
  | nil =>
    have hrun := run_first_in (s := initial m) (t := (none : Option τ))
      (i := { value := v }) (m := m) (show oneInserter none = .inserter from rfl) rfl rfl rfl rfl
    have hpoint : Function.update (initial m : State (Option τ)).point none
        (.inserting v .testHead) = (entered v w m []).point := by
      funext u
      cases u <;> simp [entered, initial]
    rw [hpoint] at hrun
    exact ⟨initial m, _, rfl, hrun⟩
  | cons t ts ih =>
    obtain ⟨hnew, hts⟩ := List.nodup_cons.mp h
    have hidle : (entered v w m ts).point (some t) = .idle := by
      simp [entered, hnew]
    have hpoint : Function.update (entered v w m ts).point (some t)
        (.searching (w t) .loadHead) = (entered v w m (t :: ts)).point := by
      funext u
      cases u with
      | none => simp [entered]
      | some u => by_cases hu : u = t <;> simp [entered, hu]
    cases ts with
    | nil =>
      have hrun := run_first_search (m := m) (i := { value := w t })
        (show oneInserter (some t) = .searcher from rfl) hidle rfl rfl rfl
      rw [hpoint] at hrun
      exact (ih hts).run hrun
    | cons u ts =>
      have hrun := run_next_search (m := m) (i := { value := w t })
        (show oneInserter (some t) = .searcher from rfl) hidle rfl rfl
        (Int.natCast_pos.mpr (Nat.succ_pos ts.length))
      rw [hpoint] at hrun
      exact (ih hts).run hrun

/-- The program reaches every overlap of an insert and searches. -/
theorem program_reachable (h : (overlap v w m).Reachable s) :
    (machine oneInserter m).Reachable (s.program v w) := by
  apply h.invariant (I := fun s => (machine oneInserter m).Reachable (s.program v w))
  · intro s hi
    obtain rfl : s = .begin m := hi
    have hall := entered_reachable (v := v) (w := w) (m := m)
      (Finset.univ : Finset τ).nodup_toList
    have hbegin : entered v w m (Finset.univ : Finset τ).toList =
        (Overlap.begin m).program v w := by
      simp [entered, Overlap.program, Overlap.begin, searchPoint, insertPoint, Finset.length_toList]
    rwa [hbegin] at hall
  · intro s e s' hs hstep
    obtain ⟨a, ha⟩ := program_step hstep
    exact hs.step ha

end Admitted

section Runs

variable {v : ℤ} {w : τ → ℤ} {m : Mem} {xs : List (Addr × ℤ)}

/-- In every run the searches see whole nodes of the list only, and end, exactly when none of them
follows a pointer while the insert fills in the first node. This is so in all runs exactly when
the list is not empty at the start, nobody searches, or no memory is left for a node. -/
theorem searches_see_whole_nodes_iff (hm : m.WellFormed xs) :
    (∀ es s, (overlap v w m).run (.begin m) es = some s →
      (((overlap v w m).Meets (SeesWholeNodes v w xs) (.begin m) es ∧
          ∀ t, es.count (.search t) ≤ 2 * xs.length + 3) ↔
        (overlap v w m).Meets WaitsForHead (.begin m) es)) ∧
    ((∀ es, (overlap v w m).Meets (SeesWholeNodes v w xs) (.begin m) es) ↔
      xs ≠ [] ∨ IsEmpty τ ∨ ∀ a, a = 0 ∨ (m.node a).isSome = true) := by
  have hiff := meets_seesWholeNodes_iff (v := v) (w := w) hm
  constructor
  · intro es s hr
    rw [hiff]
    exact ⟨And.left, fun hc => ⟨hc, fun t => by
      have hcount := search_steps_le (t := t) (tracks_begin hm t) hc hr
      omega⟩⟩
  · simp only [hiff]
    by_cases hxs : xs = []
    · subst hxs
      have hhead : m.head = 0 := hm.lists
      constructor
      · intro hall
        by_contra hnot
        push Not at hnot
        obtain ⟨-, ⟨t⟩, a, ha, hfree⟩ := hnot
        obtain ⟨es, hes⟩ := not_meets_of_empty (v := v) (w := w) hhead ha
          (by simpa using hfree) t
        exact hes (hall es)
      · rintro (hne | hnobody | hfull) es
        · exact absurd rfl hne
        · refine Machine.meets_of_invariant (I := fun _ => True) (fun _ _ _ _ _ => trivial) ?_ es trivial
          rintro s (i | t) -
          · trivial
          · exact hnobody.elim t
        · exact meets_of_full hhead hfull es
    · refine ⟨fun _ => .inl hxs, fun _ es => ?_⟩
      refine Machine.meets_of_invariant (I := fun s => ∀ t, ∃ d, Tracks v w xs t d s) ?_ ?_
        es fun t => ⟨0, tracks_begin hm t⟩
      · intro s e s' h hs t
        obtain ⟨d, hd⟩ := h t
        exact ⟨_, tracks_step hd (waitsForHead_of_ne_nil hxs h) hs⟩
      · intro s e h
        exact waitsForHead_of_ne_nil hxs h

/-- The list of the value 4. -/
def oneNode : Mem := ⟨7, Function.update (fun _ => none) 7 (some ⟨4, 0, true, true⟩)⟩

theorem oneNode_wellFormed : oneNode.WellFormed [(7, 4)] := ⟨rfl, rfl, 0, rfl, rfl⟩

/-- An insert of 3 and a search for 3 side by side: the search comes to the last node before the
new one is linked, and finds the value after that. -/
theorem search_beside_append :
    ∃ s, (overlap 3 (fun _ : Fin 2 => 3) oneNode).run (.begin oneNode)
        [.insert {}, .insert {}, .search 0, .insert {}, .insert { addr := 1 }, .search 0, .insert {},
          .insert {}, .insert {}, .search 0, .search 0] = some s ∧ s.search 0 = .inr true ∧
      (overlap 3 (fun _ : Fin 2 => 3) oneNode).Meets (SeesWholeNodes 3 (fun _ => 3) [(7, 4)])
        (.begin oneNode)
        [.insert {}, .insert {}, .search 0, .insert {}, .insert { addr := 1 }, .search 0, .insert {},
          .insert {}, .insert {}, .search 0, .search 0] :=
  ⟨_, rfl, rfl, (searches_see_whole_nodes_iff oneNode_wellFormed).2.mpr (.inl (by simp)) _⟩

/-- The insert of 3 into the empty list has stored its node in `head->head` and nothing in the
node: a search for what `malloc` left there reports it found. -/
theorem search_finds_garbage :
    ∃ s, (overlap 3 (fun _ : Fin 1 => 5) ⟨0, fun _ => none⟩).run (.begin ⟨0, fun _ => none⟩)
        [.insert {}, .insert { addr := 1, data := 5 }, .insert {}, .search 0, .search 0] = some s ∧
      s.search 0 = .inr true ∧
      ¬ (overlap 3 (fun _ : Fin 1 => 5) ⟨0, fun _ => none⟩).Meets
        (SeesWholeNodes 3 (fun _ => 5) []) (.begin ⟨0, fun _ => none⟩)
        [.insert {}, .insert { addr := 1, data := 5 }, .insert {}, .search 0, .search 0] := by
  refine ⟨_, rfl, rfl, fun h => ?_⟩
  have hlast := ((((h.2 _ rfl).2 _ rfl).2 _ rfl).2 _ rfl).1
  obtain ⟨⟨n, hn, hdata, -⟩, -⟩ := (hlast _ rfl).1 1 rfl
  obtain rfl := Option.some.inj hn
  exact absurd hdata nofun

end Runs

end OperatingSystems.SearchInsertDelete
