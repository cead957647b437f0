import OperatingSystems.Library.Chain
import OperatingSystems.SearchInsertDelete.Protocol

namespace OperatingSystems.SearchInsertDelete

open Library

/-- A node that has been filled in, with its value, and the node after it. -/
def Mem.Holds (m : Mem) (x : Addr × ℤ) (r : Addr) : Prop := m.node x.1 = some ⟨x.2, r, true, true⟩

/-- The nodes from `p` up to `q`. -/
abbrev Mem.Lists (m : Mem) (p : Addr) (xs : List (Addr × ℤ)) (q : Addr) : Prop :=
  Chain Prod.fst m.Holds p xs q

/-- A well-formed list ends in `NULL`, which is the address of no node. -/
structure Mem.WellFormed (m : Mem) (xs : List (Addr × ℤ)) : Prop where
  null : m.node 0 = none
  lists : m.Lists m.head xs 0

def addrs (xs : List (Addr × ℤ)) : List Addr := xs.map Prod.fst

def values (xs : List (Addr × ℤ)) : Multiset ℤ := (xs.map Prod.snd : List ℤ)

@[simp] theorem addrs_append (xs ys : List (Addr × ℤ)) : addrs (xs ++ ys) = addrs xs ++ addrs ys :=
  List.map_append ..

@[simp] theorem addrs_cons (x : Addr × ℤ) (xs : List (Addr × ℤ)) :
    addrs (x :: xs) = x.1 :: addrs xs := rfl

@[simp] theorem values_append (xs ys : List (Addr × ℤ)) :
    values (xs ++ ys) = values xs + values ys := by
  simp [values]

@[simp] theorem values_cons (x : Addr × ℤ) (xs : List (Addr × ℤ)) :
    values (x :: xs) = x.2 ::ₘ values xs := rfl

section Lists

variable {m m' : Mem} {p q : Addr} {xs ys zs : List (Addr × ℤ)} {x y : Addr × ℤ} {a r : Addr}

theorem mem_addrs : a ∈ addrs xs ↔ ∃ ys v zs, xs = ys ++ (a, v) :: zs := by
  constructor
  · intro h
    obtain ⟨⟨b, v⟩, hx, rfl⟩ := List.mem_map.mp h
    obtain ⟨ys, zs, rfl⟩ := List.append_of_mem hx
    exact ⟨ys, v, zs, rfl⟩
  · rintro ⟨ys, v, zs, rfl⟩
    simp

theorem holds_functional (x y : Addr × ℤ) (r r' : Addr) (h : x.1 = y.1) (hx : m.Holds x r)
    (hy : m.Holds y r') : x = y ∧ r = r' := by
  have heq : (⟨x.2, r, true, true⟩ : Node) = ⟨y.2, r', true, true⟩ :=
    Option.some.inj (hx.symm.trans ((congrArg m.node h).trans hy))
  simp only [Node.mk.injEq, and_true] at heq
  exact ⟨Prod.ext h heq.1, heq.2⟩

/-- Every element of a list is a node in memory. -/
theorem node_of_mem (h : m.Lists p xs q) (ha : a ∈ addrs xs) :
    ∃ v r, m.node a = some ⟨v, r, true, true⟩ ∧ (r = q ∨ r ∈ addrs xs) := by
  obtain ⟨ys, v, zs, rfl⟩ := mem_addrs.mp ha
  obtain ⟨-, r, hr, hzs⟩ := Chain.split_iff.mp h
  refine ⟨v, r, hr, ?_⟩
  cases zs with
  | nil => exact .inl hzs
  | cons z zs =>
    refine .inr ?_
    rw [hzs.1]
    simp

/-- What is read in an element of a list. -/
theorem node_eq_of_mem {n : Node} (h : m.Lists p xs q) (ha : a ∈ addrs xs) (hn : m.node a = some n) :
    ∃ v r, n = ⟨v, r, true, true⟩ ∧ (r = q ∨ r ∈ addrs xs) := by
  obtain ⟨v, r, hr, hnext⟩ := node_of_mem h ha
  exact ⟨v, r, Option.some.inj (hn.symm.trans hr), hnext⟩

theorem stored_of_mem (h : m.Lists p xs q) (ha : a ∈ addrs xs) :
    ∃ n, m.node a = some n ∧ n.dataStored = true ∧ n.nextStored = true := by
  obtain ⟨v, r, hr, -⟩ := node_of_mem h ha
  exact ⟨_, hr, rfl, rfl⟩

theorem isSome_of_mem (h : m.Lists p xs q) (ha : a ∈ addrs xs) : (m.node a).isSome := by
  obtain ⟨v, r, hr, -⟩ := node_of_mem h ha
  rw [hr]
  rfl

/-- What is read in the first element, and the list from there on. -/
theorem node_at_head {u : ℤ} {n : Node} (h : m.Lists p ((a, u) :: zs) q) (hn : m.node a = some n) :
    ∃ r, n = ⟨u, r, true, true⟩ ∧ m.Lists r zs q := by
  obtain ⟨-, r, hr, hzs⟩ := h
  exact ⟨r, Option.some.inj (hn.symm.trans hr), hzs⟩

theorem node_at {u : ℤ} {n : Node} (h : m.Lists p (ys ++ (a, u) :: zs) q)
    (hn : m.node a = some n) : ∃ r, n = ⟨u, r, true, true⟩ ∧ m.Lists r zs q := by
  obtain ⟨r, -, hrest⟩ := Chain.append_iff.mp h
  exact node_at_head hrest hn

/-- Memory that is not in use is in no list. -/
theorem not_mem_of_free (h : m.Lists p xs q) (hfree : m.node a = none) : a ∉ addrs xs := by
  intro ha
  have hsome := isSome_of_mem h ha
  rw [hfree] at hsome
  exact absurd hsome Bool.false_ne_true

theorem ne_zero_of_isSome (hnull : m.node 0 = none) (ha : (m.node a).isSome) : a ≠ 0 := by
  intro heq
  rw [heq, hnull] at ha
  exact absurd ha Bool.false_ne_true

theorem ne_zero_of_mem (hnull : m.node 0 = none) (h : m.Lists p xs q) (ha : a ∈ addrs xs) :
    a ≠ 0 :=
  ne_zero_of_isSome hnull (isSome_of_mem h ha)

theorem nil_of_null (hnull : m.node 0 = none) (h : m.Lists 0 xs 0) : xs = [] :=
  Chain.nil_of_end (fun _ hx => ne_zero_of_mem hnull h (List.mem_map_of_mem hx)) h

theorem head_mem (h : m.Lists p xs 0) (hp : p ≠ 0) : p ∈ addrs xs := by
  obtain ⟨x, ys, rfl, rfl⟩ := h.head_eq hp
  simp

theorem nodup_addrs (hnull : m.node 0 = none) (h : m.Lists p xs 0) : (addrs xs).Nodup := by
  refine Chain.nodup holds_functional (fun x hx => ?_) h
  exact ne_zero_of_mem hnull h (List.mem_map_of_mem hx)

/-- A store into one node leaves the others alone. -/
theorem node_store {n : Option Node} (hm : m' = ⟨p, Function.update m.node a n⟩) :
    ∀ b, b ≠ a → m'.node b = m.node b := by
  intro b hb
  rw [hm]
  exact Function.update_of_ne hb _ _

/-- The list survives whatever happens to other nodes. -/
theorem lists_congr (h : m.Lists p xs q) (hsame : ∀ a ∈ addrs xs, m'.node a = m.node a) :
    m'.Lists p xs q :=
  Chain.congr (fun x hx _ hr => (hsame x.1 (List.mem_map_of_mem hx)).trans hr) h

/-- Linking a new node behind the last one. -/
theorem lists_link {v w : ℤ} (hnull : m.node 0 = none) (h : m.Lists p xs 0)
    (ha : m.node a = some ⟨w, 0, true, true⟩) (hmem : a ∈ addrs xs)
    (hr : m.node r = some ⟨v, 0, true, true⟩) (hfresh : r ∉ addrs xs) :
    ({ m with node := Function.update m.node a (some ⟨w, r, true, true⟩) } : Mem).Lists p
      (xs ++ [(r, v)]) 0 := by
  obtain ⟨ys, w', zs, rfl⟩ := mem_addrs.mp hmem
  obtain ⟨hys, r', hr', hzs⟩ := Chain.split_iff.mp h
  obtain ⟨hw, rfl⟩ := holds_functional (a, w') (a, w) r' 0 rfl hr' ha
  obtain rfl : zs = [] := nil_of_null hnull hzs
  obtain rfl : w' = w := congrArg Prod.snd hw
  have hnodup := nodup_addrs hnull h
  have hne : r ≠ a := fun he => hfresh (he ▸ hmem)
  rw [List.append_assoc]
  refine Chain.append (lists_congr hys fun b hb => Function.update_of_ne ?_ _ _)
    ⟨rfl, r, Function.update_self .., rfl, 0, (Function.update_of_ne hne _ _).trans hr, rfl⟩
  intro heq
  subst heq
  simp only [addrs_append, addrs_cons, List.nodup_append] at hnodup
  exact hnodup.2.2 b hb b (by simp) rfl

/-- A node outside the list can be freed. -/
theorem wellFormed_free (h : m.WellFormed xs) (ha : a ∉ addrs xs) (hsome : (m.node a).isSome) :
    Mem.WellFormed ⟨m.head, Function.update m.node a none⟩ xs where
  null := (Function.update_of_ne (ne_zero_of_isSome h.null hsome).symm _ _).trans h.null
  lists := by
    refine lists_congr h.lists fun b hb => Function.update_of_ne ?_ _ _
    rintro rfl
    exact ha hb

/-- Unlinking a node that is not the first. -/
theorem wellFormed_unlink {u v : ℤ} {n : Node} (h : m.WellFormed (ys ++ (a, u) :: (r, v) :: zs))
    (hq : m.Lists q zs 0) (hn : m.node a = some n) :
    Mem.WellFormed
      ⟨m.head, Function.update m.node a (some { n with next := q, nextStored := true })⟩
      (ys ++ (a, u) :: zs) where
  null := by
    have hne : a ≠ 0 := ne_zero_of_mem h.null h.lists (mem_addrs.mpr ⟨ys, u, _, rfl⟩)
    exact (Function.update_of_ne hne.symm _ _).trans h.null
  lists := by
    obtain ⟨hys, r', hr', -⟩ := Chain.split_iff.mp h.lists
    have hnodup := nodup_addrs h.null h.lists
    simp only [addrs_append, addrs_cons, List.nodup_append, List.nodup_cons, List.mem_cons, not_or]
      at hnodup
    obtain rfl : n = ⟨u, r', true, true⟩ := Option.some.inj (hn.symm.trans hr')
    refine Chain.append (lists_congr hys fun b hb => Function.update_of_ne ?_ _ _)
      ⟨rfl, q, Function.update_self .., lists_congr hq fun b hb => Function.update_of_ne ?_ _ _⟩
    · intro heq
      subst heq
      exact hnodup.2.2 b hb b (.inl rfl) rfl
    · intro heq
      subst heq
      exact hnodup.2.1.1.2 hb

end Lists

end OperatingSystems.SearchInsertDelete
