import OperatingSystems.SearchInsertDelete.Sequential

namespace OperatingSystems.SearchInsertDelete

open Library

/-- The place of an insert in the list `xs`, and the `d` steps that it took to get there. -/
def InsertAt (xs : List (Addr × ℤ)) (d : ℕ) : InsertPc → Prop
  | .testHead => d = 0
  | .mallocHead | .loadIterator => d = 1
  | .storeHead _ => d = 2
  | .loadHeadForData => d = 3
  | .storeHeadData _ => d = 4
  | .loadHeadForNext => d = 5
  | .storeHeadNext _ => d = 6
  | .testNext it => ∃ before u after, xs = before ++ (it, u) :: after ∧ d = 2 * before.length + 2
  | .loadNext it => ∃ before u x after, xs = before ++ (it, u) :: x :: after ∧ d = 2 * before.length + 3
  | .malloc _ => d ≤ 2 * xs.length + 1
  | .storeData _ _ => d ≤ 2 * xs.length + 2
  | .storeNext _ _ => d ≤ 2 * xs.length + 3
  | .link _ _ => d ≤ 2 * xs.length + 4

/-- The place of a delete in the list `xs`: before its node is unlinked it has passed over other values
only. The values were `l` when it began. -/
def DeleteAt (m : Mem) (v : ℤ) (l : List ℤ) (xs : List (Addr × ℤ)) (d : ℕ) : DeletePc → Prop
  | .testHead => d = 0
  | .loadHead => d = 1
  | .testData it itp => ∃ before u after, xs = before ++ (it, u) :: after ∧ v ∉ contents before ∧
      (itp = 0 ∧ before = [] ∨ itp ≠ 0 ∧ ∃ before' w, before = before' ++ [(itp, w)]) ∧
      d = 2 * before.length + 2
  | .loadNext it => ∃ before u after, xs = before ++ (it, u) :: after ∧ v ∉ contents before ∧ u ≠ v ∧
      d = 2 * before.length + 3
  | .loadUnlinkHead it => ∃ after, xs = (it, v) :: after ∧ d = 3
  | .unlinkHead it next => ∃ after, xs = (it, v) :: after ∧ m.Lists next after 0 ∧ d = 4
  | .loadUnlink it itp => ∃ before w after, xs = before ++ (itp, w) :: (it, v) :: after ∧
      v ∉ contents (before ++ [(itp, w)]) ∧ d ≤ 2 * l.length + 1
  | .unlink it itp next => ∃ before w after, xs = before ++ (itp, w) :: (it, v) :: after ∧
      v ∉ contents (before ++ [(itp, w)]) ∧ m.Lists next after 0 ∧ d ≤ 2 * l.length + 2
  | .free it => v ∈ l ∧ it ∉ addrs xs ∧ (m.node it).isSome ∧ d ≤ 2 * l.length + 3

/-- The values that the list has while a delete stands at a point. -/
def DeletePc.leaves (v : ℤ) (l : List ℤ) : DeletePc → List ℤ
  | .free _ => l.erase v
  | _ => l

/-- A delete has come to `pc` over a list of the values `l`. -/
def Deletes (m : Mem) (v : ℤ) (l : List ℤ) (d : ℕ) (pc : DeletePc) : Prop :=
  ∃ xs, m.WellFormed xs ∧ contents xs = pc.leaves v l ∧ DeleteAt m v l xs d pc

/-- Where one access of a delete leads: it stays on its walk, or it ends with the first occurrence
removed. -/
def DeleteGoes (m : Mem) (v : ℤ) (l : List ℤ) (d : ℕ) : DeletePc ⊕ Bool → Prop
  | .inl pc => Deletes m v l d pc
  | .inr removed => (removed = true ↔ v ∈ l) ∧ ∃ xs, m.WellFormed xs ∧ contents xs = l.erase v

variable {m m' : Mem} {v : ℤ} {xs ys : List (Addr × ℤ)} {l : List ℤ} {d : ℕ} {i : Input}

theorem InsertAt.le {pc : InsertPc} (h : InsertAt xs d pc) : d ≤ 2 * xs.length + 6 := by
  cases pc with
  | testNext it =>
    obtain ⟨before, u, after, rfl, rfl⟩ := h
    simp only [List.length_append, List.length_cons]
    omega
  | loadNext it =>
    obtain ⟨before, u, x, after, rfl, rfl⟩ := h
    simp only [List.length_append, List.length_cons]
    omega
  | _ =>
    simp only [InsertAt] at h
    omega

/-- One access of an insert takes it one step further. -/
theorem insertAt_step {pc next : InsertPc} (hbuilt : Built v xs ys m (some pc))
    (hat : InsertAt xs d pc) (hs : insertStep m v i pc = some (m', some next)) :
    InsertAt xs (d + 1) next := by
  have hknows := hbuilt.knows
  generalize hr : some next = r at hs
  cases insertStep_does hs with
  | testHead =>
    obtain rfl : d = 0 := hat
    obtain rfl := Option.some.inj hr
    split_ifs
    · rfl
    · rfl
  | mallocHead | storeHead | loadHeadForData | storeHeadData | loadHeadForNext =>
    obtain rfl := Option.some.inj hr
    exact congrArg (· + 1) hat
  | storeHeadNext | link => exact absurd hr (Option.some_ne_none next)
  | loadIterator =>
    obtain rfl : d = 1 := hat
    obtain rfl := Option.some.inj hr
    obtain ⟨⟨a, u⟩, after, rfl, ha⟩ := (hbuilt.lists_unlinked rfl).head_eq hknows
    exact ⟨[], u, after, by rw [ha]; rfl, rfl⟩
  | @testNext it n hn =>
    obtain ⟨before, u, after, rfl, rfl⟩ := hat
    obtain ⟨r, rfl, hafter⟩ := node_at (hbuilt.lists_unlinked rfl) hn
    obtain rfl := Option.some.inj hr
    split_ifs with hend
    · obtain ⟨x, after', rfl, -⟩ := hafter.head_eq hend
      exact ⟨before, u, x, after', rfl, rfl⟩
    · simp only [InsertAt, List.length_append, List.length_cons]
      omega
  | @loadNext it n hn =>
    obtain ⟨before, u, x, after, rfl, rfl⟩ := hat
    obtain ⟨r, rfl, hafter⟩ := node_at (hbuilt.lists_unlinked rfl) hn
    obtain rfl : r = x.1 := hafter.1
    obtain rfl := Option.some.inj hr
    refine ⟨before ++ [(it, u)], x.2, after, by simp, ?_⟩
    simp only [List.length_append, List.length_cons, List.length_nil]
    omega
  | malloc | storeData | storeNext =>
    obtain rfl := Option.some.inj hr
    simp only [InsertAt] at hat ⊢
    omega

/-- What an insert writes to is allocated. -/
theorem insert_writes {pc : InsertPc} {a : Addr} (hbuilt : Built v xs ys m (some pc))
    (ha : (Call.insert v pc).writes = some a) : (m.node a).isSome := by
  have hknows := hbuilt.knows
  cases pc with
  | storeHeadData q =>
    obtain rfl := Option.some.inj ha
    obtain ⟨rfl, n, hn, -⟩ := hknows
    simp [hn]
  | storeHeadNext q =>
    obtain rfl := Option.some.inj ha
    obtain ⟨rfl, n, hn, -⟩ := hknows
    simp [hn]
  | storeData it temp =>
    obtain rfl := Option.some.inj ha
    exact (hbuilt.owned temp rfl).1
  | storeNext it temp =>
    obtain rfl := Option.some.inj ha
    exact (hbuilt.owned temp rfl).1
  | link it temp =>
    obtain rfl := Option.some.inj ha
    exact isSome_of_mem (hbuilt.lists_unlinked rfl) hknows.1
  | _ => exact absurd ha.symm (Option.some_ne_none a)

/-- What an insert reads is a node of the list. -/
theorem insert_reads {pc : InsertPc} {a : Addr} (hat : InsertAt xs d pc)
    (ha : (Call.insert v pc).reads = some a) : a ∈ addrs xs ∧ linkStored (some pc) = false := by
  cases pc with
  | testNext it =>
    obtain rfl := Option.some.inj ha
    obtain ⟨before, u, after, rfl, -⟩ := hat
    exact ⟨by simp, rfl⟩
  | loadNext it =>
    obtain rfl := Option.some.inj ha
    obtain ⟨before, u, x, after, rfl, -⟩ := hat
    exact ⟨by simp, rfl⟩
  | _ => exact absurd ha.symm (Option.some_ne_none a)

theorem insert_proceeds {pc : InsertPc} (hbuilt : Built v xs ys m (some pc)) (hat : InsertAt xs d pc)
    (hne : i.addr ≠ 0) (hfree : m.node i.addr = none) : (insertStep m v i pc).isSome := by
  cases pc with
  | mallocHead | malloc => simp [insertStep, hne, hfree]
  | storeHeadData q | storeHeadNext q | storeData it temp | storeNext it temp | link it temp =>
    simpa [insertStep] using insert_writes hbuilt rfl
  | testNext it | loadNext it =>
    obtain ⟨hit, hlinked⟩ := insert_reads (v := v) hat rfl
    simpa [insertStep] using isSome_of_mem (hbuilt.lists_unlinked hlinked) hit
  | _ => rfl

theorem Deletes.le {pc : DeletePc} (h : Deletes m v l d pc) : d ≤ 2 * l.length + 3 := by
  obtain ⟨xs, -, hcontents, hat⟩ := h
  cases pc with
  | testHead | loadHead =>
    simp only [DeleteAt] at hat
    omega
  | testData it itp =>
    obtain ⟨before, u, after, rfl, -, -, rfl⟩ := hat
    obtain rfl : contents _ = l := hcontents
    rw [length_contents, List.length_append, List.length_cons]
    omega
  | loadNext it =>
    obtain ⟨before, u, after, rfl, -, -, rfl⟩ := hat
    obtain rfl : contents _ = l := hcontents
    rw [length_contents, List.length_append, List.length_cons]
    omega
  | loadUnlinkHead it =>
    obtain ⟨after, -, rfl⟩ := hat
    omega
  | unlinkHead it next =>
    obtain ⟨after, rfl, -, rfl⟩ := hat
    obtain rfl : contents _ = l := hcontents
    rw [length_contents, List.length_cons]
    omega
  | loadUnlink it itp =>
    obtain ⟨before, w, after, -, -, hd⟩ := hat
    omega
  | unlink it itp next =>
    obtain ⟨before, w, after, -, -, -, hd⟩ := hat
    omega
  | free it => exact hat.2.2.2

/-- The node of the first occurrence is the one that the delete has come to. -/
theorem erase_contents {before after : List (Addr × ℤ)} {it : Addr} (hbefore : v ∉ contents before) :
    (contents (before ++ (it, v) :: after)).erase v = contents (before ++ after) := by
  rw [contents_append, contents_append, List.erase_append_right _ hbefore]
  exact congrArg (contents before ++ ·) (List.erase_cons_head _ _)

/-- A walk passes over one more node. -/
theorem not_mem_contents_snoc {before : List (Addr × ℤ)} {u : ℤ} {it : Addr}
    (hbefore : v ∉ contents before) (hu : u ≠ v) : v ∉ contents (before ++ [(it, u)]) := by
  rw [contents_append, List.mem_append, not_or]
  exact ⟨hbefore, fun hmem => hu (List.mem_singleton.mp hmem).symm⟩

/-- With the node of the first occurrence unlinked, only its `free` is left. -/
theorem deletes_unlinked (before : List (Addr × ℤ)) {after : List (Addr × ℤ)} {it : Addr}
    (hwf : m.WellFormed (before ++ (it, v) :: after)) (hbefore : v ∉ contents before)
    (hwf' : m'.WellFormed (before ++ after)) (hit : (m'.node it).isSome)
    (hd : d ≤ 2 * (before.length + after.length) + 5) :
    Deletes m' v (contents (before ++ (it, v) :: after)) d (.free it) := by
  have hnodup := nodup_addrs hwf.null hwf.lists
  rw [addrs_append, addrs_cons, List.nodup_middle, List.nodup_cons, ← addrs_append] at hnodup
  refine ⟨before ++ after, hwf', (erase_contents hbefore).symm, by simp, hnodup.1, hit, ?_⟩
  rw [length_contents, List.length_append, List.length_cons]
  omega

/-- One access of a delete. -/
theorem deletes_step {pc : DeletePc} {r : DeletePc ⊕ Bool} (h : Deletes m v l d pc)
    (hs : deleteStep m v pc = some (m', r)) : DeleteGoes m' v l (d + 1) r := by
  obtain ⟨xs, hwf, hcontents, hat⟩ := h
  cases deleteStep_does hs with
  | testHead =>
    obtain rfl : d = 0 := hat
    exact ⟨xs, hwf, hcontents, rfl⟩
  | noHead hhead =>
    have hlists := hwf.lists
    rw [hhead] at hlists
    obtain rfl : xs = [] := nil_of_null hwf.null hlists
    obtain rfl : [] = l := hcontents
    exact ⟨by simp, [], hwf, rfl⟩
  | loadHead hhead =>
    obtain rfl : d = 1 := hat
    obtain ⟨⟨a, u⟩, after, rfl, ha⟩ := hwf.lists.head_eq hhead
    exact ⟨_, hwf, hcontents, [], u, after, by rw [ha]; rfl, List.not_mem_nil, .inl ⟨rfl, rfl⟩, rfl⟩
  | @foundFirst it n hn hdata =>
    obtain ⟨before, u, after, rfl, -, hitp, rfl⟩ := hat
    obtain ⟨q, rfl, -⟩ := node_at hwf.lists hn
    obtain rfl : u = v := hdata
    obtain ⟨-, rfl⟩ := hitp.resolve_right fun hne => hne.1 rfl
    exact ⟨_, hwf, hcontents, after, rfl, rfl⟩
  | @found it itp n hn hdata hne =>
    obtain ⟨before, u, after, rfl, hbefore, hitp, rfl⟩ := hat
    obtain ⟨q, rfl, -⟩ := node_at hwf.lists hn
    obtain rfl : u = v := hdata
    obtain ⟨-, before', w, rfl⟩ := hitp.resolve_left fun he => hne he.1
    obtain rfl : contents _ = l := hcontents
    refine ⟨_, hwf, rfl, before', w, after, by simp, hbefore, ?_⟩
    simp only [length_contents, List.length_append, List.length_cons, List.length_nil]
    omega
  | @passOver it itp n hn hdata =>
    obtain ⟨before, u, after, rfl, hbefore, -, rfl⟩ := hat
    obtain ⟨q, rfl, -⟩ := node_at hwf.lists hn
    exact ⟨_, hwf, hcontents, before, u, after, rfl, hbefore, hdata, rfl⟩
  | @noNext it n hn hend =>
    obtain ⟨before, u, after, rfl, hbefore, hu, rfl⟩ := hat
    obtain ⟨q, rfl, hafter⟩ := node_at hwf.lists hn
    obtain rfl : q = 0 := hend
    obtain rfl : after = [] := nil_of_null hwf.null hafter
    obtain rfl : contents _ = l := hcontents
    have hpassed : v ∉ contents (before ++ [(it, u)]) := not_mem_contents_snoc hbefore hu
    exact ⟨iff_of_false Bool.false_ne_true hpassed, _, hwf, (List.erase_of_not_mem hpassed).symm⟩
  | @loadNext it n hn hend =>
    obtain ⟨before, u, after, rfl, hbefore, hu, rfl⟩ := hat
    have hne : it ≠ 0 := ne_zero_of_mem hwf.null hwf.lists (by simp)
    obtain ⟨q, rfl, hafter⟩ := node_at hwf.lists hn
    obtain ⟨⟨b, w⟩, after', rfl, hb⟩ := hafter.head_eq hend
    obtain rfl : q = b := hb
    refine ⟨_, hwf, hcontents, before ++ [(it, u)], w, after', by simp,
      not_mem_contents_snoc hbefore hu, .inr ⟨hne, before, u, rfl⟩, ?_⟩
    simp only [List.length_append, List.length_cons, List.length_nil]
    omega
  | @loadUnlinkHead it n hn =>
    obtain ⟨after, rfl, rfl⟩ := hat
    obtain ⟨q, rfl, hafter⟩ := node_at_head hwf.lists hn
    exact ⟨_, hwf, hcontents, after, rfl, hafter, rfl⟩
  | @unlinkHead it next =>
    obtain ⟨after, rfl, hafter, rfl⟩ := hat
    obtain rfl : contents ((it, v) :: after) = l := hcontents
    have hit : (m.node it).isSome := isSome_of_mem hwf.lists (by simp)
    exact deletes_unlinked [] hwf List.not_mem_nil ⟨hwf.null, hafter⟩ hit (by omega)
  | @loadUnlink it itp n hn =>
    obtain ⟨before, w, after, rfl, hbefore, hd⟩ := hat
    obtain ⟨-, r, -, hrest⟩ := Chain.split_iff.mp hwf.lists
    obtain ⟨q, rfl, hafter⟩ := node_at_head hrest hn
    exact ⟨_, hwf, hcontents, before, w, after, rfl, hbefore, hafter, by omega⟩
  | @unlink it itp next n hn =>
    obtain ⟨before, w, after, rfl, hbefore, hafter, hd⟩ := hat
    obtain rfl : contents (before ++ (itp, w) :: (it, v) :: after) = l := hcontents
    have hwf' := wellFormed_unlink hwf hafter hn
    have hit : (m.node it).isSome := isSome_of_mem hwf.lists (by simp)
    rw [List.append_cons] at hwf hwf' hd ⊢
    refine deletes_unlinked _ hwf hbefore hwf' ?_ ?_
    · dsimp only
      rw [Function.update_apply]
      split_ifs
      · rfl
      · exact hit
    · simp only [length_contents, List.length_append, List.length_cons, List.length_nil] at hd ⊢
      omega
  | free hsome =>
    obtain ⟨hmem, hit, -, hd⟩ := hat
    exact ⟨iff_of_true rfl hmem, xs, wellFormed_free hwf hit hsome, hcontents⟩

/-- What a delete reads is a node of the list. -/
theorem delete_reads {pc : DeletePc} {a : Addr} (hat : DeleteAt m v l xs d pc)
    (ha : (Call.delete v pc).reads = some a) : a ∈ addrs xs := by
  cases pc with
  | testData it itp =>
    obtain rfl := Option.some.inj ha
    obtain ⟨before, u, after, rfl, -⟩ := hat
    simp
  | loadNext it =>
    obtain rfl := Option.some.inj ha
    obtain ⟨before, u, after, rfl, -⟩ := hat
    simp
  | loadUnlinkHead it =>
    obtain rfl := Option.some.inj ha
    obtain ⟨after, rfl, -⟩ := hat
    simp
  | loadUnlink it itp =>
    obtain rfl := Option.some.inj ha
    obtain ⟨before, w, after, rfl, -⟩ := hat
    simp
  | _ => exact absurd ha.symm (Option.some_ne_none a)

theorem delete_writes {pc : DeletePc} {a : Addr} (hwf : m.WellFormed xs)
    (hat : DeleteAt m v l xs d pc) (ha : (Call.delete v pc).writes = some a) :
    (m.node a).isSome := by
  cases pc with
  | unlink it itp next =>
    obtain rfl := Option.some.inj ha
    obtain ⟨before, w, after, rfl, -⟩ := hat
    exact isSome_of_mem hwf.lists (by simp)
  | free it =>
    obtain rfl := Option.some.inj ha
    exact hat.2.2.1
  | _ => exact absurd ha.symm (Option.some_ne_none a)

theorem delete_proceeds {pc : DeletePc} (hwf : m.WellFormed xs) (hat : DeleteAt m v l xs d pc) :
    (deleteStep m v pc).isSome := by
  cases pc with
  | testData it itp | loadNext it | loadUnlinkHead it | loadUnlink it itp =>
    simpa [deleteStep] using isSome_of_mem hwf.lists (delete_reads hat rfl)
  | unlink it itp next | free it => simpa [deleteStep] using delete_writes hwf hat rfl
  | _ => rfl

end OperatingSystems.SearchInsertDelete
