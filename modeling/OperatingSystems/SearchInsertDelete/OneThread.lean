import OperatingSystems.SearchInsertDelete.Walks

namespace OperatingSystems.SearchInsertDelete

open Library

variable {m : Mem} {v : ℤ} {xs : List (Addr × ℤ)} {d : ℕ} {i : Input}

/-- The thread is between two calls. -/
def Rests (s : Single) : Prop :=
  s.call = none ∧ ∃ xs, s.mem.WellFormed xs ∧ contents xs = s.reference

/-- The thread has taken `d` steps of a call. -/
def Works (s : Single) (d : ℕ) : Prop :=
  match s.call with
  | none => False
  | some (.insert v pc) => ∃ xs ys, Built v xs ys s.mem (some pc) ∧ contents xs = s.reference ∧
      InsertAt xs d pc
  | some (.search v pc) => ∃ xs, s.mem.WellFormed xs ∧ contents xs = s.reference ∧
      Reading xs v d (.inl pc)
  | some (.delete v pc) => Deletes s.mem v s.reference d pc

variable {s t : Single} {c : Call}

theorem works_start (h : Rests s) (op : Op) : Works { s with call := some (.start op) } 0 := by
  obtain ⟨-, xs, hwf, hcontents⟩ := h
  cases op with
  | insert v => exact ⟨xs, xs, .begin hwf, hcontents, rfl⟩
  | search v => exact ⟨xs, hwf, hcontents, rfl⟩
  | delete v => exact ⟨xs, hwf, hcontents, rfl⟩

/-- A step of a search, alone with the list. -/
theorem search_alone {pc : SearchPc} (hwf : m.WellFormed xs) (hreading : Reading xs v d (.inl pc)) :
    ∃ r, searchStep m v pc = some r ∧ Reading xs v (d + 1) r ∧
      ∀ found, r = .inr found → (found = true ↔ v ∈ contents xs) := by
  have hbuilt : Built 0 xs xs m (some .testHead) := .begin hwf
  exact search_step hbuilt hreading fun a _ => rfl

/-- A call takes a bounded number of steps. -/
theorem works_le (h : Works s d) : d ≤ 2 * s.reference.length + 6 := by
  cases hc : s.call with
  | none =>
    rw [Works, hc] at h
    exact h.elim
  | some c =>
    rw [Works, hc] at h
    cases c with
    | insert v pc =>
      obtain ⟨xs, ys, -, hcontents, hat⟩ := h
      rw [← hcontents, length_contents]
      exact hat.le
    | search v pc =>
      obtain ⟨xs, -, hcontents, hreading⟩ := h
      have hd := hreading.le
      rw [← hcontents, length_contents]
      omega
    | delete v pc =>
      have hd := h.le
      omega

theorem works_insert {pc : InsertPc} (hc : s.call = some (.insert v pc)) (h : Works s d)
    (hs : s.step (.step i) = some t) :
    Rests t ∨ t.reference = s.reference ∧ Works t (d + 1) := by
  rw [Works, hc] at h
  obtain ⟨xs, ys, hbuilt, hcontents, hat⟩ := h
  rw [Single.step, hc, Option.bind_some, Single.access] at hs
  obtain ⟨⟨m', pc'⟩, hm, rfl⟩ := Option.map_eq_some_iff.mp hs
  obtain ⟨ys', hbuilt', -⟩ := hbuilt.step hm
  cases pc' with
  | none =>
    obtain ⟨a, rfl⟩ := hbuilt'.linked rfl
    refine .inl ⟨rfl, _, ⟨hbuilt'.null, hbuilt'.lists rfl⟩, ?_⟩
    rw [contents_append, hcontents]
    rfl
  | some pc' => exact .inr ⟨rfl, xs, ys', hbuilt', hcontents, insertAt_step hbuilt hat hm⟩

theorem works_search {pc : SearchPc} (hc : s.call = some (.search v pc)) (h : Works s d)
    (hs : s.step (.step i) = some t) :
    Rests t ∨ t.reference = s.reference ∧ Works t (d + 1) := by
  rw [Works, hc] at h
  obtain ⟨xs, hwf, hcontents, hreading⟩ := h
  rw [Single.step, hc, Option.bind_some, Single.access] at hs
  obtain ⟨r, hr, rfl⟩ := Option.map_eq_some_iff.mp hs
  obtain ⟨r', hr', hnext, -⟩ := search_alone hwf hreading
  obtain rfl : r = r' := Option.some.inj (hr.symm.trans hr')
  cases r with
  | inl pc' => exact .inr ⟨rfl, xs, hwf, hcontents, hnext⟩
  | inr found => exact .inl ⟨rfl, xs, hwf, hcontents⟩

theorem works_delete {pc : DeletePc} (hc : s.call = some (.delete v pc)) (h : Works s d)
    (hs : s.step (.step i) = some t) :
    Rests t ∨ t.reference = s.reference ∧ Works t (d + 1) := by
  rw [Works, hc] at h
  rw [Single.step, hc, Option.bind_some, Single.access] at hs
  obtain ⟨⟨m', r⟩, hm, rfl⟩ := Option.map_eq_some_iff.mp hs
  have hgoes := deletes_step h hm
  cases r with
  | inl pc' => exact .inr ⟨rfl, hgoes⟩
  | inr removed =>
    obtain ⟨-, xs, hwf, hcontents⟩ := hgoes
    exact .inl ⟨rfl, xs, hwf, hcontents⟩

/-- One step of a call: it goes on, or it ends and leaves what it was meant to leave. -/
theorem works_step (h : Works s d) (hs : s.step (.step i) = some t) :
    Rests t ∨ t.reference = s.reference ∧ Works t (d + 1) := by
  cases hc : s.call with
  | none =>
    rw [Works, hc] at h
    exact h.elim
  | some c =>
    cases c with
    | insert v pc => exact works_insert hc h hs
    | search v pc => exact works_search hc h hs
    | delete v pc => exact works_delete hc h hs

theorem rests_stops (h : Rests s) : s.step (.step i) = none := by
  rw [Single.step, h.1, Option.bind_none]

theorem rests_ends {garbage : Addr} {is : List Input} (h : Rests s)
    (hr : (single garbage).run s (is.map .step) = some t) : is = [] := by
  cases is with
  | nil => rfl
  | cons i is =>
    obtain ⟨u, hu, -⟩ := Machine.run_cons_eq_some.mp hr
    exact absurd ((rests_stops h).symm.trans hu).symm (Option.some_ne_none u)

theorem works_ends {garbage : Addr} {is : List Input} (h : Works s d)
    (hr : (single garbage).run s (is.map .step) = some t) :
    d + is.length ≤ 2 * s.reference.length + 7 := by
  induction is generalizing s d with
  | nil => exact (works_le h).trans (Nat.le_succ _)
  | cons i is ih =>
    obtain ⟨u, hu, hrest⟩ := Machine.run_cons_eq_some.mp hr
    rcases works_step h hu with hrests | ⟨hreference, hworks⟩
    · have hd := works_le h
      rw [rests_ends hrests hrest, List.length_singleton]
      omega
    · have hlength := ih hworks hrest
      rw [hreference] at hlength
      rw [List.length_cons]
      omega

/-- The thread rests, or it is in a call. -/
def InOrder (s : Single) : Prop := Rests s ∨ ∃ d, Works s d

theorem inOrder_step {e : SingleEvent} (h : InOrder s) (hs : s.step e = some t) : InOrder t := by
  cases e with
  | call op =>
    rw [Single.step, Option.ite_none_right_eq_some] at hs
    obtain ⟨hidle, hs⟩ := hs
    obtain rfl := Option.some.inj hs
    rcases h with hrests | ⟨d, hworks⟩
    · exact .inr ⟨0, works_start hrests op⟩
    · rw [Works, hidle] at hworks
      exact hworks.elim
  | step i =>
    rcases h with hrests | ⟨d, hworks⟩
    · exact absurd ((rests_stops hrests).symm.trans hs).symm (Option.some_ne_none t)
    · rcases works_step hworks hs with hrests | ⟨-, hnext⟩
      · exact .inl hrests
      · exact .inr ⟨d + 1, hnext⟩

theorem rests_actsAsList (garbage : Addr) (h : Rests s) : ActsAsList garbage s := by
  have hnone : ∀ {c}, s.call ≠ some c := by
    intro c hc
    exact Option.some_ne_none c (hc.symm.trans h.1)
  obtain ⟨xs, hwf, hcontents⟩ := h.2
  exact
    { represents := fun _ => ⟨xs, hwf, .inl hcontents⟩
      reads := fun c a hc => absurd hc hnone
      writes := fun c a hc => absurd hc hnone
      proceeds := fun c i hc => absurd hc hnone
      ends := fun is t hr => by
        rw [rests_ends h hr]
        exact Nat.zero_le _
      finds := fun v pc found hc => absurd hc hnone
      deletes := fun v pc m removed hc => absurd hc hnone }

theorem works_represents (h : Works s d) (hfills : s.fillsHead = false) :
    ∃ xs, s.mem.WellFormed xs ∧ (contents xs = s.reference ∨
      ∃ c, s.call = some c ∧ contents xs = c.op.apply s.reference) := by
  cases hc : s.call with
  | none =>
    rw [Works, hc] at h
    exact h.elim
  | some c =>
    cases c with
    | insert v pc =>
      rw [Works, hc] at h
      obtain ⟨xs, ys, hbuilt, hcontents, -⟩ := h
      rw [Single.fillsHead, hc] at hfills
      refine ⟨ys, ⟨hbuilt.null, hbuilt.lists hfills⟩, ?_⟩
      cases hlinked : linkStored (some pc) with
      | false =>
        rw [hbuilt.unlinked hlinked]
        exact .inl hcontents
      | true =>
        obtain ⟨a, rfl⟩ := hbuilt.linked hlinked
        refine .inr ⟨_, rfl, ?_⟩
        rw [contents_append, hcontents]
        rfl
    | search v pc =>
      rw [Works, hc] at h
      obtain ⟨xs, hwf, hcontents, -⟩ := h
      exact ⟨xs, hwf, .inl hcontents⟩
    | delete v pc =>
      rw [Works, hc] at h
      obtain ⟨xs, hwf, hcontents, -⟩ := h
      refine ⟨xs, hwf, ?_⟩
      cases pc with
      | free it => exact .inr ⟨_, rfl, hcontents⟩
      | _ => exact .inl hcontents

theorem works_reads {a : Addr} (h : Works s d) (hc : s.call = some c) (ha : c.reads = some a) :
    ∃ n, s.mem.node a = some n ∧ n.dataStored = true ∧ n.nextStored = true := by
  rw [Works, hc] at h
  cases c with
  | insert v pc =>
    obtain ⟨xs, ys, hbuilt, -, hat⟩ := h
    obtain ⟨hmem, hlinked⟩ := insert_reads hat ha
    exact stored_of_mem (hbuilt.lists_unlinked hlinked) hmem
  | search v pc =>
    obtain ⟨xs, hwf, -, hreading⟩ := h
    exact stored_of_mem hwf.lists (hreading.follows ha)
  | delete v pc =>
    obtain ⟨xs, hwf, -, hat⟩ := h
    exact stored_of_mem hwf.lists (delete_reads hat ha)

theorem works_writes {a : Addr} (h : Works s d) (hc : s.call = some c) (ha : c.writes = some a) :
    (s.mem.node a).isSome := by
  rw [Works, hc] at h
  cases c with
  | insert v pc =>
    obtain ⟨xs, ys, hbuilt, -, -⟩ := h
    exact insert_writes hbuilt ha
  | search v pc => exact absurd ha.symm (Option.some_ne_none a)
  | delete v pc =>
    obtain ⟨xs, hwf, -, hat⟩ := h
    exact delete_writes hwf hat ha

theorem works_proceeds (h : Works s d) (hc : s.call = some c) (hne : i.addr ≠ 0)
    (hfree : s.mem.node i.addr = none) : (s.step (.step i)).isSome := by
  rw [Single.step, hc, Option.bind_some]
  rw [Works, hc] at h
  cases c with
  | insert v pc =>
    obtain ⟨xs, ys, hbuilt, -, hat⟩ := h
    rw [Single.access, Option.isSome_map]
    exact insert_proceeds hbuilt hat hne hfree
  | search v pc =>
    obtain ⟨xs, hwf, -, hreading⟩ := h
    obtain ⟨r, hr, -⟩ := search_alone hwf hreading
    rw [Single.access, Option.isSome_map, hr]
    rfl
  | delete v pc =>
    obtain ⟨xs, hwf, -, hat⟩ := h
    rw [Single.access, Option.isSome_map]
    exact delete_proceeds hwf hat

theorem works_actsAsList (garbage : Addr) (h : Works s d) : ActsAsList garbage s where
  represents hfills := works_represents h hfills
  reads c a hc ha := works_reads h hc ha
  writes c a hc ha := works_writes h hc ha
  proceeds c i hc hne hfree := works_proceeds h hc hne hfree
  ends is t hr := le_of_add_le_right (works_ends h hr)
  finds v pc found hc hs := by
    rw [Works, hc] at h
    obtain ⟨xs, hwf, hcontents, hreading⟩ := h
    obtain ⟨r, hr, -, hfound⟩ := search_alone hwf hreading
    rw [← hcontents]
    exact hfound found (Option.some.inj (hr.symm.trans hs))
  deletes v pc m removed hc hs := by
    rw [Works, hc] at h
    exact (deletes_step h hs).1

/-- Over the list of `main` one thread has a list at its disposal, through any calls, exactly when
`malloc` has left `NULL` in `head->head`. -/
theorem acts_as_list_iff (garbage : Addr) :
    (∀ s, (single garbage).Reachable s → ActsAsList garbage s) ↔ garbage = 0 := by
  constructor
  · intro hall
    obtain ⟨xs, hwf, hcontents | ⟨c, hc, -⟩⟩ :=
      (hall (.initial garbage) ⟨_, [], rfl, rfl⟩).represents rfl
    · obtain rfl : xs = [] := List.map_eq_nil_iff.mp hcontents
      exact hwf.lists
    · exact absurd hc.symm (Option.some_ne_none c)
  · rintro rfl s hs
    have horder : InOrder s := by
      refine hs.invariant (I := InOrder) ?_ ?_
      · rintro s rfl
        exact .inl ⟨rfl, [], ⟨rfl, rfl⟩, rfl⟩
      · intro s e t h hstep
        exact inOrder_step h hstep
    rcases horder with hrests | ⟨d, hworks⟩
    · exact rests_actsAsList 0 hrests
    · exact works_actsAsList 0 hworks

/-- With garbage in `head->head` the first search follows it to memory that is not allocated. -/
theorem first_search_follows_garbage : ∃ s, (single 1).run (.initial 1)
      [.call (.search 5), .step default] = some s ∧
    s.call = some (.search 5 (.testData 1)) ∧ s.mem.node 1 = none ∧
    s.step (.step default) = none ∧ ¬ ActsAsList 1 s := by
  refine ⟨_, rfl, rfl, rfl, rfl, fun h => ?_⟩
  obtain ⟨n, hn, -⟩ := h.reads _ 1 rfl rfl
  exact Option.some_ne_none n hn.symm

end OperatingSystems.SearchInsertDelete
