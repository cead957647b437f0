import OperatingSystems.Library.Atomic
import OperatingSystems.Library.Simulation
import OperatingSystems.SearchInsertDelete.Walks

namespace OperatingSystems.SearchInsertDelete

open Library

/-- What a call is meant to answer. -/
def Op.result : Op → List ℤ → Bool
  | insert _, _ => true
  | search v, l | delete v, l => decide (v ∈ l)

/-- The sequence that a call leaves, and its answer. -/
def Op.spec (op : Op) (l : List ℤ) : List ℤ × Bool := (op.apply l, op.result l)

/-- The call that a thread makes next. -/
def Role.op : Role → ℤ → Op
  | inserter, v => .insert v
  | searcher, v => .search v
  | deleter, v => .delete v

/-- How far a thread is with its call: past the list section it has its answer. -/
def Point.progress : Point → Progress Op Bool
  | insTry v | insWait v | insIncr v | insTest v | insWaitMut v | insPost v | inserting v _ =>
    .called (.insert v)
  | seaTry v | seaWait v | seaIncr v | seaTest v | seaTryMut v | seaWaitMut v | seaPost v
  | searching v _ => .called (.search v)
  | deleting _ (.free _) => .done true
  | delWaitSearcher v | delWaitInserter v | delWaitDeleter v | deleting v _ => .called (.delete v)
  | _ => .idle

variable {τ : Type*} [DecidableEq τ]

/-- What an observer sees of a step: the call of an idle thread, and the end of a list section. -/
def observed (role : τ → Role) (s : State τ) (e : τ × Input) : List (Act τ Op Bool) :=
  let (t, i) := e
  match s.point t with
  | .idle => [.call t ((role t).op i.value)]
  | .inserting v pc =>
    match insertStep s.mem v i pc with
    | some (_, none) => [.answer t true]
    | _ => []
  | .searching v pc =>
    match searchStep s.mem v pc with
    | some (.inr searched) => [.answer t searched]
    | _ => []
  | .deleting v pc =>
    match deleteStep s.mem v pc with
    | some (_, .inr removed) => [.answer t removed]
    | _ => []
  | _ => []

/-- The thread is about to read through the pointer of its search. -/
def Point.readsNode : Point → Bool
  | searching _ pc => pc.follows.isSome
  | _ => false

/-- No search follows a pointer while a new node in `head->head` is being filled in. -/
def SearchWaits (s : State τ) (e : τ × Input) : Prop :=
  (s.point e.1).readsNode = true → ∀ u, (s.point u).fillsHead = false

instance [Fintype τ] (s : State τ) (e : τ × Input) : Decidable (SearchWaits s e) :=
  inferInstanceAs (Decidable (_ → _))

/-- Where a search stands over the list `xs`; the node in `head->head` may yet have to come. -/
def SearchAt (m : Mem) (xs : List (Addr × ℤ)) (v : ℤ) (pc : SearchPc) : Prop :=
  (∃ d, Reading xs v d (.inl pc)) ∨ xs = [] ∧ m.head ≠ 0 ∧ pc = .testData m.head

/-- The program has come as far as the atomic list: the same values, each thread as far with its call,
and the walks over the list on their way. -/
structure Matches [Fintype τ] (old : Multiset ℤ) (s : State τ) (xs : List (Addr × ℤ))
    (a : Atomic τ (List ℤ) Op Bool) : Prop where
  inserters : (insertView.switch s).Inv
  searchers : (searchView.switch s).Inv
  keeps : Keeps old s xs
  state : a.state = contents xs
  progress : ∀ t, a.progress t = (s.point t).progress
  searching : ∀ t v pc, s.point t = .searching v pc → SearchAt s.mem xs v pc
  deleting : ∀ t v pc, s.point t = .deleting v pc → ∃ l d, Deletes s.mem v l d pc

variable [Fintype τ] {role : τ → Role} {s s' : State τ} {t : τ} {i : Input} {old : Multiset ℤ}
  {xs ys : List (Addr × ℤ)} {a b : Atomic τ (List ℤ) Op Bool} {m : Mem} {v : ℤ} {p q : Point}

omit [DecidableEq τ] in
/-- A list is determined by the memory it is in. -/
theorem Keeps.eq_of_wellFormed (h : Keeps old s xs) (hnobody : ∀ u, (s.point u).fillsHead = false)
    (hys : s.mem.WellFormed ys) : ys = xs := by
  have hlists := h.complete hnobody
  refine Chain.unique holds_functional (fun x hx => ?_) (fun x hx => ?_) hys.lists hlists
  · exact ne_zero_of_mem h.null hys.lists (List.mem_map_of_mem hx)
  · exact ne_zero_of_mem h.null hlists (List.mem_map_of_mem hx)

omit [DecidableEq τ] in
/-- A search goes on over the list as it is, or it ends with what is there. -/
theorem search_goes {pc : SearchPc} {r : SearchPc ⊕ Bool} (h : Keeps old s xs)
    (hat : SearchAt s.mem xs v pc)
    (hwaits : pc.follows.isSome = true → ∀ u, (s.point u).fillsHead = false)
    (hr : searchStep s.mem v pc = some r) :
    (∀ pc', r = .inl pc' → SearchAt s.mem xs v pc') ∧
      ∀ found, r = .inr found → (found = true ↔ v ∈ contents xs) := by
  by_cases hnobody : ∀ u, (s.point u).fillsHead = false
  · have hlists := h.complete hnobody
    obtain ⟨d, hreading⟩ : ∃ d, Reading xs v d (.inl pc) := by
      refine hat.resolve_right ?_
      rintro ⟨rfl, hhead, -⟩
      exact hhead hlists
    obtain ⟨r', hr', hnext, hfound⟩ :=
      search_step (.begin (v := 0) ⟨h.null, hlists⟩) hreading (fun _ _ => rfl)
    obtain rfl : r = r' := Option.some.inj (hr.symm.trans hr')
    refine ⟨?_, hfound⟩
    rintro pc' rfl
    exact .inl ⟨_, hnext⟩
  · -- the walk is at its beginning, and it goes to the node that is being filled in
    have hstart : pc = .loadHead := by
      cases pc with
      | loadHead => rfl
      | testData | loadNext => exact absurd (hwaits rfl) hnobody
    push Not at hnobody
    obtain ⟨u, hu⟩ := hnobody
    obtain ⟨hhead, rfl⟩ := h.filling u (by simpa using hu)
    subst hstart
    obtain rfl : r = .inl (.testData s.mem.head) := by simpa [searchStep, hhead] using hr.symm
    refine ⟨fun pc' hpc' => .inr ⟨rfl, hhead, (Sum.inl.inj hpc').symm⟩, fun found hfound => ?_⟩
    exact absurd hfound Sum.inl_ne_inr

namespace Matches

/-- A step of one thread, when it leaves the walks of the others on their way. -/
theorem goes (h : Matches old s xs a) (hs : step role s (t, i) = some s') (hgo : Goes s s' t q p)
    (hkeeps : Keeps old s' ys) (hstate : b.state = contents ys)
    (hprogress : b.progress = Function.update a.progress t p.progress)
    (hsearch : ∀ v pc, p = .searching v pc → SearchAt s'.mem ys v pc)
    (hdelete : ∀ v pc, p = .deleting v pc → ∃ l d, Deletes s'.mem v l d pc)
    (hothers : ∀ u, u ≠ t → ∀ v pc, s.point u = .searching v pc → SearchAt s.mem xs v pc →
      SearchAt s'.mem ys v pc)
    (hdeleters : ∀ u, u ≠ t → (s.point u).inDelete = true → s'.mem = s.mem) :
    Matches old s' ys b where
  inserters := Switch.inv_moves h.inserters (insert_moves hs)
  searchers := Switch.inv_moves h.searchers (search_moves hs)
  keeps := hkeeps
  state := hstate
  progress := by
    rw [hprogress]
    intro u
    by_cases hu : u = t
    · subst u
      rw [Function.update_self, hgo.target, Function.update_self]
    · rw [Function.update_of_ne hu, hgo.target, Function.update_of_ne hu]
      exact h.progress u
  searching := by
    refine hgo.forall_points (P := fun _ x => ∀ v pc, x = .searching v pc → SearchAt s'.mem ys v pc)
      hsearch fun u hu v pc hp => ?_
    exact hothers u hu v pc hp (h.searching u v pc hp)
  deleting := by
    refine hgo.forall_points
      (P := fun _ x => ∀ v pc, x = .deleting v pc → ∃ l d, Deletes s'.mem v l d pc)
      hdelete fun u hu v pc hp => ?_
    rw [hdeleters u hu (by rw [hp]; rfl)]
    exact h.deleting u v pc hp

/-- A step that leaves the memory alone. -/
theorem quiet (h : Matches old s xs a) (hs : step role s (t, i) = some s') (hgo : Goes s s' t q p)
    (hmem : s'.mem = s.mem) (hkeeps : Keeps old s' xs) (hstate : b.state = a.state)
    (hprogress : b.progress = Function.update a.progress t p.progress)
    (hsearch : ∀ v pc, p = .searching v pc → SearchAt s.mem xs v pc)
    (hdelete : ∀ v pc, p = .deleting v pc → ∃ l d, Deletes s.mem v l d pc) :
    Matches old s' xs b :=
  h.goes hs hgo hkeeps (hstate.trans h.state) hprogress (hmem ▸ hsearch) (hmem ▸ hdelete)
    (fun _ _ _ _ _ hat => hmem ▸ hat) fun _ _ _ => hmem

/-- The steps of the protocols show nothing. -/
theorem silent (h : Matches old s xs a) (hs : step role s (t, i) = some s') (hgo : Goes s s' t q p)
    (hkeeps : Keeps old s' xs) (hsearch : ∀ v pc, p = .searching v pc → SearchAt s.mem xs v pc)
    (hdelete : ∀ v pc, p = .deleting v pc → ∃ l d, Deletes s.mem v l d pc)
    (hmem : s'.mem = s.mem := by rfl) (hprogress : p.progress = q.progress := by rfl) :
    Matches old s' xs a := by
  refine h.quiet hs hgo hmem hkeeps rfl ?_ hsearch hdelete
  rw [hprogress, ← hgo.source, ← h.progress t, Function.update_eq_self]

end Matches

omit [DecidableEq τ] in
/-- A walk stays on its way over a list that gets one more node at its end. -/
theorem SearchAt.grows {pc : SearchPc} (hat : SearchAt s.mem xs v pc) (hkeeps : Keeps old s' ys)
    (hhead : s.mem.head ≠ 0 → s'.mem.head = s.mem.head)
    (hys : ys = xs ∨ ∃ x, ys = xs ++ [x]) : SearchAt s'.mem ys v pc := by
  have hprefix : xs <+: ys := by
    rcases hys with rfl | ⟨x, rfl⟩
    · exact List.prefix_rfl
    · exact List.prefix_append ..
  rcases hat with ⟨d, hreading⟩ | ⟨rfl, hne, rfl⟩
  · exact .inl ⟨d, hreading.mono hprefix⟩
  · rw [← hhead hne]
    rcases hys with rfl | ⟨x, rfl⟩
    · exact .inr ⟨rfl, hhead hne ▸ hne, rfl⟩
    · obtain ⟨hx, -⟩ : s'.mem.Lists s'.mem.head [x] 0 := hkeeps.lists (a := x.1) (by simp)
      rw [hx]
      exact .inl ⟨1, [], x.2, [], rfl, fun _ hmem => absurd hmem List.not_mem_nil, rfl⟩

omit [DecidableEq τ] [Fintype τ] in
/-- An insert leaves a node in `head->head` where it is. -/
theorem insert_head {pc : InsertPc} {pc' : Option InsertPc} (hp : s.point t = .inserting v pc)
    (hclean : NothingOverwritten s (t, i)) (hm : insertStep s.mem v i pc = some (m, pc'))
    (hne : s.mem.head ≠ 0) : m.head = s.mem.head := by
  simp only [NothingOverwritten, hp] at hclean
  cases insertStep_does hm with
  | storeHead => exact absurd hclean hne
  | _ => rfl

/-- The atomic list answers the step with acts of which an observer sees what the step shows. -/
def Answers (role : τ → Role) (old : Multiset ℤ) (start : List ℤ) (s : State τ) (e : τ × Input)
    (s' : State τ) (a : Atomic τ (List ℤ) Op Bool) : Prop :=
  ∃ acts b, (Atomic.machine Op.spec start).run a acts = some b ∧
    acts.filter Act.visible = observed role s e ∧ ∃ ys, Matches old s' ys b

variable {start : List ℤ}

theorem Matches.inserting_step {pc : InsertPc} (h : Matches old s xs a)
    (hp : s.point t = .inserting v pc) (hclean : NothingOverwritten s (t, i))
    (hs : step role s (t, i) = some s') : Answers role old start s (t, i) s' a := by
  have hout := no_deleter_beside h.inserters h.searchers (t := t) (by rw [hp]; rfl)
  obtain ⟨ys, hkeeps, hcases⟩ := keeps_inserting h.keeps hp hout hclean hs
  have hcalled : a.progress t = .called (.insert v) := by rw [h.progress, hp]; rfl
  have hdo := hs
  simp only [step, hp, Option.map_eq_some_iff, Prod.exists] at hdo
  obtain ⟨m, pc', hm, rfl⟩ := hdo
  have hdeleters : ∀ u, u ≠ t → (s.point u).inDelete = true → m = s.mem := by
    intro u hu hD
    exact absurd ((hout u hu).symm.trans hD) Bool.false_ne_true
  have hys : ys = xs ∨ ∃ x, ys = xs ++ [x] :=
    hcases.imp And.right fun hend => ⟨_, hend.2.choose_spec⟩
  have hothers : ∀ w pcw, SearchAt s.mem xs w pcw → SearchAt m ys w pcw := fun w pcw hat =>
    hat.grows hkeeps (insert_head hp hclean hm) hys
  cases pc' with
  | some pc' =>
    obtain ⟨-, rfl⟩ := hcases.resolve_right fun hend =>
      absurd ((Function.update_self ..).symm.trans hend.1) (by simp)
    refine ⟨[], a, rfl, by simp [observed, hp, hm], ys, ?_⟩
    refine h.goes hs ⟨hp, rfl⟩ hkeeps h.state ?_ (by simp) (by simp)
      (fun _ _ w pcw _ => hothers w pcw) hdeleters
    exact (Function.update_eq_self_iff.mpr hcalled.symm).symm
  | none =>
    obtain ⟨-, x, rfl⟩ := hcases.resolve_left <| by
      rintro ⟨⟨pc', hstay⟩, -⟩
      have hends : Point.insExitWait = .inserting v pc' := (Function.update_self ..).symm.trans hstay
      cases hends
    refine ⟨[.effect t, .answer t true], _, Atomic.run_effect_answer hcalled rfl,
      by simp [observed, hp, hm, Act.visible], xs ++ [(x, v)], ?_⟩
    refine h.goes hs ⟨hp, rfl⟩ hkeeps ?_ rfl (by simp) (by simp)
      (fun _ _ w pcw _ => hothers w pcw) hdeleters
    show a.state ++ [v] = contents (xs ++ [(x, v)])
    rw [h.state, contents_append]
    rfl

theorem Matches.searching_step {pc : SearchPc} (h : Matches old s xs a)
    (hp : s.point t = .searching v pc) (hwaits : SearchWaits s (t, i))
    (hs : step role s (t, i) = some s') : Answers role old start s (t, i) s' a := by
  have hcalled : a.progress t = .called (.search v) := by rw [h.progress, hp]; rfl
  have hdo := hs
  simp only [step, hp, Option.map_eq_some_iff] at hdo
  obtain ⟨r, hr, rfl⟩ := hdo
  simp only [SearchWaits, hp, Point.readsNode] at hwaits
  obtain ⟨hnext, hfound⟩ := search_goes h.keeps (h.searching t v pc hp) hwaits hr
  cases r with
  | inl pc' =>
    refine ⟨[], a, rfl, by simp [observed, hp, hr], xs, ?_⟩
    refine h.silent hs ⟨hp, rfl⟩ (h.keeps.quiet ⟨hp, rfl⟩ trivial) ?_ (by simp)
    rintro w pcw heq
    obtain ⟨rfl, rfl⟩ := Point.searching.inj heq
    exact hnext pc' rfl
  | inr found =>
    have hresult : (Op.spec (.search v) a.state).2 = found := by
      rw [h.state, Bool.eq_iff_iff, hfound found rfl]
      exact decide_eq_true_iff
    refine ⟨[.effect t, .answer t found], _, Atomic.run_effect_answer hcalled hresult,
      by simp [observed, hp, hr, Act.visible], xs, ?_⟩
    exact h.quiet hs ⟨hp, rfl⟩ rfl (h.keeps.quiet ⟨hp, rfl⟩ trivial) rfl rfl (by simp) (by simp)

omit [DecidableEq τ] in
theorem Matches.nobody_beside {pc : DeletePc} (h : Matches old s xs a)
    (hp : s.point t = .deleting v pc) (u : τ) (hu : u ≠ t) : (s.point u).inDelete = false ∧
      (s.point u).inInsert = false ∧ (s.point u).inSearch = false :=
  alone_of_inDelete h.inserters h.searchers (by rw [hp]; rfl) hu

/-- A step of a delete, which is alone in the list sections. -/
theorem Matches.alone {pc : DeletePc} (h : Matches old s xs a) (hp : s.point t = .deleting v pc)
    (hs : step role s (t, i) = some s') (hgo : Goes s s' t (.deleting v pc) p)
    (hinsert : p.inInsert = false) (hsearch : p.inSearch = false)
    (hdelete : ∀ v pc, p = .deleting v pc → ∃ l d, Deletes s'.mem v l d pc)
    (hys : s'.mem.WellFormed ys) (hstate : b.state = contents ys)
    (hprogress : b.progress = Function.update a.progress t p.progress) : ∃ ys, Matches old s' ys b := by
  have halone := h.nobody_beside hp
  obtain ⟨zs, hkeeps⟩ := keeps_deleting h.keeps hp
    (fun u hu => ⟨(halone u hu).2.1, (halone u hu).1⟩) hs
  have hnobody : ∀ u, (s'.point u).fillsHead = false :=
    hgo.forall_points (P := fun _ x => x.fillsHead = false) (Point.fillsHead_of_outside hinsert)
      fun u hu => Point.fillsHead_of_outside (halone u hu).2.1
  obtain rfl := hkeeps.eq_of_wellFormed hnobody hys
  refine ⟨ys, h.goes hs hgo hkeeps hstate hprogress ?_ hdelete ?_ ?_⟩
  · rintro w pcw rfl
    exact absurd hsearch (Ne.symm Bool.false_ne_true)
  · intro u hu w pcw hpu
    have hout := (halone u hu).2.2
    rw [hpu] at hout
    exact absurd hout (Ne.symm Bool.false_ne_true)
  · intro u hu hD
    exact absurd ((halone u hu).1.symm.trans hD) Bool.false_ne_true

theorem Matches.deleting_step {pc : DeletePc} (h : Matches old s xs a)
    (hp : s.point t = .deleting v pc) (hs : step role s (t, i) = some s') :
    Answers role old start s (t, i) s' a := by
  obtain ⟨l, d, hdel⟩ := h.deleting t v pc hp
  have hprogress : a.progress t = (Point.deleting v pc).progress := by rw [h.progress, hp]
  have hstate : a.state = pc.leaves v l := by
    obtain ⟨zs, hzs, hcontents, -⟩ := hdel
    rw [h.state, ← hcontents, h.keeps.eq_of_wellFormed (fun u => ?_) hzs]
    apply Point.fillsHead_of_outside
    by_cases hu : u = t
    · rw [hu, hp]
      rfl
    · exact (h.nobody_beside hp u hu).2.1
  have hdo := hs
  simp only [step, hp, Option.map_eq_some_iff, Prod.exists] at hdo
  obtain ⟨m, r, hm, rfl⟩ := hdo
  have hgoes := deletes_step hdel hm
  cases r with
  | inl pc' =>
    have hdel' : Deletes m v l (d + 1) pc' := hgoes
    obtain ⟨zs, hzs, hcontents, hat⟩ := hgoes
    obtain ⟨hcalled, hleaves⟩ : (Point.deleting v pc).progress = .called (.delete v) ∧
        pc.leaves v l = l := by
      cases deleteStep_does hm <;> exact ⟨rfl, rfl⟩
    by_cases hfree : ∃ it, pc' = .free it
    · obtain ⟨it, rfl⟩ := hfree
      have hresult : (Op.spec (.delete v) a.state).2 = true := by
        rw [hstate, hleaves]
        exact decide_eq_true hat.1
      refine ⟨[.effect t], _, Atomic.run_effect (hprogress.trans hcalled),
        by simp [observed, hp, hm, Act.visible], ?_⟩
      refine h.alone hp hs ⟨hp, rfl⟩ rfl rfl ?_ hzs ?_ (by rw [hresult]; rfl)
      · rintro w pcw heq
        obtain ⟨rfl, rfl⟩ := Point.deleting.inj heq
        exact ⟨l, d + 1, hdel'⟩
      · show a.state.erase v = contents zs
        rw [hstate, hleaves, hcontents]
        rfl
    · obtain ⟨hcalled', hleaves'⟩ : (Point.deleting v pc').progress = .called (.delete v) ∧
          pc'.leaves v l = l := by
        cases pc' with
        | free it => exact absurd ⟨it, rfl⟩ hfree
        | _ => exact ⟨rfl, rfl⟩
      refine ⟨[], a, rfl, by simp [observed, hp, hm], ?_⟩
      refine h.alone hp hs ⟨hp, rfl⟩ rfl rfl ?_ hzs ?_ ?_
      · rintro w pcw heq
        obtain ⟨rfl, rfl⟩ := Point.deleting.inj heq
        exact ⟨l, d + 1, hdel'⟩
      · rw [hstate, hleaves, hcontents, hleaves']
      · rw [hcalled', ← hcalled, ← hprogress, Function.update_eq_self]
  | inr removed =>
    obtain ⟨hremoved, zs, hzs, hcontents⟩ := hgoes
    by_cases hfree : ∃ it, pc = .free it
    · obtain ⟨it, rfl⟩ := hfree
      obtain rfl : removed = true := by
        cases deleteStep_does hm
        rfl
      refine ⟨[.answer t true], _, Atomic.run_answer hprogress,
        by simp [observed, hp, hm, Act.visible], ?_⟩
      exact h.alone hp hs ⟨hp, rfl⟩ rfl rfl (by simp) hzs (hstate.trans hcontents.symm) rfl
    · obtain ⟨hcalled, hleaves, rfl⟩ : (Point.deleting v pc).progress = .called (.delete v) ∧
          pc.leaves v l = l ∧ removed = false := by
        cases deleteStep_does hm with
        | free => exact absurd ⟨_, rfl⟩ hfree
        | _ => exact ⟨rfl, rfl, rfl⟩
      have hresult : (Op.spec (.delete v) a.state).2 = false := by
        rw [hstate, hleaves]
        exact decide_eq_false (by simpa using hremoved)
      refine ⟨[.effect t, .answer t false], _,
        Atomic.run_effect_answer (hprogress.trans hcalled) hresult,
        by simp [observed, hp, hm, Act.visible], ?_⟩
      refine h.alone hp hs ⟨hp, rfl⟩ rfl rfl (by simp) hzs ?_ rfl
      show a.state.erase v = contents zs
      rw [hstate, hleaves, hcontents]

theorem Matches.outside_step (h : Matches old s xs a) (hI : (s.point t).inInsert = false)
    (hD : (s.point t).inDelete = false) (hS : (s.point t).inSearch = false)
    (hs : step role s (t, i) = some s') : Answers role old start s (t, i) s' a := by
  obtain ⟨hmem, hkeeps⟩ := keeps_outside h.keeps hI hD hs
  have hprogress := h.progress t
  generalize hq : s.point t = q at hI hD hS hprogress
  cases step_does hq hs with
  | callInsert hrole | callSearch hrole | callDelete hrole =>
    refine ⟨[.call t ((role t).op i.value)], _, Atomic.run_call hprogress,
      by simp [observed, hq, Act.visible], xs, ?_⟩
    refine h.quiet hs ⟨hq, rfl⟩ hmem hkeeps rfl ?_ (by simp) (by simp)
    rw [hrole]
    rfl
  | @seaPost w =>
    refine ⟨[], a, rfl, by simp [observed, hq], xs, ?_⟩
    refine h.silent hs ⟨hq, rfl⟩ hkeeps ?_ (by simp)
    rintro v pc heq
    obtain ⟨-, rfl⟩ := Point.searching.inj heq
    exact .inl ⟨0, rfl⟩
  | @delWaitDeleter w =>
    refine ⟨[], a, rfl, by simp [observed, hq], xs, ?_⟩
    refine h.silent hs ⟨hq, rfl⟩ hkeeps (by simp) ?_
    rintro v pc heq
    obtain ⟨-, rfl⟩ := Point.deleting.inj heq
    refine ⟨contents xs, 0, xs, ⟨h.keeps.null, h.keeps.complete fun u => ?_⟩, rfl, rfl⟩
    apply Point.fillsHead_of_outside
    rw [← Bool.not_eq_true]
    intro hin
    have hfree := (View.group_holds_room h.inserters (Point.insertPhase_of_inInsert hin)).2 t
    rw [hq] at hfree
    exact Bool.false_ne_true hfree.symm
  | inserting | inserted => exact absurd hI (Ne.symm Bool.false_ne_true)
  | deleting | deleted => exact absurd hD (Ne.symm Bool.false_ne_true)
  | searching | searched => exact absurd hS (Ne.symm Bool.false_ne_true)
  | _ =>
    exact ⟨[], a, rfl, by simp [observed, hq], xs, h.silent hs ⟨hq, rfl⟩ hkeeps (by simp) (by simp)⟩

theorem Matches.step (h : Matches old s xs a) (hclean : NothingOverwritten s (t, i))
    (hwaits : SearchWaits s (t, i)) (hs : step role s (t, i) = some s') :
    Answers role old start s (t, i) s' a := by
  cases hp : s.point t
  case inserting v pc => exact h.inserting_step hp hclean hs
  case searching v pc => exact h.searching_step hp hwaits hs
  case deleting v pc => exact h.deleting_step hp hs
  all_goals exact h.outside_step (by rw [hp]; rfl) (by rw [hp]; rfl) (by rw [hp]; rfl) hs

omit [DecidableEq τ] in
theorem matches_initial (hm : m.WellFormed xs) :
    Matches (values xs) (initial m : State τ) xs (.fresh (contents xs)) where
  inserters := switch_initial _ m rfl rfl rfl rfl rfl
  searchers := switch_initial _ m rfl rfl rfl rfl rfl
  keeps := keeps_initial hm
  state := rfl
  progress _ := rfl
  searching _ _ _ hp := absurd hp (by simp [initial])
  deleting _ _ _ hp := absurd hp (by simp [initial])

/-- However the calls overlap: as long as no insert overwrites and no search follows a pointer to a
node that is being filled in, the answers are those of a list on which every call takes effect at one
moment between its call and its answer, and that list is the one in memory when nobody is inside. -/
theorem calls_take_effect_at_once (hm : m.WellFormed xs) {es : List (τ × Input)}
    (hclean : (machine role m).Meets NothingOverwritten (initial m) es)
    (hwaits : (machine role m).Meets SearchWaits (initial m) es)
    (hr : (machine role m).run (initial m) es = some s) :
    ∃ acts a, (Atomic.machine Op.spec (contents xs)).run (.fresh (contents xs)) acts = some a ∧
      acts.filter Act.visible = (machine role m).trace (observed role) (initial m) es ∧
      ((∀ t, s.point t = .idle) → ∃ ys, s.mem.WellFormed ys ∧ contents ys = a.state) := by
  have hstep : ∀ s a e s', (∃ ys, Matches (values xs) s ys a) →
      NothingOverwritten s e ∧ SearchWaits s e → (machine role m).step s e = some s' →
      Answers role (values xs) (contents xs) s e s' a := by
    rintro s a ⟨t, i⟩ s' ⟨ys, h⟩ ⟨hclean, hwaits⟩ hs
    exact h.step hclean hwaits hs
  obtain ⟨acts, a, hacts, hsees, ys, hmatches⟩ := (hclean.and hwaits).simulates
    (List.filter Act.visible) rfl (fun _ _ => List.filter_append ..) hstep ⟨xs, matches_initial hm⟩ hr
  refine ⟨acts, a, hacts, hsees, fun hidle => ⟨ys, ⟨hmatches.keeps.null, ?_⟩, hmatches.state.symm⟩⟩
  exact hmatches.keeps.complete fun t => by rw [hidle t]; rfl

def oneOfEach : Fin 3 → Role := [Role.inserter, .searcher, .deleter].get

def goesOn (t : Fin 3) (n : ℕ) : List (Fin 3 × Input) := List.replicate n (t, {})

/-- An insert of 6 and a search for 6 side by side, up to their ends; then a delete of 4. -/
def overlappingCalls : List (Fin 3 × Input) :=
  [(0, { value := 6 }), (1, { value := 6 })] ++ goesOn 0 5 ++ goesOn 1 7 ++ goesOn 0 3 ++
    [(0, { addr := 9 })] ++ goesOn 0 3 ++ goesOn 1 2 ++ goesOn 0 5 ++ goesOn 1 5 ++
    [(2, { value := 4 })] ++ goesOn 2 12

theorem calls_take_effect_overlapping :
    ∃ (acts : List (Act (Fin 3) Op Bool)) (a : Atomic (Fin 3) (List ℤ) Op Bool) (ys : List (Addr × ℤ)),
      (Atomic.machine Op.spec [4]).run (.fresh [4]) acts = some a ∧
      acts.filter Act.visible = [.call 0 (.insert 6), .call 1 (.search 6), .answer 0 true,
        .answer 1 true, .call 2 (.delete 4), .answer 2 true] ∧ contents ys = a.state := by
  obtain ⟨s, hr, h₀, h₁, h₂⟩ : ∃ s, (machine oneOfEach oneNode).run (initial oneNode)
      overlappingCalls = some s ∧ s.point 0 = .idle ∧ s.point 1 = .idle ∧ s.point 2 = .idle :=
    ⟨_, rfl, rfl, rfl, rfl⟩
  have hidle : ∀ t, s.point t = .idle := by
    intro t
    match t with
    | 0 => exact h₀
    | 1 => exact h₁
    | 2 => exact h₂
  have hone : ∀ t u, oneOfEach t = .inserter → oneOfEach u = .inserter → t = u := by decide
  have hclean := meets_of_one_inserter oneNode_wellFormed hone overlappingCalls
  obtain ⟨acts, a, hacts, hsees, hlist⟩ :=
    calls_take_effect_at_once oneNode_wellFormed hclean (by decide) hr
  obtain ⟨ys, -, hys⟩ := hlist hidle
  exact ⟨acts, a, ys, hacts, hsees, hys⟩

end OperatingSystems.SearchInsertDelete
