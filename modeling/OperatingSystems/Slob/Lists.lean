import OperatingSystems.Slob.PageFree

namespace OperatingSystems.Slob

open Library

variable {g : Config} {nid : ℕ → ℕ} {h h' : Heap} {l l' : Links Entry} {ls : SizeClass → List ℕ}
  {runs : ℕ → List (ℕ × ℕ)} {c : SizeClass} {sp : ℕ} {as bs ws : List ℕ} {r : Request}

/-- The partial lists hold the pages `ls`, none of them twice. -/
structure PartialLists (l : Links Entry) (ls : SizeClass → List ℕ) : Prop where
  ring : ∀ c, l.Ring (.list c) ((ls c).map .lru)
  unique : ∀ c c' sp, sp ∈ ls c → sp ∈ ls c' → c = c'

/-- The list `c` after an allocation from the page behind `prev`: its head has moved there. -/
def rotated (l : Links Entry) (c : SizeClass) (prev : Entry) : Links Entry :=
  if prev ≠ l.prev (.list c) ∧ l.next (.list c) ≠ l.next prev then
    l.listMoveTail (.list c) (l.next prev)
  else l

namespace PartialLists

/-- A page is on its list once. -/
theorem not_mem (hl : PartialLists l ls) (hc : ls c = as ++ sp :: bs) : sp ∉ as ++ bs := by
  have hring := hl.ring c
  rw [hc, List.map_append, List.map_cons] at hring
  have hnot := hring.not_mem
  rw [← List.map_append] at hnot
  exact fun hmem => hnot (List.mem_cons_of_mem _ (List.mem_map_of_mem hmem))

/-- The pages of a list are different. -/
theorem length_le (hl : PartialLists l ls) {n : ℕ} (hn : ∀ sp ∈ ls c, sp < n) : (ls c).length ≤ n := by
  have hnodup : (ls c).Nodup := ((List.nodup_cons.mp (hl.ring c).nodup).2).of_map
  rw [← List.toFinset_card_of_nodup hnodup, ← Finset.card_range n]
  exact Finset.card_le_card fun sp hsp => Finset.mem_range.mpr (hn sp (List.mem_toFinset.mp hsp))

/-- An operation on the list `c` that involves the pages `ws`, which are on no other list. -/
theorem replace (hl : PartialLists l ls) (hring : l'.Ring (.list c) (as.map .lru)) (hsub : as ⊆ ws)
    (hsame : Links.SameOutside (.list c :: ws.map .lru) l l')
    (hws : ∀ sp ∈ ws, ∀ c', sp ∈ ls c' → c' = c) : PartialLists l' (Function.update ls c as) := by
  constructor
  · intro c'
    by_cases hc : c' = c
    · subst hc
      rw [Function.update_self]
      exact hring
    · rw [Function.update_of_ne hc]
      refine (hl.ring c').sameOutside hsame fun e he => ?_
      simp only [List.mem_cons, List.mem_map, not_or] at he ⊢
      rcases he with rfl | ⟨sp, hsp, rfl⟩
      · exact ⟨fun he => hc (Entry.list.inj he), nofun⟩
      · refine ⟨nofun, ?_⟩
        rintro ⟨sp', hsp', he⟩
        exact hc (hws sp' hsp' c' (Entry.lru.inj he ▸ hsp))
  · intro c₁ c₂ sp h₁ h₂
    have hin : ∀ c', sp ∈ Function.update ls c as c' → (c' = c ∧ sp ∈ as) ∨ (c' ≠ c ∧ sp ∈ ls c') := by
      intro c' hmem
      by_cases hc : c' = c
      · subst hc
        exact .inl ⟨rfl, by rwa [Function.update_self] at hmem⟩
      · exact .inr ⟨hc, by rwa [Function.update_of_ne hc] at hmem⟩
    rcases hin c₁ h₁ with ⟨rfl, hin₁⟩ | ⟨-, hin₁⟩ <;> rcases hin c₂ h₂ with ⟨rfl, hin₂⟩ | ⟨-, hin₂⟩
    · rfl
    · exact (hws sp (hsub hin₁) c₂ hin₂).symm
    · exact hws sp (hsub hin₂) c₁ hin₁
    · exact hl.unique c₁ c₂ sp hin₁ hin₂

theorem listAdd (hl : PartialLists l ls) (hsp : ∀ c, sp ∉ ls c) :
    PartialLists (l.listAdd (.lru sp) (.list c)) (Function.update ls c (sp :: ls c)) := by
  refine hl.replace ((hl.ring c).listAdd ?_) (List.Subset.refl _)
    ((hl.ring c).listAdd_sameOutside.mono ?_) fun sp' hsp' c' hc' => ?_
  · simpa using hsp c
  · exact fun e he => by simpa [or_left_comm] using he
  · rcases List.mem_cons.mp hsp' with rfl | hsp'
    · exact absurd hc' (hsp c')
    · exact hl.unique c' c sp' hc' hsp'

theorem listDel (hl : PartialLists l ls) (hc : ls c = as ++ sp :: bs) :
    PartialLists (l.listDel (.lru sp) .poison1 .poison2) (Function.update ls c (as ++ bs)) := by
  have hring := hl.ring c
  rw [hc, List.map_append, List.map_cons] at hring
  have hothers : ∀ sp' ∈ ls c, ∀ c', sp' ∈ ls c' → c' = c := fun sp' hsp' c' hc' =>
    hl.unique c' c sp' hc' hsp'
  refine hl.replace ?_ ?_ ?_ hothers
  · rw [List.map_append]
    exact hring.listDel
  · rw [hc]
    exact fun a ha => by simp only [List.mem_append, List.mem_cons] at ha ⊢; tauto
  · rw [hc, List.map_append, List.map_cons]
    exact hring.listDel_sameOutside (by simp)

theorem rotate (hl : PartialLists l ls) (hc : ls c = as ++ bs) {prev : Entry}
    (hprev : prev = (Entry.list c :: as.map .lru).getLast (List.cons_ne_nil _ _)) :
    PartialLists (rotated l c prev) (Function.update ls c (bs ++ as)) := by
  have hring := hl.ring c
  rw [hc, List.map_append] at hring
  obtain ⟨hring', hsame⟩ := hring.listMoveTail_ite hprev
  have hothers : ∀ sp' ∈ ls c, ∀ c', sp' ∈ ls c' → c' = c := fun sp' hsp' c' hc' =>
    hl.unique c' c sp' hc' hsp'
  refine hl.replace ?_ ?_ ?_ hothers
  · rw [List.map_append]
    exact hring'
  · rw [hc]
    exact fun a ha => by simpa only [List.mem_append, or_comm] using ha
  · rw [hc, List.map_append]
    exact hsame

/-- The `lru` of a page that is on no list may change. -/
theorem other (hl : PartialLists l ls) (hsp : ∀ c, sp ∉ ls c)
    (hsame : Links.SameOutside [.lru sp] l l') : PartialLists l' ls := by
  refine ⟨fun c => (hl.ring c).sameOutside hsame fun e he => ?_, hl.unique⟩
  simp only [List.mem_cons, List.mem_map, List.not_mem_nil, or_false] at he ⊢
  rcases he with rfl | ⟨sp', hsp', rfl⟩
  · nofun
  · exact fun he => hsp c (Entry.lru.inj he ▸ hsp')

end PartialLists

end OperatingSystems.Slob
