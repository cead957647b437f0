import OperatingSystems.Slob.InOrder

namespace OperatingSystems.Slob

open Library

variable {τ : Type*} {g : Config} {nid : ℕ → ℕ} {s s' : State τ} {e : Event τ}
  {live : List Block} {ls ls' : SizeClass → List ℕ} {runs : ℕ → List (ℕ × ℕ)}
  {classOf : ℕ → SizeClass} {c : SizeClass} {b : Block} {sp p : ℕ}

/-- The sizes of a class. -/
def SizeClass.Has : SizeClass → ℕ → Prop
  | .small, size => size < 256
  | .medium, size => 256 ≤ size ∧ size < 1024
  | .large, size => 1024 ≤ size

/-- The list that the source chooses for a size is that of its class. -/
theorem slobList_eq_iff {size : ℕ} : slobList size = c ↔ c.Has size := by
  rw [slobList]
  cases c <;> simp only [SizeClass.Has] <;> split_ifs <;> simp <;> omega

/-- The class of a page, which no field of it records, is that of its live blocks and of its list. -/
structure Classified (g : Config) (live : List Block) (ls : SizeClass → List ℕ)
    (classOf : ℕ → SizeClass) : Prop where
  live : ∀ b ∈ live, slobList b.size = classOf (g.pageOf b.start)
  lists : ∀ c p, p ∈ ls c → classOf p = c

namespace Classified

/-- Pages may leave their lists, and blocks may be freed. -/
theorem shrink {live' : List Block} (hc : Classified g live ls classOf)
    (hlive : ∀ b ∈ live', b ∈ live) (hfrom : ∀ c p, p ∈ ls' c → p ∈ ls c) :
    Classified g live' ls' classOf :=
  ⟨fun b hb => hc.live b (hlive b hb), fun c p hp => hc.lists c p (hfrom c p hp)⟩

/-- A block is freed, and its page goes on the list for the size of that block. -/
theorem free (hc : Classified g live ls classOf) (hb : b ∈ live)
    (hfrom : ∀ c p, p ∈ ls' c → p ∈ ls c ∨ p = g.pageOf b.start ∧ c = slobList b.size) :
    Classified g (live.erase b) ls' classOf := by
  refine ⟨fun b' hb' => hc.live b' (List.mem_of_mem_erase hb'), fun c p hp => ?_⟩
  rcases hfrom c p hp with hold | ⟨hpage, hclass⟩
  · exact hc.lists c p hold
  · rw [hpage, hclass, hc.live b hb]

/-- A block is allocated on a page of its class. -/
theorem alloc (hc : Classified g live ls classOf) (hb : slobList b.size = classOf (g.pageOf b.start))
    (hfrom : ∀ c p, p ∈ ls' c → p ∈ ls c) : Classified g (b :: live) ls' classOf := by
  refine ⟨fun b' hb' => ?_, fun c p hp => hc.lists c p (hfrom c p hp)⟩
  rcases List.mem_cons.mp hb' with rfl | hold
  · exact hb
  · exact hc.live b' hold

/-- A page that holds no block and is on no list gets the class of its first block. -/
theorem add (hc : Classified g live ls classOf) (hlive : ∀ b ∈ live, g.pageOf b.start ≠ sp)
    (hlists : ∀ c, sp ∉ ls c) (hb : g.pageOf b.start = sp)
    (hfrom : ∀ c p, p ∈ ls' c → p ∈ ls c ∨ p = sp ∧ c = slobList b.size) :
    Classified g (b :: live) ls' (Function.update classOf sp (slobList b.size)) := by
  refine ⟨fun b' hb' => ?_, fun c p hp => ?_⟩
  · rcases List.mem_cons.mp hb' with rfl | hold
    · rw [hb, Function.update_self]
    · rw [Function.update_of_ne (hlive b' hold)]
      exact hc.live b' hold
  · rcases hfrom c p hp with hold | ⟨rfl, rfl⟩
    · have hne : p ≠ sp := fun heq => hlists c (heq ▸ hold)
      rw [Function.update_of_ne hne]
      exact hc.lists c p hold
    · exact Function.update_self ..

end Classified

variable [DecidableEq τ]

/-- Every step keeps the size classes apart. -/
theorem Does.classified (hi : Invariant g s) (hl : Layout g s.heap s.status s.live ls runs)
    (hc : Classified g s.live ls classOf) (hd : Does g nid ls runs s e s')
    (hfrom : ∀ c p, p ∈ ls' c → p ∈ ls c ∨ Files g s c p e) :
    ∃ classOf', Classified g s'.live ls' classOf' := by
  cases hd with
  | @allocs t r sp as bs h links b xs idle valid list eligible before served takes =>
    have hmem : sp ∈ ls (slobList r.size) := by rw [list]; simp
    have hstart : Covers (runs sp) b :=
      takes.inside b le_rfl (Nat.lt_add_of_pos_right (g.unitsOf_pos valid.1))
    have hpage : g.pageOf b = sp := (hl.manages sp (hl.heap_of_mem hmem)).onPage.pageOf_eq hstart
    refine ⟨classOf, hc.alloc ?_ fun c p hp => (hfrom c p hp).resolve_right id⟩
    simp only [hpage, hc.lists _ sp hmem]
  | @addPage t r sp h xs point =>
    have hstatus : s.status sp = .taken := (hi.newPage t r sp point).1
    have hnot : s.status sp ≠ .heap := by rw [hstatus]; nofun
    refine ⟨_, hc.add (fun b hb (hpage : g.pageOf b.start = sp) => hnot ?_) (hl.not_mem_of_status hnot) ?_
      fun c p hp => (hfrom c p hp).imp_right ?_⟩
    · exact hpage ▸ (hl.placed b hb).onHeap
    · exact Nat.mul_div_cancel sp g.pageUnits_pos
    · rintro ⟨r', hpoint, rfl⟩
      obtain ⟨rfl, rfl⟩ := Point.newPage.inj (hpoint.symm.trans point)
      exact ⟨rfl, rfl⟩
  | frees idle live | empties idle live => exact ⟨classOf, hc.free live hfrom⟩
  | noRoom | noPages | newPage | freePages | store | reuse =>
    exact ⟨classOf, hc.shrink (fun _ => id) fun c p hp => (hfrom c p hp).resolve_right id⟩

/-- The invariant of the heap, with its pages classified. -/
def Segregated (g : Config) (s : State τ) : Prop :=
  Invariant g s ∧ ∃ ls runs classOf, Layout g s.heap s.status s.live ls runs ∧
    Classified g s.live ls classOf

theorem Segregated.step (hs : Segregated g s) (hstep : step g nid s e = some s') : Segregated g s' := by
  obtain ⟨hi, ls, runs, classOf, hl, hc⟩ := hs
  have hd := step_does hl hi.newPage hstep
  obtain ⟨ls', runs', hl', hfrom⟩ := hd.layout hl hi.claims hi.valid
  obtain ⟨classOf', hc'⟩ := hd.classified hi hl hc hfrom
  exact ⟨hi.step hstep, ls', runs', classOf', hl', hc'⟩

theorem segregated (h : (machine g nid).Reachable s) : Segregated g s := by
  refine h.invariant (fun s hempty => ?_) fun _ _ _ hs hstep => hs.step hstep
  have hi := Invariant.of_emptyHeap (g := g) hempty
  obtain ⟨ls, runs, hl⟩ := hi.layout
  have hnone : ∀ c, ls c = [] := by
    intro c
    rw [List.eq_nil_iff_forall_not_mem]
    intro sp hsp
    have hheap := hl.heap_of_mem hsp
    rw [hempty.status] at hheap
    cases hheap
  refine ⟨hi, ls, runs, fun _ => .small, hl, ?_, fun c p hp => ?_⟩
  · rw [hempty.live]
    nofun
  · rw [hnone] at hp
    cases hp

/-- Whatever was allocated and freed, the live blocks of a page are of one size class, and a page that
is on a partial list is on the one for that class. -/
theorem size_classes_segregated (h : (machine g nid).Reachable s) :
    ∃ classOf : ℕ → SizeClass,
      (∀ b ∈ s.live, (classOf (g.pageOf b.start)).Has b.size) ∧
      ∀ c sp, .lru sp ∈ listed g s.heap.links c → classOf sp = c := by
  obtain ⟨-, ls, runs, classOf, hl, hc⟩ := segregated h
  refine ⟨classOf, fun b hb => slobList_eq_iff.mp (hc.live b hb), fun c sp hsp => ?_⟩
  rw [hl.listed_eq] at hsp
  obtain ⟨p, hp, heq⟩ := List.mem_map.mp hsp
  exact hc.lists c sp (Entry.lru.inj heq ▸ hp)

/-- Four blocks fill a page. -/
def fullPage : List (Event ℕ) :=
  [.alloc 0 ⟨1023, 0, none⟩, .newPages 0 (some 2), .addPage 0, .alloc 0 ⟨1023, 0, none⟩,
    .alloc 1 ⟨1023, 0, none⟩, .alloc 1 ⟨1023, 0, none⟩]

/-- A full page, which is on no list, comes back on the list of its class. -/
theorem size_classes_segregated_after_reopening : ∃ s s',
    (machine smallConfig fun _ => 0).run emptyState fullPage = some s ∧
      s.live.map Block.start = [5632, 5120, 4608, 4096] ∧
      listed smallConfig s.heap.links .medium = [] ∧
      (machine smallConfig fun _ => 0).run s [.free 0 ⟨5120, 1023, 0⟩] = some s' ∧
      listed smallConfig s'.heap.links .medium = [.lru 2] ∧
      ∃ classOf : ℕ → SizeClass,
        (∀ b ∈ s'.live, (classOf (smallConfig.pageOf b.start)).Has b.size) ∧
        ∀ c sp, .lru sp ∈ listed smallConfig s'.heap.links c → classOf sp = c := by
  obtain ⟨s, hr, hlive, hfull, s', hr', hback⟩ : ∃ s,
      (machine smallConfig fun _ => 0).run emptyState fullPage = some s ∧
        s.live.map Block.start = [5632, 5120, 4608, 4096] ∧
        listed smallConfig s.heap.links .medium = [] ∧ ∃ s',
      (machine smallConfig fun _ => 0).run s [.free 0 ⟨5120, 1023, 0⟩] = some s' ∧
        listed smallConfig s'.heap.links .medium = [.lru 2] :=
    ⟨_, rfl, rfl, rfl, _, rfl, rfl⟩
  have hreach : (machine smallConfig fun _ => 0).Reachable s :=
    ⟨emptyState, _, emptyState_emptyHeap, hr⟩
  exact ⟨s, s', hr, hlive, hfull, hr', hback, size_classes_segregated (hreach.run hr')⟩

end OperatingSystems.Slob
