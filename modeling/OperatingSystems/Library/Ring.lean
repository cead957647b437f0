import Mathlib.Data.List.Nodup
import Mathlib.Logic.Function.Basic
import Mathlib.Data.Nat.Notation

namespace OperatingSystems.Library

/-- The `next` and `prev` pointers of all `struct list_head`s. -/
structure Links (ν : Type*) where
  next : ν → ν
  prev : ν → ν

namespace Links

variable {ν : Type*} [DecidableEq ν]

/-- `__list_add` -/
def insertBetween (l : Links ν) (new prev next : ν) : Links ν where
  prev := Function.update (Function.update l.prev next new) new prev
  next := Function.update (Function.update l.next new next) prev new

def listAdd (l : Links ν) (new head : ν) : Links ν := l.insertBetween new head (l.next head)

def listAddTail (l : Links ν) (new head : ν) : Links ν := l.insertBetween new (l.prev head) head

/-- `__list_del` -/
def bridge (l : Links ν) (prev next : ν) : Links ν where
  prev := Function.update l.prev next prev
  next := Function.update l.next prev next

/-- `INIT_LIST_HEAD` -/
def initListHead (l : Links ν) (x : ν) : Links ν where
  next := Function.update l.next x x
  prev := Function.update l.prev x x

def listDelInit (l : Links ν) (x : ν) : Links ν := (l.bridge (l.prev x) (l.next x)).initListHead x

/-- `list_del`, which leaves two poison values behind. -/
def listDel (l : Links ν) (x poison1 poison2 : ν) : Links ν :=
  let l := l.bridge (l.prev x) (l.next x)
  ⟨Function.update l.next x poison1, Function.update l.prev x poison2⟩

def listMoveTail (l : Links ν) (x head : ν) : Links ν :=
  (l.bridge (l.prev x) (l.next x)).listAddTail x head

def listEmpty (l : Links ν) (head : ν) : Bool := l.next head = head

/-- How the body of a loop ends: with the next round, or with a `break`. -/
inductive Flow (σ : Type*) where
  | next (s : σ)
  | done (s : σ)

/-- `list_for_each`, the pointers being part of the loop's state: where the loop stands when it is
left, which is the head when no `break` was met. -/
def listForEach {σ : Type*} (links : σ → Links ν) (head : ν) (body : σ → ν → Flow σ) :
    ℕ → ν → σ → Option (ν × σ)
  | 0, _, _ => none
  | fuel + 1, pos, s =>
    if pos = head then some (pos, s)
    else match body s pos with
      | .done s' => some (pos, s')
      | .next s' => listForEach links head body fuel ((links s').next pos) s'

/-- The same loop over the entries of a list. -/
def scan {σ : Type*} (head : ν) (body : σ → ν → Flow σ) : List ν → σ → ν × σ
  | [], s => (head, s)
  | x :: xs, s => match body s x with
    | .done s' => (x, s')
    | .next s' => scan head body xs s'

/-- The entries from `pos` up to the head. -/
def entriesFrom (l : Links ν) (head : ν) : ℕ → ν → List ν
  | 0, _ => []
  | fuel + 1, pos => if pos = head then [] else pos :: entriesFrom l head fuel (l.next pos)

/-- The pointers lead from `a` through `xs` to `b` and back. -/
def Path (l : Links ν) : ν → List ν → ν → Prop
  | a, [], b => l.next a = b ∧ l.prev b = a
  | a, x :: xs, b => (l.next a = x ∧ l.prev x = a) ∧ Path l x xs b

/-- A circular list with head `h` and entries `xs`. -/
structure Ring (l : Links ν) (h : ν) (xs : List ν) : Prop where
  path : l.Path h xs h
  nodup : (h :: xs).Nodup

variable {l l' : Links ν} {a b h x y new : ν} {xs ys zs : List ν}

omit [DecidableEq ν] in
@[simp] theorem path_nil : l.Path a [] b ↔ l.next a = b ∧ l.prev b = a := Iff.rfl

omit [DecidableEq ν] in
@[simp] theorem path_cons :
    l.Path a (x :: xs) b ↔ (l.next a = x ∧ l.prev x = a) ∧ l.Path x xs b := Iff.rfl

omit [DecidableEq ν] in
theorem path_append : l.Path a (xs ++ x :: ys) b ↔ l.Path a xs x ∧ l.Path x ys b := by
  induction xs generalizing a with
  | nil => rfl
  | cons y xs ih => simp only [List.cons_append, path_cons, ih, and_assoc]

omit [DecidableEq ν] in
/-- A path depends on the pointers along it only. -/
theorem Path.congr (hnext : ∀ x, x = a ∨ x ∈ xs → l'.next x = l.next x)
    (hprev : ∀ x, x ∈ xs ∨ x = b → l'.prev x = l.prev x) (hp : l.Path a xs b) : l'.Path a xs b := by
  induction xs generalizing a with
  | nil => exact ⟨(hnext a (.inl rfl)).trans hp.1, (hprev b (.inr rfl)).trans hp.2⟩
  | cons x xs ih =>
    refine ⟨⟨(hnext a (.inl rfl)).trans hp.1.1, (hprev x (.inl List.mem_cons_self)).trans hp.1.2⟩, ?_⟩
    refine ih (fun y hy => hnext y (.inr ?_)) (fun y hy => hprev y ?_) hp.2
    · rcases hy with rfl | hy
      · exact List.mem_cons_self
      · exact List.mem_cons_of_mem x hy
    · exact hy.imp_left (List.mem_cons_of_mem x)

omit [DecidableEq ν] in
theorem path_concat : l.Path a (xs ++ [x]) b ↔ l.Path a xs x ∧ l.next x = b ∧ l.prev b = x :=
  path_append

omit [DecidableEq ν] in
/-- The entry before the end of a path. -/
theorem Path.last (hp : l.Path a xs b) : l.prev b = (a :: xs).getLast (List.cons_ne_nil a xs) := by
  induction xs generalizing a with
  | nil => exact hp.2
  | cons x xs ih => exact (ih hp.2).trans (List.getLast_cons _).symm

omit [DecidableEq ν] in
theorem Path.next_last (hp : l.Path a xs b) :
    l.next ((a :: xs).getLast (List.cons_ne_nil a xs)) = b := by
  induction xs generalizing a with
  | nil => exact hp.1
  | cons x xs ih =>
    rw [List.getLast_cons (List.cons_ne_nil x xs)]
    exact ih hp.2

namespace Ring

omit [DecidableEq ν] in
/-- Every entry may serve as the head. -/
theorem rotate (hr : l.Ring h (xs ++ x :: ys)) : l.Ring x (ys ++ h :: xs) := by
  obtain ⟨hxs, hys⟩ := path_append.mp hr.path
  refine ⟨path_append.mpr ⟨hys, hxs⟩, ?_⟩
  refine (List.Perm.nodup_iff ?_).mp hr.nodup
  exact @List.perm_append_comm _ (h :: xs) (x :: ys)

omit [DecidableEq ν] in
/-- A ring depends on the pointers of its own entries only. -/
theorem congr (hr : l.Ring h xs)
    (hsame : ∀ x ∈ h :: xs, l'.next x = l.next x ∧ l'.prev x = l.prev x) : l'.Ring h xs := by
  refine ⟨hr.path.congr (fun x hx => ?_) (fun x hx => ?_), hr.nodup⟩
  · exact (hsame x (List.mem_cons.mpr hx)).1
  · exact (hsame x (List.mem_cons.mpr hx.symm)).2

omit [DecidableEq ν] in
theorem prev_mem (hr : l.Ring h xs) : l.prev h ∈ h :: xs := by
  rw [hr.path.last]
  exact List.getLast_mem _

omit [DecidableEq ν] in
theorem prev_mem_of_mem (hr : l.Ring h xs) (hx : x ∈ h :: xs) : l.prev x ∈ h :: xs := by
  rcases List.mem_cons.mp hx with rfl | hx
  · exact hr.prev_mem
  · obtain ⟨ys, zs, rfl⟩ := List.append_of_mem hx
    have hmem := hr.rotate.prev_mem
    simp only [List.mem_cons, List.mem_append] at hmem ⊢
    rcases hmem with h | h | h | h <;> simp [h]

omit [DecidableEq ν] in
theorem next_mem_of_mem (hr : l.Ring h xs) (hx : x ∈ h :: xs) : l.next x ∈ h :: xs := by
  have hhead : ∀ {h xs}, l.Ring h xs → l.next h ∈ h :: xs := by
    intro h xs hr
    cases xs with
    | nil => exact List.mem_singleton.mpr hr.path.1
    | cons x xs => simp [hr.path.1.1]
  rcases List.mem_cons.mp hx with rfl | hx
  · exact hhead hr
  · obtain ⟨ys, zs, rfl⟩ := List.append_of_mem hx
    have hmem := hhead hr.rotate
    simp only [List.mem_cons, List.mem_append] at hmem ⊢
    rcases hmem with h | h | h | h <;> simp [h]

omit [DecidableEq ν] in
/-- An entry is in its list once. -/
theorem not_mem (hr : l.Ring h (xs ++ x :: ys)) : x ∉ h :: (xs ++ ys) := by
  have hperm : (h :: (xs ++ x :: ys)).Perm (x :: h :: (xs ++ ys)) :=
    (List.perm_middle.cons h).trans (List.Perm.swap x h _)
  exact (List.nodup_cons.mp (hperm.nodup_iff.mp hr.nodup)).1

omit [DecidableEq ν] in
theorem empty_iff (hr : l.Ring h xs) : l.next h = h ↔ xs = [] := by
  cases xs with
  | nil => exact iff_of_true hr.path.1 rfl
  | cons x xs =>
    refine iff_of_false (fun hh => ?_) (List.cons_ne_nil x xs)
    have hx : h = x := hh.symm.trans hr.path.1.1
    exact (List.nodup_cons.mp hr.nodup).1 (hx ▸ List.mem_cons_self)

/-- `list_add_tail` on the head appends. -/
theorem listAddTail (hr : l.Ring h xs) (hnew : new ∉ h :: xs) :
    (l.listAddTail new h).Ring h (xs ++ [new]) := by
  obtain ⟨hpath, hnodup⟩ := hr
  have hnh : new ≠ h := fun he => hnew (he ▸ List.mem_cons_self)
  refine ⟨path_concat.mpr ⟨?_, ?_, ?_⟩, ?_⟩
  · rcases List.eq_nil_or_concat xs with rfl | ⟨ys, z, rfl⟩
    · have hz : l.prev h = h := hpath.2
      simp [Links.listAddTail, insertBetween, hz]
    · rw [List.concat_eq_append] at hpath hnodup hnew ⊢
      obtain ⟨hys, -, hz⟩ := path_concat.mp hpath
      rw [← List.cons_append, List.nodup_append] at hnodup
      have hne : ∀ x ∈ h :: ys, x ≠ z := fun x hx he =>
        hnodup.2.2 x hx z (List.mem_singleton_self z) he
      have hzh : z ≠ h := (hne h List.mem_cons_self).symm
      have hmem : ∀ x ∈ h :: (ys ++ [z]), x ≠ new := fun x hx he => hnew (he ▸ hx)
      refine path_concat.mpr ⟨hys.congr (fun x hx => ?_) (fun x hx => ?_), ?_, ?_⟩
      · have hx' : x ∈ h :: ys := List.mem_cons.mpr hx
        have hxnew : x ≠ new := hmem x (List.mem_append_left [z] hx')
        simp [Links.listAddTail, insertBetween, hz, hne x hx', hxnew]
      · have hxh : x ≠ h := by
          rcases hx with hx | rfl
          · exact fun he => (List.nodup_cons.mp hnodup.1).1 (he ▸ hx)
          · exact hzh
        have hxnew : x ≠ new := by
          refine hmem x (List.mem_cons_of_mem h ?_)
          rcases hx with hx | rfl <;> simp [*]
        simp [Links.listAddTail, insertBetween, hxh, hxnew]
      · simp [Links.listAddTail, insertBetween, hz]
      · simp [Links.listAddTail, insertBetween, hz]
  · have hlast : new ≠ l.prev h := fun he => hnew (he ▸ hpath.last ▸ List.getLast_mem _)
    simp [Links.listAddTail, insertBetween, hlast]
  · simp [Links.listAddTail, insertBetween, hnh.symm]
  · rw [← List.cons_append]
    exact List.nodup_append.mpr ⟨hnodup, List.nodup_singleton new, fun x hx y hy he =>
      hnew (List.mem_singleton.mp hy ▸ he ▸ hx)⟩

/-- `list_add_tail` on an entry puts the new one before it. -/
theorem listAddTail_entry (hr : l.Ring h (xs ++ x :: ys)) (hnew : new ∉ h :: (xs ++ x :: ys)) :
    (l.listAddTail new x).Ring h (xs ++ new :: x :: ys) := by
  have hrot := hr.rotate
  have hnot : new ∉ x :: (ys ++ h :: xs) := by
    refine fun hmem => hnew ?_
    simp only [List.mem_cons, List.mem_append] at hmem ⊢
    rcases hmem with h | h | h | h <;> simp [h]
  have hadd := hrot.listAddTail hnot
  rw [List.append_assoc, List.cons_append] at hadd
  simpa only [List.append_assoc, List.cons_append, List.nil_append] using hadd.rotate

/-- Adding an entry leaves the entries of no list and of other lists alone. -/
theorem listAddTail_next (hr : l.Ring h xs) (hx : x ∈ h :: xs) (hnew : y ≠ new) (hy : y ∉ h :: xs) :
    (l.listAddTail new x).next y = l.next y := by
  have hprev : y ≠ l.prev x := fun he => hy (he ▸ hr.prev_mem_of_mem hx)
  exact (Function.update_of_ne hprev _ _).trans (Function.update_of_ne hnew _ _)

/-- `list_add` puts the new entry first. -/
theorem listAdd (hr : l.Ring h xs) (hnew : new ∉ h :: xs) : (l.listAdd new h).Ring h (new :: xs) := by
  cases xs with
  | nil =>
    have hsame : l.listAdd new h = l.listAddTail new h := by
      rw [Links.listAdd, Links.listAddTail, hr.path.1, hr.path.2]
    rw [hsame]
    exact hr.listAddTail hnew
  | cons x xs =>
    have hsame : l.listAdd new h = l.listAddTail new x := by
      rw [Links.listAdd, Links.listAddTail, hr.path.1.1, hr.path.1.2]
    rw [hsame]
    have hfront : l.Ring h ([] ++ x :: xs) := hr
    exact hfront.listAddTail_entry hnew

end Ring

/-- Taking an entry out of a path. -/
theorem Path.bridge (hp : l.Path a (xs ++ x :: ys) b) (hfront : (a :: (xs ++ x :: ys)).Nodup)
    (hback : (xs ++ x :: ys ++ [b]).Nodup) :
    (l.bridge (l.prev x) (l.next x)).Path a (xs ++ ys) b := by
  induction xs generalizing a with
  | nil =>
    obtain ⟨⟨hax, hxa⟩, hys⟩ := hp
    cases ys with
    | nil => simp [Links.bridge, hxa, hys.1]
    | cons y ys =>
      obtain ⟨⟨hxy, -⟩, hys⟩ := hys
      simp only [List.nil_append, List.nodup_cons, List.mem_cons, not_or] at hfront
      simp only [List.nil_append, List.cons_append, List.nodup_cons] at hback
      rw [hxa, hxy]
      refine ⟨by simp [Links.bridge], hys.congr (fun z hz => ?_) (fun z hz => ?_)⟩
      · refine Function.update_of_ne ?_ _ _
        intro heq
        subst heq
        exact hz.elim hfront.1.2.1 hfront.1.2.2
      · refine Function.update_of_ne ?_ _ _
        intro heq
        subst heq
        exact hback.2.1 (List.mem_append.mpr (hz.imp_right List.mem_singleton.mpr))
  | cons c cs ih =>
    obtain ⟨⟨hac, hca⟩, hrest⟩ := hp
    rw [List.cons_append, List.nodup_cons] at hfront
    rw [List.cons_append, List.cons_append, List.nodup_cons] at hback
    obtain ⟨hcs, hxs⟩ := path_append.mp hrest
    have hprev : l.prev x ∈ c :: cs := by
      rw [hcs.last]
      exact List.getLast_mem _
    have hnext : l.next x ∈ ys ++ [b] := by
      cases ys with
      | nil => simp [hxs.1]
      | cons y ys => simp [hxs.1.1]
    refine ⟨⟨?_, ?_⟩, ih hrest hfront.2 hback.2⟩
    · refine (Function.update_of_ne ?_ _ _).trans hac
      intro heq
      subst heq
      exact hfront.1 (List.mem_append_left (x :: ys) hprev)
    · refine (Function.update_of_ne ?_ _ _).trans hca
      intro heq
      subst heq
      apply hback.1
      rw [List.append_assoc, List.cons_append]
      exact List.mem_append_right cs (List.mem_cons_of_mem x hnext)

section Loops

variable {σ : Type*} {links : σ → Links ν} {body : σ → ν → Flow σ} {s : σ}

theorem Path.forEach (hp : l.Path a xs h) (hh : h ∉ xs) (hs : links s = l)
    (hkeep : ∀ s x s', links s = l → body s x = .next s' → links s' = l) {fuel : ℕ}
    (hfuel : xs.length < fuel) :
    listForEach links h body fuel (l.next a) s = some (scan h body xs s) := by
  induction xs generalizing a s fuel with
  | nil =>
    obtain ⟨fuel, rfl⟩ := Nat.exists_eq_add_one_of_ne_zero (Nat.ne_zero_of_lt hfuel)
    rw [hp.1, listForEach, if_pos rfl]
    rfl
  | cons x xs ih =>
    obtain ⟨fuel, rfl⟩ := Nat.exists_eq_add_one_of_ne_zero (Nat.ne_zero_of_lt hfuel)
    rw [List.mem_cons, not_or] at hh
    rw [hp.1.1, listForEach, if_neg (Ne.symm hh.1), scan]
    cases hb : body s x with
    | done s' => rfl
    | next s' =>
      have hs' : links s' = l := hkeep s x s' hs hb
      simp only [hs']
      exact ih hp.2 hh.2 hs' (Nat.lt_of_succ_lt_succ hfuel)

omit [DecidableEq ν] in
/-- Entries that change nothing are passed over. -/
theorem scan_append (hys : ∀ y ∈ ys, body s y = .next s) :
    scan h body (ys ++ xs) s = scan h body xs s := by
  induction ys with
  | nil => rfl
  | cons y ys ih =>
    rw [List.cons_append, scan, hys y List.mem_cons_self]
    exact ih fun z hz => hys z (List.mem_cons_of_mem y hz)

omit [DecidableEq ν] in
/-- A search, whose body changes the state only where it breaks off. -/
theorem scan_search (hkeep : ∀ x ∈ xs, ∀ s', body s x = .next s' → s' = s) :
    ((∀ x ∈ xs, body s x = .next s) ∧ scan h body xs s = (h, s)) ∨
    ∃ ys x zs s', xs = ys ++ x :: zs ∧ (∀ y ∈ ys, body s y = .next s) ∧ body s x = .done s' ∧
      scan h body xs s = (x, s') := by
  induction xs with
  | nil => exact .inl ⟨nofun, rfl⟩
  | cons x xs ih =>
    rw [scan]
    cases hb : body s x with
    | done s' => exact .inr ⟨[], x, xs, s', rfl, nofun, hb, rfl⟩
    | next s' =>
      obtain rfl := hkeep x List.mem_cons_self s' hb
      rcases ih fun y hy => hkeep y (List.mem_cons_of_mem x hy) with
        ⟨hall, hscan⟩ | ⟨ys, y, zs, s'', rfl, hys, hy, hscan⟩
      · exact .inl ⟨List.forall_mem_cons.mpr ⟨hb, hall⟩, hscan⟩
      · exact .inr ⟨x :: ys, y, zs, s'', rfl, List.forall_mem_cons.mpr ⟨hb, hys⟩, hy, hscan⟩

/-- A loop that leaves the pointers alone until its `break` visits the entries in order. -/
theorem Ring.forEach (hr : l.Ring h xs) (hs : links s = l)
    (hkeep : ∀ s x s', links s = l → body s x = .next s' → links s' = l) {fuel : ℕ}
    (hfuel : xs.length < fuel) :
    listForEach links h body fuel (l.next h) s = some (scan h body xs s) :=
  hr.path.forEach (List.nodup_cons.mp hr.nodup).1 hs hkeep hfuel

theorem Path.entriesFrom (hp : l.Path a xs h) (hh : h ∉ xs) {fuel : ℕ} (hfuel : xs.length < fuel) :
    l.entriesFrom h fuel (l.next a) = xs := by
  induction xs generalizing a fuel with
  | nil =>
    obtain ⟨fuel, rfl⟩ := Nat.exists_eq_add_one_of_ne_zero (Nat.ne_zero_of_lt hfuel)
    rw [hp.1, Links.entriesFrom, if_pos rfl]
  | cons x xs ih =>
    obtain ⟨fuel, rfl⟩ := Nat.exists_eq_add_one_of_ne_zero (Nat.ne_zero_of_lt hfuel)
    rw [List.mem_cons, not_or] at hh
    rw [hp.1.1, Links.entriesFrom, if_neg (Ne.symm hh.1), ih hp.2 hh.2 (Nat.lt_of_succ_lt_succ hfuel)]

theorem Ring.entriesFrom (hr : l.Ring h xs) {fuel : ℕ} (hfuel : xs.length < fuel) :
    l.entriesFrom h fuel (l.next h) = xs :=
  hr.path.entriesFrom (List.nodup_cons.mp hr.nodup).1 hfuel

end Loops

namespace Ring

/-- Unlinking an entry. -/
theorem bridge (hr : l.Ring h (xs ++ x :: ys)) :
    (l.bridge (l.prev x) (l.next x)).Ring h (xs ++ ys) := by
  obtain ⟨hpath, hnodup⟩ := hr
  refine ⟨hpath.bridge hnodup ?_, ?_⟩
  · exact (List.perm_append_singleton h _).nodup_iff.mpr hnodup
  · exact hnodup.sublist ((List.sublist_cons_self x ys).append_left xs |>.cons_cons h)

theorem listDelInit_next (hr : l.Ring h xs) (hx : x ∈ h :: xs) (hy : y ∉ h :: xs) :
    (l.listDelInit x).next y = l.next y := by
  have hprev : y ≠ l.prev x := fun he => hy (he ▸ hr.prev_mem_of_mem hx)
  have hself : y ≠ x := fun he => hy (he ▸ hx)
  exact (Function.update_of_ne hself _ _).trans (Function.update_of_ne hprev _ _)

theorem listDelInit (hr : l.Ring h (xs ++ x :: ys)) :
    (l.listDelInit x).Ring h (xs ++ ys) ∧ (l.listDelInit x).next x = x ∧
      (l.listDelInit x).prev x = x := by
  refine ⟨hr.bridge.congr fun z hz => ?_, Function.update_self .., Function.update_self ..⟩
  have hzx : z ≠ x := fun he => hr.not_mem (he ▸ hz)
  exact ⟨Function.update_of_ne hzx _ _, Function.update_of_ne hzx _ _⟩

theorem listDel {poison1 poison2 : ν} (hr : l.Ring h (xs ++ x :: ys)) :
    (l.listDel x poison1 poison2).Ring h (xs ++ ys) := by
  refine hr.bridge.congr fun z hz => ?_
  have hzx : z ≠ x := fun he => hr.not_mem (he ▸ hz)
  exact ⟨Function.update_of_ne hzx _ _, Function.update_of_ne hzx _ _⟩

/-- Moving the head before the entry `x` makes the list start there. -/
theorem listMoveTail (hr : l.Ring h (xs ++ x :: ys)) :
    (l.listMoveTail h x).Ring h (x :: ys ++ xs) := by
  have hbridge := hr.rotate.bridge
  have hnot : h ∉ x :: (ys ++ xs) := hr.rotate.not_mem
  have hadd : ((l.bridge (l.prev h) (l.next h)).listAddTail h x).Ring x ((ys ++ xs) ++ h :: []) :=
    hbridge.listAddTail hnot
  exact hadd.rotate

end Ring

section Frames

/-- The pointers of the entries outside `S` are the same. -/
def SameOutside (S : List ν) (l l' : Links ν) : Prop :=
  ∀ y, y ∉ S → l'.next y = l.next y ∧ l'.prev y = l.prev y

variable {S T : List ν} {l'' : Links ν}

omit [DecidableEq ν] in
theorem SameOutside.mono (h : SameOutside S l l') (hST : S ⊆ T) : SameOutside T l l' :=
  fun y hy => h y fun hS => hy (hST hS)

omit [DecidableEq ν] in
theorem SameOutside.trans (h : SameOutside S l l') (h' : SameOutside S l' l'') :
    SameOutside S l l'' :=
  fun y hy => ⟨(h' y hy).1.trans (h y hy).1, (h' y hy).2.trans (h y hy).2⟩

omit [DecidableEq ν] in
/-- The lists without an entry in `S` stay as they are. -/
theorem Ring.sameOutside (hr : l.Ring h xs) (hsame : SameOutside S l l')
    (hdisjoint : ∀ y ∈ h :: xs, y ∉ S) : l'.Ring h xs :=
  hr.congr fun y hy => hsame y (hdisjoint y hy)

theorem insertBetween_sameOutside : SameOutside [new, a, b] l (l.insertBetween new a b) := by
  intro y hy
  simp only [List.mem_cons, List.not_mem_nil, or_false, not_or] at hy
  simp [insertBetween, hy]

theorem bridge_sameOutside : SameOutside [a, b] l (l.bridge a b) := by
  intro y hy
  simp only [List.mem_cons, List.not_mem_nil, or_false, not_or] at hy
  simp [bridge, hy]

theorem initListHead_sameOutside : SameOutside [x] l (l.initListHead x) := by
  intro y hy
  simp only [List.mem_cons, List.not_mem_nil, or_false] at hy
  simp [initListHead, hy]

theorem Ring.listAdd_sameOutside (hr : l.Ring h xs) :
    SameOutside (new :: h :: xs) l (l.listAdd new h) := by
  refine insertBetween_sameOutside.mono (List.cons_subset_cons new ?_)
  refine List.cons_subset.mpr ⟨List.mem_cons_self, List.cons_subset.mpr ⟨?_, List.nil_subset _⟩⟩
  exact hr.next_mem_of_mem List.mem_cons_self

theorem Ring.listDel_sameOutside {poison1 poison2 : ν} (hr : l.Ring h xs) (hx : x ∈ h :: xs) :
    SameOutside (h :: xs) l (l.listDel x poison1 poison2) := by
  have hbridge : SameOutside (h :: xs) l (l.bridge (l.prev x) (l.next x)) :=
    bridge_sameOutside.mono (List.cons_subset.mpr ⟨hr.prev_mem_of_mem hx,
      List.cons_subset.mpr ⟨hr.next_mem_of_mem hx, List.nil_subset _⟩⟩)
  refine hbridge.trans fun y hy => ?_
  have hyx : y ≠ x := fun he => hy (he ▸ hx)
  exact ⟨Function.update_of_ne hyx _ _, Function.update_of_ne hyx _ _⟩

theorem Ring.listMoveTail_sameOutside (hr : l.Ring h (xs ++ x :: ys)) :
    SameOutside (h :: (xs ++ x :: ys)) l (l.listMoveTail h x) := by
  have hbridge : SameOutside (h :: (xs ++ x :: ys)) l (l.bridge (l.prev h) (l.next h)) :=
    bridge_sameOutside.mono (List.cons_subset.mpr ⟨hr.prev_mem_of_mem List.mem_cons_self,
      List.cons_subset.mpr ⟨hr.next_mem_of_mem List.mem_cons_self, List.nil_subset _⟩⟩)
  refine hbridge.trans (insertBetween_sameOutside.mono ?_)
  have hprev := hr.rotate.bridge.prev_mem
  refine List.cons_subset.mpr ⟨List.mem_cons_self, List.cons_subset.mpr ⟨?_,
    List.cons_subset.mpr ⟨by simp, List.nil_subset _⟩⟩⟩
  simp only [List.mem_cons, List.mem_append] at hprev ⊢
  rcases hprev with h | h | h <;> simp [h]

/-- Moving the head behind `p`, the last entry of `xs`, unless it stands there already. -/
theorem Ring.listMoveTail_ite {p : ν} (hr : l.Ring h (xs ++ ys))
    (hp : p = (h :: xs).getLast (List.cons_ne_nil h xs)) :
    (if p ≠ l.prev h ∧ l.next h ≠ l.next p then l.listMoveTail h (l.next p) else l).Ring h
        (ys ++ xs) ∧
      SameOutside (h :: (xs ++ ys)) l
        (if p ≠ l.prev h ∧ l.next h ≠ l.next p then l.listMoveTail h (l.next p) else l) := by
  cases ys with
  | nil =>
    rw [List.append_nil] at hr
    rw [if_neg fun hc => hc.1 (hp.trans hr.path.last.symm)]
    exact ⟨hr, fun _ _ => ⟨rfl, rfl⟩⟩
  | cons y ys =>
    cases xs with
    | nil =>
      have hph : p = h := hp
      rw [if_neg fun hc => hc.2 (hph ▸ rfl), List.append_nil]
      exact ⟨hr, fun _ _ => ⟨rfl, rfl⟩⟩
    | cons x xs =>
      obtain ⟨hxs, hys⟩ := path_append.mp hr.path
      have hnodup : ((h :: x :: xs) ++ y :: ys).Nodup := hr.nodup
      have hdisjoint := (List.nodup_append.mp hnodup).2.2
      have hnext : l.next p = y := hp ▸ hxs.next_last
      have hprev : p ≠ l.prev h := by
        rw [hp, hys.last]
        exact hdisjoint _ (List.getLast_mem _) _ (List.getLast_mem _)
      have hfirst : l.next h ≠ l.next p := by
        rw [hnext, hr.path.1.1]
        exact hdisjoint x (List.mem_cons_of_mem h List.mem_cons_self) y List.mem_cons_self
      rw [if_pos ⟨hprev, hfirst⟩, hnext]
      exact ⟨hr.listMoveTail, hr.listMoveTail_sameOutside⟩

end Frames

end Links

end OperatingSystems.Library
