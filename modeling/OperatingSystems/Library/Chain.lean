import Mathlib.Data.List.Basic
import Mathlib.Data.Nat.Notation

namespace OperatingSystems.Library

variable {α β : Type*}

/-- `xs` is what a walk meets that starts at `p` and stops at `q`: each element is found at its
`start`, and `link` says where the walk goes from it. -/
def Chain (start : β → α) (link : β → α → Prop) : α → List β → α → Prop
  | p, [], q => p = q
  | p, x :: xs, q => p = start x ∧ ∃ r, link x r ∧ Chain start link r xs q

namespace Chain

variable {start : β → α} {link link' : β → α → Prop} {p q r : α} {x : β} {xs ys zs : List β}

@[simp] theorem nil_iff : Chain start link p [] q ↔ p = q := Iff.rfl

@[simp] theorem cons_iff :
    Chain start link p (x :: xs) q ↔ p = start x ∧ ∃ r, link x r ∧ Chain start link r xs q := Iff.rfl

theorem append_iff : Chain start link p (xs ++ ys) q ↔
    ∃ r, Chain start link p xs r ∧ Chain start link r ys q := by
  induction xs generalizing p with
  | nil => simp
  | cons x xs ih =>
    simp only [List.cons_append, cons_iff, ih]
    constructor
    · rintro ⟨hp, r, hr, m, hxs, hys⟩
      exact ⟨m, ⟨hp, r, hr, hxs⟩, hys⟩
    · rintro ⟨m, ⟨hp, r, hr, hxs⟩, hys⟩
      exact ⟨hp, r, hr, m, hxs, hys⟩

theorem append (h : Chain start link p xs r) (h' : Chain start link r ys q) :
    Chain start link p (xs ++ ys) q :=
  append_iff.mpr ⟨r, h, h'⟩

theorem cons (h : link x r) (h' : Chain start link r xs q) : Chain start link (start x) (x :: xs) q :=
  ⟨rfl, r, h, h'⟩

/-- Around an element in the middle. -/
theorem split_iff : Chain start link p (ys ++ x :: zs) q ↔
    Chain start link p ys (start x) ∧ ∃ r, link x r ∧ Chain start link r zs q := by
  rw [append_iff]
  constructor
  · rintro ⟨_, hys, rfl, hzs⟩
    exact ⟨hys, hzs⟩
  · rintro ⟨hys, hzs⟩
    exact ⟨_, hys, rfl, hzs⟩

/-- A chain depends on the links of its own elements only. -/
theorem congr (h : ∀ x ∈ xs, ∀ r, link x r → link' x r) (hc : Chain start link p xs q) :
    Chain start link' p xs q := by
  induction xs generalizing p with
  | nil => exact hc
  | cons x xs ih =>
    obtain ⟨hp, r, hr, hxs⟩ := hc
    exact ⟨hp, r, h x List.mem_cons_self r hr, ih (fun y hy => h y (List.mem_cons_of_mem x hy)) hxs⟩

/-- A walk over a nonempty chain starts at its first element. -/
theorem head_eq (h : Chain start link p xs q) (hp : p ≠ q) : ∃ x ys, xs = x :: ys ∧ p = start x := by
  cases xs with
  | nil => exact absurd h hp
  | cons x ys => exact ⟨x, ys, rfl, h.1⟩

/-- No element is found at the end, so a walk that is there has nothing left. -/
theorem nil_of_end (hq : ∀ x ∈ xs, start x ≠ q) (h : Chain start link q xs q) : xs = [] := by
  cases xs with
  | nil => rfl
  | cons x xs => exact absurd h.1.symm (hq x List.mem_cons_self)

/-- Where the place of an element and its link determine each other, there is one walk only. -/
theorem unique (hfun : ∀ x y r r', start x = start y → link x r → link y r' → x = y ∧ r = r')
    (hxs : ∀ x ∈ xs, start x ≠ q) (hys : ∀ x ∈ ys, start x ≠ q)
    (h : Chain start link p xs q) (h' : Chain start link p ys q) : xs = ys := by
  induction xs generalizing p ys with
  | nil =>
    obtain rfl : p = q := h
    exact (nil_of_end hys h').symm
  | cons x xs ih =>
    cases ys with
    | nil => exact absurd (h.1.symm.trans h') (hxs x List.mem_cons_self)
    | cons y ys =>
      obtain ⟨hx, r, hr, htail⟩ := h
      obtain ⟨hy, r', hr', htail'⟩ := h'
      obtain ⟨rfl, rfl⟩ := hfun x y r r' (hx.symm.trans hy) hr hr'
      rw [ih (fun z hz => hxs z (List.mem_cons_of_mem _ hz))
        (fun z hz => hys z (List.mem_cons_of_mem _ hz)) htail htail']

/-- Such a walk meets no place twice. -/
theorem nodup (hfun : ∀ x y r r', start x = start y → link x r → link y r' → x = y ∧ r = r')
    (hxs : ∀ x ∈ xs, start x ≠ q) (h : Chain start link p xs q) : (xs.map start).Nodup := by
  induction xs generalizing p with
  | nil => exact List.nodup_nil
  | cons x xs ih =>
    have htail : ∀ y ∈ xs, start y ≠ q := fun y hy => hxs y (List.mem_cons_of_mem x hy)
    obtain ⟨r, hr, hrest⟩ := h.2
    refine List.nodup_cons.mpr ⟨fun hmem => ?_, ih htail hrest⟩
    -- a second visit would give a shorter walk from the same place
    obtain ⟨y, hy, hyx⟩ := List.mem_map.mp hmem
    obtain ⟨ys, zs, rfl⟩ := List.append_of_mem hy
    obtain ⟨-, r', hr', hzs⟩ := split_iff.mp hrest
    obtain ⟨rfl, rfl⟩ := hfun x y r r' hyx.symm hr hr'
    have hshort : ys ++ x :: zs = zs :=
      unique hfun htail (fun z hz => htail z (by simp [hz])) hrest hzs
    have hlength := congrArg List.length hshort
    simp only [List.length_append, List.length_cons] at hlength
    omega

end Chain

end OperatingSystems.Library
