import Mathlib.Logic.Function.Basic

namespace OperatingSystems.Library

variable {ι β : Type*} {own own' : ι → β → Prop} {stock stock' : β → Prop} {i : ι} {b : β}

/-- The parties share a stock: each has some things of it, and nobody has what another one has. -/
structure Shares (own : ι → β → Prop) (stock : β → Prop) : Prop where
  sub : ∀ i b, own i b → stock b
  unique : ∀ i j b, own i b → own j b → i = j

namespace Shares

theorem ne {j : ι} {c : β} (h : Shares own stock) (hb : own i b) (hc : own j c) (hne : j ≠ i) : c ≠ b :=
  fun heq => hne (h.unique j i b (heq ▸ hc) hb)

/-- One thing comes to the party `i`, and the others keep what they have. -/
theorem gain (h : Shares own stock) (hb : stock' b) (hstock : ∀ c, c ≠ b → stock c → stock' c)
    (hown : ∀ j c, own' j c → j = i ∧ c = b ∨ c ≠ b ∧ own j c) : Shares own' stock' := by
  constructor
  · intro j c hc
    rcases hown j c hc with ⟨-, rfl⟩ | ⟨hne, hold⟩
    · exact hb
    · exact hstock c hne (h.sub j c hold)
  · intro j k c hj hk
    rcases hown j c hj with ⟨rfl, rfl⟩ | ⟨hne, hold⟩
    · rcases hown k c hk with ⟨rfl, -⟩ | ⟨hne, -⟩
      · rfl
      · exact absurd rfl hne
    · rcases hown k c hk with ⟨-, rfl⟩ | ⟨-, hold'⟩
      · exact absurd rfl hne
      · exact h.unique j k c hold hold'

/-- One thing leaves the stock. -/
theorem loss (h : Shares own stock) (hstock : ∀ c, c ≠ b → stock c → stock' c)
    (hown : ∀ j c, own' j c → c ≠ b ∧ own j c) : Shares own' stock' := by
  constructor
  · intro j c hc
    obtain ⟨hne, hold⟩ := hown j c hc
    exact hstock c hne (h.sub j c hold)
  · intro j k c hj hk
    exact h.unique j k c (hown j c hj).2 (hown k c hk).2

/-- Nobody gets anything. -/
theorem mono (h : Shares own stock) (hstock : ∀ c, stock c → stock' c)
    (hown : ∀ j c, own' j c → own j c) : Shares own' stock' := by
  constructor
  · intro j c hc
    exact hstock c (h.sub j c (hown j c hc))
  · intro j k c hj hk
    exact h.unique j k c (hown j c hj) (hown k c hk)

end Shares

end OperatingSystems.Library
