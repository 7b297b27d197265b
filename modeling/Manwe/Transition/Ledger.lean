import Mathlib

/-!
# Things that are in one place at a time

Values travelling through a channel and descriptors waiting to be closed share one safety
property: each is in **exactly one place**. A situation is a relation `At : π → α → Prop`
("`a` is at place `p`") and `Exclusive At` says that no `a` is at two places.

A step moves things around. `Exclusive.of_moves` covers every step that brings nothing new: it
suffices to name, for each thing at a place afterwards, the place it came from. The one thing
a step may bring in from outside is covered by `Exclusive.of_insert`, and needs to have been
nowhere before. Lists are used as places position by position (`l[i]? = some a`), so that an
exclusive situation also says that nothing is twice in the same list.
-/

namespace Manwe

variable {π α : Type*} {At At' : π → α → Prop} {a : α} {q : π}

/-- Nothing is at two places. -/
def Exclusive (At : π → α → Prop) : Prop := ∀ p p' a, At p a → At p' a → p = p'

namespace Exclusive

/-- **Moves.** A step that sends whatever is at `p` to `f p` keeps things in one place. -/
theorem of_moves (h : Exclusive At) (f : π → α → π)
    (hm : ∀ p a, At' p a → ∃ p₀, At p₀ a ∧ f p₀ a = p) : Exclusive At' := by
  intro p p' a hp hp'
  obtain ⟨p₀, h₀, rfl⟩ := hm p a hp
  obtain ⟨p₁, h₁, rfl⟩ := hm p' a hp'
  rw [h p₀ p₁ a h₀ h₁]

/-- **Arrivals.** A step that leaves everything where it was and puts the new thing `a` at `q`
keeps things in one place. -/
theorem of_insert (h : Exclusive At) (ha : ∀ p, ¬ At p a)
    (hm : ∀ p b, At' p b → At p b ∨ b = a ∧ p = q) : Exclusive At' := by
  intro p p' b hp hp'
  rcases hm p b hp with hp | ⟨rfl, rfl⟩
  · rcases hm p' b hp' with hp' | ⟨rfl, -⟩
    · exact h p p' b hp hp'
    · exact absurd hp (ha p)
  · rcases hm p' b hp' with hp' | ⟨-, rfl⟩
    · exact absurd hp' (ha p')
    · rfl

/-- A step that only drops things keeps the others in one place. -/
theorem mono (h : Exclusive At) (hm : ∀ p a, At' p a → At p a) : Exclusive At' :=
  fun p p' a hp hp' => h p p' a (hm p a hp) (hm p' a hp')

end Exclusive

end Manwe
