import Mathlib

/-!
# Copy-on-write cells

A writer replaces the value of a shared cell, and readers go on with the cell they have: if a
reader may be at work the writer allocates a new cell, otherwise it edits the current one **in
place**. `Cow β` is the memory of such a writer, with the address of the current cell if there is
one; cells are never given out twice.

That a reader's view does not change is `Cow.read_put`: it needs no more than that the writer edits
in place only when nobody holds a cell.
-/

namespace Manwe

open Function

/-- The cells, the next address, and the current cell. -/
structure Cow (β : Type*) where
  cells : ℕ → β
  fresh : ℕ := 0
  cur : Option ℕ := none

namespace Cow

variable {β : Type*} {c : Cow β} {b d : β} {held : Set ℕ} {a : ℕ}

/-- The current value; `d` stands for no cell. -/
def value (c : Cow β) (d : β) : β := c.cur.elim d c.cells

/-- A new value, in place if the writer may and there is a cell. -/
def put (c : Cow β) (b : β) (inPlace : Bool) : Cow β := match c.cur, inPlace with
  | some a, true => { c with cells := update c.cells a b }
  | _, _ => { cells := update c.cells c.fresh b, fresh := c.fresh + 1, cur := some c.fresh }

/-- No value any more. -/
def clear (c : Cow β) : Cow β := { c with cur := none }

/-- Cells in use have been allocated. -/
structure Ok (c : Cow β) (held : Set ℕ) : Prop where
  cur : ∀ a, c.cur = some a → a < c.fresh
  held : ∀ a ∈ held, a < c.fresh

@[simp] theorem value_put (inPlace : Bool) : (c.put b inPlace).value d = b := by
  unfold put
  split <;> rename_i h
  · simp [value, h]
  · simp [value]

/-- **Readers keep their view.** -/
theorem read_put (h : c.Ok held) (hold : a ∈ held) {inPlace : Bool}
    (hp : inPlace = true → held = ∅) : (c.put b inPlace).cells a = c.cells a := by
  unfold put
  split
  · rw [hp rfl] at hold
    exact hold.elim
  · exact update_of_ne (Nat.ne_of_lt (h.held a hold)) _ _

namespace Ok

variable (h : c.Ok held)

include h

theorem put (inPlace : Bool) : (c.put b inPlace).Ok held := by
  unfold Cow.put
  split
  · exact ⟨h.cur, h.held⟩
  · refine ⟨fun a ha => ?_, fun a ha => Nat.lt_succ_of_lt (h.held a ha)⟩
    cases ha
    exact Nat.lt_succ_self _

theorem clear : c.clear.Ok held := ⟨nofun, h.held⟩

variable {held' : Set ℕ}

theorem mono (hs : held' ⊆ held) : c.Ok held' := ⟨h.cur, fun a ha => h.held a (hs ha)⟩

/-- A reader takes the current cell. -/
theorem take (hc : c.cur = some a) (hs : held' ⊆ insert a held) : c.Ok held' := by
  refine ⟨h.cur, fun a' ha' => ?_⟩
  rcases hs ha' with rfl | ha'
  · exact h.cur _ hc
  · exact h.held a' ha'

end Ok

end Cow

end Manwe
