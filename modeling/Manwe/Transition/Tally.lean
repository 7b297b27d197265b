import Mathlib
import Manwe.Transition.Run

/-!
# Counting the parties in a given situation

Concurrent components keep counters — readers inside a lock, calls in flight — that are meant
to equal the number of parties in some situation. With an unbounded supply of parties the
situation is a predicate `P : ι → Prop`, and `Tally P n` says that **exactly `n`** parties are
in it. A step changes the situation of one party (`Tally.insert`, `Tally.erase`) or of a list
of distinct ones (`Tally.insertAll`), and the counter moves along. When a party's situation is a
predicate of its local state and the step is a `Function.update`, the `update` forms apply.
-/

namespace Manwe

open Finset

variable {ι : Type*} {P Q : ι → Prop} {n m : ℕ} {j : ι}

/-- Exactly `n` parties satisfy `P`. -/
def Tally (P : ι → Prop) (n : ℕ) : Prop := ∃ F : Finset ι, (∀ k, k ∈ F ↔ P k) ∧ F.card = n

namespace Tally

/-- Nobody is in the situation. -/
theorem zero (h : ∀ k, ¬ P k) : Tally P 0 := ⟨∅, fun k => by simp [h k], rfl⟩

/-- A tally only depends on who is in the situation. -/
theorem congr (h : Tally P n) (hPQ : ∀ k, Q k ↔ P k) : Tally Q n := by
  obtain ⟨F, hF, hn⟩ := h
  exact ⟨F, fun k => (hF k).trans (hPQ k).symm, hn⟩

/-- The count is determined by the situation. -/
theorem unique (h : Tally P n) (h' : Tally P m) : n = m := by
  obtain ⟨F, hF, rfl⟩ := h
  obtain ⟨G, hG, rfl⟩ := h'
  congr 1
  ext k
  rw [hF, hG]

theorem pos (h : Tally P n) (hj : P j) : 0 < n := by
  obtain ⟨F, hF, rfl⟩ := h
  exact card_pos.mpr ⟨j, (hF j).mpr hj⟩

/-- A zero count leaves nobody in the situation. -/
theorem none_of_zero (h : Tally P 0) (k : ι) : ¬ P k := fun hk => absurd (h.pos hk) (by omega)

/-- A positive count has somebody in the situation. -/
theorem exists_of_pos (h : Tally P n) (hn : 0 < n) : ∃ k, P k := by
  obtain ⟨F, hF, rfl⟩ := h
  obtain ⟨k, hk⟩ := card_pos.mp hn
  exact ⟨k, (hF k).mp hk⟩

/-- The last party in the situation is the only one. -/
theorem eq_of_one (h : Tally P 1) {k : ι} (hj : P j) (hk : P k) : j = k := by
  obtain ⟨F, hF, h1⟩ := h
  exact card_le_one.mp h1.le j ((hF j).mpr hj) k ((hF k).mpr hk)

/-- One more party enters the situation. -/
theorem insert (h : Tally P n) (hj : ¬ P j) (hQ : ∀ k, Q k ↔ P k ∨ k = j) : Tally Q (n + 1) := by
  classical
  obtain ⟨F, hF, rfl⟩ := h
  refine ⟨Insert.insert j F, fun k => ?_, card_insert_of_notMem fun hm => hj ((hF j).mp hm)⟩
  rw [mem_insert, hF, hQ, or_comm]

/-- One party leaves the situation. -/
theorem erase (h : Tally P n) (hj : P j) (hQ : ∀ k, Q k ↔ P k ∧ k ≠ j) : Tally Q (n - 1) := by
  classical
  obtain ⟨F, hF, rfl⟩ := h
  refine ⟨F.erase j, fun k => ?_, card_erase_of_mem ((hF j).mpr hj)⟩
  rw [mem_erase, hF, hQ, and_comm]

/-- A list of distinct parties enters the situation. -/
theorem insertAll {l : List ι} (h : Tally P n) (hl : l.Nodup) (hd : ∀ k ∈ l, ¬ P k)
    (hQ : ∀ k, Q k ↔ P k ∨ k ∈ l) : Tally Q (n + l.length) := by
  induction l generalizing P n with
  | nil => exact h.congr fun k => by simp [hQ k]
  | cons a l ih =>
    obtain ⟨ha, hl⟩ := List.nodup_cons.mp hl
    have h1 : Tally (fun k => P k ∨ k = a) (n + 1) := h.insert (hd a (by simp)) fun _ => Iff.rfl
    have h2 : Tally Q (n + 1 + l.length) := by
      refine ih h1 hl (fun k hk => ?_) fun k => ?_
      · rintro (hP | rfl)
        · exact hd k (by simp [hk]) hP
        · exact ha hk
      · rw [hQ, List.mem_cons, or_assoc]
    exact (by omega : n + 1 + l.length = n + (l.length + 1)) ▸ h2

/-- Two situations that exclude each other are counted separately. -/
theorem split {R : ι → Prop} (h : Tally P n) (hP : ∀ k, P k ↔ Q k ∨ R k)
    (hd : ∀ k, Q k → ¬ R k) : ∃ a b, Tally Q a ∧ Tally R b ∧ n = a + b := by
  classical
  obtain ⟨F, hF, rfl⟩ := h
  refine ⟨_, _, ⟨F.filter Q, fun k => ?_, rfl⟩, ⟨F.filter (¬ Q ·), fun k => ?_, rfl⟩,
    (card_filter_add_card_filter_not Q).symm⟩
  · rw [mem_filter, hF, hP]
    exact ⟨And.right, fun hk => ⟨.inl hk, hk⟩⟩
  · rw [mem_filter, hF, hP]
    exact ⟨fun hk => hk.1.resolve_left hk.2, fun hk => ⟨.inr hk, fun hq => hd k hq hk⟩⟩

section Update

variable {α : Type*} [DecidableEq ι] {f : ι → α} (R : α → Prop) {x : α}

variable (h : Tally (fun k => R (f k)) n)

include h

/-- A local step that does not change the situation. -/
theorem update (hx : R x ↔ R (f j)) : Tally (fun k => R (Function.update f j x k)) n :=
  h.congr fun k => iff_of_eq (update_alike rfl (propext hx) k)

/-- A local step into the situation. -/
theorem update_enter (hj : ¬ R (f j)) (hx : R x) :
    Tally (fun k => R (Function.update f j x k)) (n + 1) := by
  refine h.insert hj fun k => ?_
  obtain rfl | hk := eq_or_ne k j
  · simp [hx]
  · simp [hk]

/-- A local step out of the situation. -/
theorem update_leave (hj : R (f j)) (hx : ¬ R x) :
    Tally (fun k => R (Function.update f j x k)) (n - 1) := by
  refine h.erase hj fun k => ?_
  obtain rfl | hk := eq_or_ne k j
  · simp [hx]
  · simp [hk]

end Update

end Tally

end Manwe
