import Mathlib

/-!
# Gathering the members of a kind

`gather p join l` replaces the members of `l` that satisfy `p` by a single one, **at the place of
the first**: the others are joined to it in order. Whoever builds the list member by member keeps
either the place of that one (`gather_snoc_of_some`) or only whether it is there (`any_gather`).
-/

namespace Manwe

open List

variable {α : Type*} {p : α → Bool} {join : α → α → α}

def gather (p : α → Bool) (join : α → α → α) : List α → List α
  | [] => []
  | a :: l =>
    if p a then (l.filter p).foldl join a :: l.filter fun b => !p b else a :: gather p join l

theorem gather_cons_of_pos {a : α} (l : List α) (h : p a = true) :
    gather p join (a :: l) = (l.filter p).foldl join a :: l.filter fun b => !p b := if_pos h

theorem gather_cons_of_neg {a : α} (l : List α) (h : p a = false) :
    gather p join (a :: l) = a :: gather p join l :=
  if_neg (by simp [h])

/-- A change that the kind does not see leaves the place of the first one alone. -/
theorem findIdx?_modify {g : α → α} (hg : ∀ a, p (g a) = p a) (l : List α) (i : ℕ) :
    (l.modify i g).findIdx? p = l.findIdx? p := by
  induction l generalizing i with
  | nil => simp
  | cons a l ih =>
    cases i with
    | zero => simp [findIdx?_cons, hg]
    | succ => simp [findIdx?_cons, ih]

variable {b : α}

theorem findIdx?_snoc_of_neg (l : List α) (h : p b = false) :
    (l ++ [b]).findIdx? p = l.findIdx? p := by
  simp [h]

/-- A member of another kind comes last. -/
theorem gather_snoc_of_neg (l : List α) (h : p b = false) :
    gather p join (l ++ [b]) = gather p join l ++ [b] := by
  induction l with
  | nil => simp [gather, h]
  | cons a l ih =>
    rw [cons_append]
    cases ha : p a with
    | true => simp [gather_cons_of_pos, ha, h, filter_append]
    | false => rw [gather_cons_of_neg _ ha, gather_cons_of_neg _ ha, ih, cons_append]

/-- The first of its kind comes last. -/
theorem gather_snoc_of_none {l : List α} (h : l.any p = false) :
    gather p join (l ++ [b]) = gather p join l ++ [b] := by
  induction l with
  | nil => simp [gather]
  | cons a l ih =>
    rw [any_cons, Bool.or_eq_false_iff] at h
    rw [cons_append, gather_cons_of_neg _ h.1, gather_cons_of_neg _ h.1, ih h.2, cons_append]

section Stable

variable (hjoin : ∀ a b, p a = true → p (join a b) = true)

include hjoin

theorem foldl_join_pos (l : List α) {a : α} (h : p a = true) : p (l.foldl join a) = true := by
  induction l generalizing a with
  | nil => exact h
  | cons b l ih => exact ih (hjoin a b h)

/-- Gathering keeps whether there is a member of the kind. -/
theorem any_gather (l : List α) : (gather p join l).any p = l.any p := by
  induction l with
  | nil => rfl
  | cons a l ih =>
    cases ha : p a with
    | true =>
      rw [gather_cons_of_pos l ha, any_cons, foldl_join_pos hjoin _ ha, any_cons, ha]
      rfl
    | false => rw [gather_cons_of_neg l ha, any_cons, ih, any_cons]

/-- **Another member of the kind** is joined to the one that is there. -/
theorem gather_snoc_of_some {b : α} {l : List α} {i : ℕ} (hb : p b = true)
    (hi : (gather p join l).findIdx? p = some i) :
    gather p join (l ++ [b]) = (gather p join l).modify i fun a => join a b := by
  induction l generalizing i with
  | nil => cases hi
  | cons a l ih =>
    rw [cons_append]
    cases ha : p a with
    | true =>
      rw [gather_cons_of_pos l ha, findIdx?_cons, foldl_join_pos hjoin _ ha] at hi
      obtain rfl : 0 = i := by simpa using hi
      simp [gather_cons_of_pos _ ha, filter_append, hb]
    | false =>
      rw [gather_cons_of_neg l ha, findIdx?_cons, ha] at hi
      obtain ⟨j, hj, rfl⟩ : ∃ j, (gather p join l).findIdx? p = some j ∧
        j + 1 = i := by simpa using hi
      rw [gather_cons_of_neg _ ha, gather_cons_of_neg _ ha, ih hj]
      rfl

end Stable

end Manwe
