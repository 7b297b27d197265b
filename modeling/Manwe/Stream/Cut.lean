import Mathlib

/-!
# Cutting lists at a separator

`cutAt c s` is the part of `s` before the first `c` and the part after it: what a scanner gets from
a search for a delimiter and two substrings. `trimBoth p s` drops the symbols with `p` from both
ends. The lemmas are those a parser and its serialiser need: where the cut falls in a list that was
put together around a separator, and what trimming can change.
-/

namespace Manwe

open List

variable {α : Type}

section Cut

variable [DecidableEq α] {c : α} {s a b : List α}

/-- The parts before and after the first `c`. -/
def cutAt (c : α) : List α → Option (List α × List α)
  | [] => none
  | x :: s => if x = c then some ([], s) else (cutAt c s).map fun p => (x :: p.1, p.2)

theorem cutAt_append (h : c ∉ a) : cutAt c (a ++ c :: b) = some (a, b) := by
  induction a with
  | nil => simp [cutAt]
  | cons x a ih =>
    rw [mem_cons, not_or] at h
    rw [cons_append, cutAt, if_neg (Ne.symm h.1), ih h.2]
    rfl

theorem cutAt_eq_none : cutAt c s = none ↔ c ∉ s := by
  induction s with
  | nil => simp [cutAt]
  | cons x s ih =>
    rw [cutAt, mem_cons, not_or]
    split
    · next h => simp [h]
    · next h => simp [ih, Ne.symm h]

theorem cutAt_eq_some : cutAt c s = some (a, b) ↔ s = a ++ c :: b ∧ c ∉ a := by
  refine ⟨fun h => ?_, fun h => by rw [h.1, cutAt_append h.2]⟩
  induction s generalizing a with
  | nil => cases h
  | cons x s ih =>
    rw [cutAt] at h
    split at h
    · next hx =>
      cases h
      exact ⟨by simp [hx], not_mem_nil⟩
    · next hx =>
      obtain ⟨⟨a', b'⟩, hc, heq⟩ := Option.map_eq_some_iff.1 h
      cases heq
      obtain ⟨rfl, ha⟩ := ih hc
      exact ⟨rfl, fun hm => (mem_cons.1 hm).elim (fun he => hx he.symm) ha⟩

/-- Where a list is cut does not depend on how it is written. -/
theorem cut_unique {a' b' : List α} (h : a ++ c :: b = a' ++ c :: b') (ha : c ∉ a) (ha' : c ∉ a') :
    a = a' ∧ b = b' := by
  have h₁ := cutAt_append (b := b) ha
  rw [h, cutAt_append ha'] at h₁
  cases h₁
  exact ⟨rfl, rfl⟩

omit [DecidableEq α] in
/-- A beginning without separator is a beginning of the first part. -/
theorem length_le_of_append_eq {d t : List α} (h : d ++ t = a ++ c :: b) (hd : c ∉ d) :
    d.length ≤ a.length := by
  by_contra hlt
  have hlen : a.length < d.length := not_le.1 hlt
  have hget : (d ++ t)[a.length]? = some c := by rw [h]; simp
  rw [getElem?_append_left hlen] at hget
  exact hd (mem_of_getElem? hget)

end Cut

section Trim

variable {p : α → Bool} {s : List α} {x : α}

/-- Drop the symbols with `p` from both ends. -/
def trimBoth (p : α → Bool) (s : List α) : List α := (s.dropWhile p).rdropWhile p

theorem trimBoth_cons (h : p x = true) : trimBoth p (x :: s) = trimBoth p s := by
  rw [trimBoth, dropWhile_cons_of_pos h, trimBoth]

theorem mem_of_mem_trimBoth (h : x ∈ trimBoth p s) : x ∈ s :=
  (dropWhile_sublist p).subset (( rdropWhile_prefix p _).subset h)

/-- Trimming loses nothing but symbols with `p`. -/
theorem mem_trimBoth (h : x ∈ s) (hx : ¬ p x) : x ∈ trimBoth p s := by
  have hmem : ∀ {l : List α}, x ∈ l → x ∈ l.dropWhile p := by
    intro l hl
    induction l with
    | nil => cases hl
    | cons y l ih =>
      rw [dropWhile_cons]
      split
      · next hy =>
        rcases mem_cons.1 hl with rfl | hl
        · exact absurd hy hx
        · exact ih hl
      · exact hl
  rw [trimBoth, rdropWhile, mem_reverse]
  exact hmem (mem_reverse.2 (hmem h))

/-- Nothing to trim at either end. -/
theorem trimBoth_eq_self (h : ∀ x ∈ s, ¬ p x) : trimBoth p s = s := by
  have hself : ∀ {l : List α}, (∀ x ∈ l, ¬ p x) → l.dropWhile p = l := by
    intro l hl
    cases l with
    | nil => rfl
    | cons y => exact dropWhile_cons_of_neg (hl y mem_cons_self)
  rw [trimBoth, hself h, rdropWhile, hself fun x hx => h x (mem_reverse.1 hx), reverse_reverse]

end Trim

end Manwe
